import RelLang.Parse
import RelLang.Proofs.Syntax.Form

/-!
# The grammar as forms

A form for each rule of the grammar: what is read of a text that is not malformed.
Repairs and reports have no place in it.
-/

namespace RelLang

open Grammar

namespace Operator

/-- The continuation that the tokens ahead ask for, with the token that asks for it. -/
def extensionOf (ks : List TokenKind) : Option (TokenKind × Extension) :=
  ks[0]?.bind fun k => (extension? k ks[1]?).map (k, ·)

theorem extensionOf_eq_some {ks : List TokenKind} {first : TokenKind} {e : Extension} :
    extensionOf ks = some (first, e) ↔ ks[0]? = some first ∧ extension? first ks[1]? = some e := by
  unfold extensionOf
  cases ks[0]? with
  | none => simp
  | some k =>
    rw [Option.bind_some, Option.map_eq_some_iff]
    constructor
    · rintro ⟨e', he, heq⟩
      obtain ⟨rfl, rfl⟩ := Prod.mk.inj heq
      exact ⟨rfl, he⟩
    · rintro ⟨hk, he⟩
      obtain rfl := Option.some.inj hk
      exact ⟨e, he, rfl⟩

/-- The tokens ahead do not extend an expression of no looser level than the given one. -/
def stopsAt (level : Nat) (ks : List TokenKind) : Bool :=
  (extensionOf ks).all fun ext => ext.2.level < level

/-- The relations between the sides of a comparison. -/
def comparisons : List TokenKind :=
  [.keyword .inKw, .punct .eq, .punct .lt, .punct .gt, .punct .le, .punct .ge, .keyword .isKw,
   .keyword .niKw]

theorem operators_compare : ∀ row ∈ table, row.node = .compareExpr →
    row.operators = comparisons := by
  decide

end Operator

namespace Form

/-! ### Names -/

/-- `Name`. -/
def name : Form := node .name (token [.ident])

/-- A comma with a name behind it. -/
def commaName (ks : List TokenKind) : Bool :=
  at? (.punct .comma) ks && ks[1]? == some .ident

def nameList : Form :=
  node .nameList (name ++ whileAhead commaName (token [.punct .comma] ++ name))

/-- The tokens that a qualified name is made of. -/
def segmentKinds : List TokenKind := [.ident, .keyword .intKw, .keyword .seqKw]

/-- A qualified name is ahead. -/
def qualNameAhead (ks : List TokenKind) : Bool :=
  ks[0]?.any TokenKind.isNameSegment
    || (at? (.keyword .thisKw) ks && ks[1]? == some (.punct .slash))

/-- A mark with a segment of a name behind it. -/
def segmentBehind (mark : Punct) (ks : List TokenKind) : Bool :=
  at? (.punct mark) ks && ks[1]?.any TokenKind.isNameSegment

def qualName : Form :=
  node .qualName <| row
    [ifAhead (at? (.keyword .thisKw)) (token [.keyword .thisKw] ++ token [.punct .slash]),
     token segmentKinds,
     whileAhead (segmentBehind .slash) (token [.punct .slash] ++ token segmentKinds)]

def qualNameList : Form := node .qualNameList (qualName ++ separated .comma qualName)

/-- A multiplicity in a node of its own, if one is ahead. -/
def optionalMult (allowed : List TokenKind) : Form :=
  ifAhead (atAny allowed) (node .mult (token allowed))

/-! ### Expressions inside other forms -/

/-- An expression of no looser level than the given one. -/
def exprAt (level : Nat) : Form := part (.expression level)

def expr : Form := exprAt 0

/-- The arguments in front of a closing bracket. -/
def arguments : Form := node .exprList (either .nothing (expr ++ separated .comma expr))

/-! ### Bounds -/

/-- The bound value of a form. -/
def ofBoundValue : BoundValueForm → Form
  | .oneToken => token [.atomName, .number, .keyword .noneKw]
  | .negativeNumber => token [.punct .minus] ++ token [.number]
  | .group => part .boundGroup
  | .name => qualName

def boundValue : Form :=
  node .bindRhsAtom <| ahead fun ks =>
    match BoundValueForm.ofTokens? ks[0]? ks[1]? with
    | some form => ofBoundValue form
    | none => never

/-- What continues a product of bound values. -/
def valueBehind (ks : List TokenKind) : Bool :=
  at? (.punct .arrow) ks || tupleCommaAhead ks[0]? ks[1]? ks[2]?

def boundProduct : Form :=
  node .bindRhsProduct <|
    boundValue ++ whileAhead valueBehind (token [.punct .arrow, .punct .comma] ++ boundValue)

def boundUnion : Form := node .bindRhsUnion (boundProduct ++ separated .plus boundProduct)

def boundGroup : Form := row [token [.punct .lparen], boundUnion, token [.punct .rparen]]

/-- What is joined to a name on the left of a bound. If nothing is, and the name is simple, the
whole is. -/
def boundPath (simple : Bool) (whole : Bool) : Form :=
  let joined := token [.punct .dot] ++ qualName
  if simple then
    if whole then look fun ks => !segmentBehind .dot ks
    else row [look (segmentBehind .dot), joined, whileAhead (segmentBehind .dot) joined]
  else if whole then never
  else whileAhead (segmentBehind .dot) joined

/-- The left side of a bound; it is a qualified name and nothing else, or it is not. -/
def boundLhs (simple : Bool) : Form :=
  node .boundLhs <| given (at? (.punct .hash))
    (row [token [.punct .hash], qualName, boundPath false simple])
    (qualName ++ boundPath true simple)

/-- The relation of a bound and the values on its right. -/
def boundRhs : Form := node .compareOp (token boundOperators) ++ boundUnion

def bound : Form :=
  node .bound <| given (at? (.keyword .noKw))
    (token [.keyword .noKw] ++ either (boundLhs true) (boundLhs false))
    (either (boundLhs true ++ ifAhead (atAny boundOperators) boundRhs)
      (boundLhs false ++ boundRhs))

def bounds : Form :=
  node .bounds <| optional (.keyword .exactlyKw) ++
    given (at? (.punct .lbrace))
      (row [token [.punct .lbrace], many bound, token [.punct .rbrace]]) qualName

/-! ### Blocks and binders -/

def block : Form :=
  node .block (row [token [.punct .lbrace], many expr, token [.punct .rbrace]])

/-- `'disj'? NameList ':' Mult? Expr`, in a node. -/
def declaration (kind : NodeKind) : Form :=
  node kind <| row [optional (.keyword .disjKw), nameList, token [.punct .colon],
    optionalMult Operator.typeMultiplicities, expr]

def quantDecl : Form := declaration .quantDecl

/-- A comma with a declaration behind it. -/
def commaDeclaration (ks : List TokenKind) : Bool :=
  at? (.punct .comma) ks && declarationBehind ks

def quantDecls : Form :=
  quantDecl ++ whileAhead commaDeclaration (token [.punct .comma] ++ quantDecl)

def binderBody : Form := given (at? (.punct .bar)) (token [.punct .bar] ++ expr) block

/-- A quantifier with declarations behind it. -/
def quantifierAhead (ks : List TokenKind) : Bool :=
  atAny Operator.quantifiers ks && declarationBehind ks

/-- A binder is ahead. -/
def binderAhead (ks : List TokenKind) : Bool := ks[0]?.any isBinderOnly || quantifierAhead ks

def quantified (quantifier : TokenKind) : Form :=
  node .quantExpr <|
    row [token [quantifier], given declarationAhead quantDecls never, binderBody]

def letDecl : Form := node .letDecl (row [name, token [.punct .eq], expr])

def bindings (kind : NodeKind) (keyword : TokenKind) : Form :=
  node kind <| row [token [keyword], letDecl,
    whileAhead commaName (token [.punct .comma] ++ letDecl), binderBody]

/-- The binder that a keyword opens. -/
def binder (keyword : TokenKind) : Form :=
  match keyword with
  | .keyword .letKw => bindings .letExpr keyword
  | .keyword .bindKw => bindings .bindExpr keyword
  | _ => quantified keyword

/-! ### Atoms -/

def parenthesized : Form :=
  node .parenExpr (row [token [.punct .lparen], expr, token [.punct .rparen]])

def comprehension : Form :=
  node .comprehensionExpr <| row
    [token [.punct .lbrace], quantDecls,
     given (at? (.punct .bar)) (token [.punct .bar] ++ expr)
       (ifAhead (at? (.punct .lbrace)) block),
     token [.punct .rbrace]]

/-- The atom of a form, which begins with a token of the kind. -/
def ofAtom (first : TokenKind) : AtomForm → Form
  | .oneToken kind => node kind (token [first])
  | .negativeNumber => node .constExpr (token [first] ++ token [.number])
  | .nameRef => node .nameRef qualName
  | .atName => node .atNameExpr (token [first] ++ name)
  | .parenthesized => parenthesized
  | .braced => given declarationBehind comprehension block

/-! ### Operators -/

/-- What an expression begins with. -/
def operandHead : Form := ahead fun ks =>
  match ks[0]? with
  | none => never
  | some k =>
    if binderAhead ks then binder k
    else match Operator.frontRow? k with
      | some row => node row.node (token [k] ++ exprAt row.operandLevel)
      | none => match AtomForm.ofTokens? (some k) ks[1]? with
        | some form => ofAtom k form
        | none => never

/-- The operator of a comparison that begins with a token of the kind. -/
def compareOperator (first : TokenKind) : Form :=
  node .compareOp <|
    if Operator.isNegation first then token [first] ++ token Operator.comparisons
    else token [first]

/-- A multiplicity behind an arrow that belongs to the arrow. -/
def arrowMultAhead (ks : List TokenKind) : Bool :=
  atAny Operator.arrowMultiplicities ks && !quantifierAhead ks && ks[1]?.any Operator.startsExpr

/-- An arrow that begins with a token of the kind. -/
def arrowOperator (first : TokenKind) : Form :=
  node .arrowOp <|
    (if Operator.arrowMultiplicities.contains first then token [first] ++ token [.punct .arrow]
      else token [first])
      ++ ifAhead arrowMultAhead (token Operator.arrowMultiplicities)

/-- The operator between two operands. -/
def infixOperator (kind : NodeKind) (first : TokenKind) : Form :=
  match kind with
  | .compareExpr => compareOperator first
  | .arrowExpr => arrowOperator first
  | _ => token [first]

/-- The `else` of an implication and what stands behind it. -/
def otherwise : Form :=
  ifAhead (at? (.keyword .elseKw)) (token [.keyword .elseKw] ++ exprAt Operator.impliesLevel)

/-- The part of a node behind the operand in front of its operator. -/
def tail (first : TokenKind) (e : Operator.Extension) : Form :=
  match e.operandLevel? with
  | some level =>
    row [infixOperator e.node first, exprAt level,
      if e.node = .impliesExpr then otherwise else nothing]
  | none =>
    if first = .punct .lbracket then row [token [first], arguments, token [.punct .rbracket]]
    else token [first]

/-- An expression with the given beginning and the operators behind it. -/
def extendedAt (level : Nat) (head : Form) : Form :=
  extended level head ++ look (Operator.stopsAt level)

/-- An expression of no looser level than the given one. -/
def expression (level : Nat) : Form := extendedAt level operandHead

/-- What a nonterminal stands for. -/
def ofNonterminal : Nonterminal → Form
  | .expression level => expression level
  | .boundGroup => boundGroup

/-! ### Commands -/

/-- A `for` with a number behind it, and not bounds. -/
def scopeAhead (ks : List TokenKind) : Bool :=
  at? (.keyword .forKw) ks
    && (ks[1]? == some .number
      || (ks[1]? == some (.keyword .exactlyKw) && ks[2]? == some .number))

def typescope : Form :=
  node .typescope (row [optional (.keyword .exactlyKw), token [.number], qualName])

/-- A comma with a typescope behind it. -/
def commaTypescope (ks : List TokenKind) : Bool :=
  at? (.punct .comma) ks && ks[1]?.any [.number, .keyword .exactlyKw].contains

def typescopes : Form :=
  typescope ++ whileAhead commaTypescope (token [.punct .comma] ++ typescope)

/-- A typescope is ahead, rather than the number of a default scope. -/
def typescopeAhead (ks : List TokenKind) : Bool :=
  at? (.keyword .exactlyKw) ks
    || (at? .number ks
      && (ks[1]?.any TokenKind.isNameSegment
        || (ks[1]? == some (.keyword .thisKw) && ks[2]? == some (.punct .slash))))

def scope : Form :=
  node .scope <| token [.keyword .forKw] ++ given typescopeAhead typescopes
    (token [.number]
      ++ ifAhead (at? (.keyword .butKw)) (token [.keyword .butKw] ++ typescopes))

def scopeAndBounds : Form :=
  ifAhead scopeAhead scope
    ++ ifAhead (at? (.keyword .forKw)) (token [.keyword .forKw] ++ bounds)

/-- `(QualName | Block)?`. -/
def optionalTarget : Form :=
  given qualNameAhead qualName (ifAhead (at? (.punct .lbrace)) block)

def cmdDecl : Form :=
  node .cmdDecl <| row [ifAhead (at? .ident) (name ++ token [.punct .colon]),
    token [.keyword .runKw, .keyword .checkKw], optionalTarget, scopeAndBounds]

def instDecl : Form :=
  node .instDecl (row [token [.keyword .instKw], name, bounds, ifAhead scopeAhead scope])

/-! ### Assertions -/

/-- `is sufficient` or `is necessary` is ahead. -/
def propertyAhead (ks : List TokenKind) : Bool :=
  at? (.keyword .isKw) ks
    && ks[1]?.any [.keyword .sufficientKw, .keyword .necessaryKw].contains

def optionalArguments : Form :=
  ifAhead (at? (.punct .lbracket))
    (row [token [.punct .lbracket], arguments, token [.punct .rbracket]])

/-- The tokens that tell a form of assertions. -/
def tagKinds : AssertionForm → List TokenKind
  | .property | .quantifiedProperty => [.keyword .sufficientKw, .keyword .necessaryKw]
  | .satisfiability =>
    [.keyword .satKw, .keyword .unsatKw, .keyword .theoremKw, .keyword .forgeErrorKw]
  | .consistency => [.keyword .consistentKw, .keyword .inconsistentKw]

/-- `'forge_error' FILE_PATH?`, or one of the other results. -/
def result (others : List TokenKind) : Form :=
  given (at? (.keyword .forgeErrorKw)) (token [.keyword .forgeErrorKw] ++ optional .filePath)
    (token others)

/-- What stands behind the `is` of an assertion. -/
def ofAssertion : AssertionForm → Form
  | .property =>
    row [token (tagKinds .property), token [.keyword .forKw], name, scopeAndBounds]
  | .quantifiedProperty =>
    row [token (tagKinds .quantifiedProperty), token [.keyword .forKw], name, optionalArguments,
      scopeAndBounds]
  | .satisfiability => result (tagKinds .satisfiability) ++ scopeAndBounds
  | .consistency =>
    row [token (tagKinds .consistency), token [.keyword .withKw], name, scopeAndBounds]

/-- A name in front of a block. -/
def namedBlockAhead (ks : List TokenKind) : Bool :=
  at? .ident ks && ks[1]? == some (.punct .lbrace)

/-- A block that is no comprehension. -/
def blockAhead (ks : List TokenKind) : Bool :=
  at? (.punct .lbrace) ks && !declarationBehind ks

/-- An `all` with declarations behind it. -/
def universalAhead (ks : List TokenKind) : Bool :=
  at? (.keyword .allKw) ks && declarationBehind ks

/-- `'all' QuantDecl (',' QuantDecl)* BinderBody`. -/
def universal : Form := row [token [.keyword .allKw], quantDecls, binderBody]

/-- A block and the operators behind it; with an `is` behind them it is an expression. -/
def assertedBlock (body : Asserted) : Form :=
  extendedAt 0 block ++ .ahead fun ks =>
    yields (if at? (.keyword .isKw) ks then .expression else .plain) nothing body

/-- Declarations and their body; they are an expression unless the word of a property is behind
them. -/
def assertedUniversal : Asserted → Form
  | .plain => never
  | .expression => node .quantExpr universal ++ look fun ks => !propertyAhead ks
  | .quantified => universal ++ look propertyAhead

/-- What stands between `assert` and the word `is`. -/
def asserted (body : Asserted) : Form :=
  given namedBlockAhead (yields .plain (name ++ block) body) <|
    given blockAhead (assertedBlock body) <|
      given universalAhead (assertedUniversal body) (yields .expression expr body)

/-- The part of an assertion in front of the word `is`. -/
def assertionHead (body : Asserted) : Form := token [.keyword .assertKw] ++ asserted body

/-- The form that the word behind `is` tells. -/
def tagAhead (quantified : Bool) (form : AssertionForm) (ks : List TokenKind) : Bool :=
  at? (.keyword .isKw) ks && ks[1]?.bind (AssertionForm.ofTag? quantified) == some form

/-- An assertion of a form with what it asserts. -/
def tagged (body : Asserted) (form : AssertionForm) : Form :=
  node form.node <| assertionHead body ++
    given (tagAhead (body == .quantified) form) (token [.keyword .isKw] ++ ofAssertion form) never

/-- An assertion; it is of another form than `AssertDecl`, or it is not. -/
def assertion (admitted : Bool) : Form :=
  if admitted then
    anyOf [tagged .expression .property, tagged .quantified .quantifiedProperty,
      tagged .expression .satisfiability, tagged .expression .consistency]
  else node .assertDecl (assertionHead .plain)

/-! ### Predicates -/

def optionalReceiver : Form :=
  ifAhead receiverAhead (node .receiver (qualName ++ token [.punct .dot]))

def paraDecl : Form := declaration .paraDecl

/-- Items with commas behind them; that behind the last may be missing. -/
def commaList (item : Form) : Form :=
  many (item ++ token [.punct .comma]) ++ either item nothing

def paraDecls : Form :=
  node .paraDecls <| given (at? (.punct .lparen))
    (row [token [.punct .lparen], commaList paraDecl, token [.punct .rparen]])
    (row [token [.punct .lbracket], commaList paraDecl, token [.punct .rbracket]])

def optionalParaDecls : Form := ifAhead (atAny [.punct .lparen, .punct .lbracket]) paraDecls

def predDecl : Form :=
  node .predDecl <| row
    [token [.keyword .predKw],
     ifAhead (at? (.keyword .wheatKw)) (node .predType (token [.keyword .wheatKw])),
     optionalReceiver, name, optionalParaDecls, block]

def funDecl : Form :=
  node .funDecl <| row
    [token [.keyword .funKw], optionalReceiver, name, optionalParaDecls, token [.punct .colon],
     optionalMult Operator.typeMultiplicities, expr, block]

def factDecl : Form :=
  node .factDecl (row [token [.keyword .factKw], ifAhead (at? .ident) name, block])

/-! ### Signatures -/

def sigModifier : Form :=
  either (token [.keyword .varKw, .keyword .abstractKw])
    (node .mult (token Operator.sigMultiplicities))

def sigExt : Form :=
  node .sigExt <| given (at? (.keyword .inKw))
    (row [token [.keyword .inKw], qualName, separated .plus qualName])
    (token [.keyword .extendsKw] ++ qualName)

def fieldDecl : Form :=
  node .fieldDecl <| row [optional (.keyword .varKw), nameList, token [.punct .colon],
    optionalMult Operator.fieldMultiplicities, exprAt Operator.arrowLevel]

def fieldList : Form :=
  node .fieldList (row [token [.punct .lbrace], commaList fieldDecl, token [.punct .rbrace]])

def sigDecl : Form :=
  node .sigDecl <| row
    [many sigModifier, token [.keyword .sigKw], nameList,
     ifAhead (atAny [.keyword .extendsKw, .keyword .inKw]) sigExt, fieldList,
     ifAhead (at? (.punct .lbrace)) block]

/-! ### Tests -/

/-- A name with a colon behind it. -/
def labelAhead (ks : List TokenKind) : Bool := at? .ident ks && ks[1]? == some (.punct .colon)

def testDecl : Form :=
  node .testDecl <| row
    [ifAhead labelAhead (name ++ token [.punct .colon]), optionalTarget, scopeAndBounds,
     token [.keyword .isKw], result [.keyword .satKw, .keyword .unsatKw, .keyword .theoremKw]]

/-- A test starts with a name or a block, if it stands in a list. -/
def testAhead (ks : List TokenKind) : Bool := at? (.punct .lbrace) ks || qualNameAhead ks

def testItem : Form := given testAhead testDecl never

/-- Items in braces. -/
def testBlock (item : Form) : Form :=
  node .testBlock (row [token [.punct .lbrace], many item, token [.punct .rbrace]])

def testExpectDecl : Form :=
  node .testExpectDecl <| row [optional (.keyword .testKw), token [.keyword .expectKw],
    ifAhead (at? .ident) name, testBlock testItem]

def exampleDecl : Form :=
  node .exampleDecl <| row [token [.keyword .exampleKw], name, token [.keyword .isKw], expr,
    token [.keyword .forKw], bounds]

def suiteItem : Form := anyOf [exampleDecl, testExpectDecl, assertion true]

def testSuiteDecl : Form :=
  node .testSuiteDecl <| row [token [.keyword .testKw], token [.keyword .suiteKw],
    token [.keyword .forKw], name, testBlock suiteItem]

/-! ### Modules -/

def moduleDecl : Form :=
  node .moduleDecl <| row [token [.keyword .moduleKw], qualName,
    ifAhead (at? (.punct .lbracket))
      (row [token [.punct .lbracket], nameList, token [.punct .rbracket]])]

/-- The module or the file that is imported. -/
def importTarget : Form :=
  given qualNameAhead
    (qualName ++ ifAhead (at? (.punct .lbracket))
      (row [token [.punct .lbracket], qualNameList, token [.punct .rbracket]]))
    (token [.filePath])

def importDecl : Form :=
  node .importDecl <| row [token [.keyword .openKw], importTarget,
    ifAhead (at? (.keyword .asKw)) (token [.keyword .asKw] ++ name)]

def optionValue : Form :=
  given (atAny [.filePath, .number]) (token [.filePath, .number]) <|
    given (at? (.punct .minus)) (token [.punct .minus] ++ token [.number]) qualName

def optionDecl : Form :=
  node .optionDecl (row [token [.keyword .optionKw], qualName, optionValue])

def evalDecl : Form := node .evalDecl (token [.keyword .evalKw] ++ expr)

def sexprDecl : Form := node .sexprDecl (token [.sexpr])

/-- The paragraph behind a beginning. -/
def ofParagraph : ParagraphStart → Form
  | .sig => sigDecl
  | .pred => predDecl
  | .func => funDecl
  | .fact => factDecl
  | .assertion => either (assertion true) (assertion false)
  | .command => cmdDecl
  | .testSuite => testSuiteDecl
  | .testExpect => testExpectDecl
  | .exampleTest => exampleDecl
  | .inst => instDecl
  | .option => optionDecl
  | .sexpr => sexprDecl

def paragraph : Form := ahead fun ks =>
  match ParagraphStart.ofTokens? ks[0]? ks[1]? ks[2]? with
  | some start => ofParagraph start
  | none => never

/-- Declarations behind those that have been read, up to the end of the text. -/
def declarations (seen : Seen) : Form :=
  if seen.paragraph then many paragraph
  else if seen.eval then many (either importDecl evalDecl)
  else many importDecl ++ either (many paragraph) (evalDecl ++ many (either importDecl evalDecl))

/-- All of the text of a module. -/
def sourceFile : Form :=
  row [ifAhead (at? (.keyword .moduleKw)) moduleDecl, declarations {}, look List.isEmpty]

/-- All of the text of an expression. -/
def exprRoot : Form := expr ++ look List.isEmpty

/-- All of a text. -/
def ofEntry : Entry → Form
  | .wholeModule => sourceFile
  | .oneExpression => exprRoot

end Form
end RelLang
