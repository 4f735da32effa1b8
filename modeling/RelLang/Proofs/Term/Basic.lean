import Mathlib.Algebra.Ring.Nat
import RelLang.Parse
import RelLang.View.Expression

/-!
# Abstract expressions

Expressions without their text: what each form is made of, as data. Words and
operators are kept as they are written. An abstract expression is written with
parentheses around every part that has parts itself, and with one blank between
tokens. It is read back from a tree through the views.
-/

namespace RelLang

namespace Multiplicity

/-- The keyword of a multiplicity. -/
def keyword : Multiplicity → Keyword
  | .lone => .loneKw
  | .some => .someKw
  | .one => .oneKw
  | .two => .twoKw
  | .set => .setKw
  | .func => .funcKw
  | .pfunc => .pfuncKw

end Multiplicity

/-- The keyword of a quantifier. -/
def Quantifier.keyword : Quantifier → Keyword
  | .all => .allKw
  | .no => .noKw
  | .sum => .sumKw
  | .lone => .loneKw
  | .some => .someKw
  | .one => .oneKw
  | .two => .twoKw

/-- Is a number below zero. -/
def Constant.isNegative : Constant → Bool
  | .number n => n < 0
  | _ => false

namespace Term

/-! ### Words -/

/-- A word that is one token, of a kind that passes. -/
structure Spelled (test : TokenKind → Bool) where
  kind : TokenKind
  text : String
  passes : test kind = true
  significant : kind.isSignificant = true
  lexes : Lexer.lexemes text.toList = [⟨kind, text.toList, []⟩]

namespace Spelled

variable {test : TokenKind → Bool}

def token (w : Spelled test) : TokenKind × String := (w.kind, w.text)

theorem kind_eq {kind : TokenKind} (w : Spelled (· == kind)) : w.kind = kind := eq_of_beq w.passes

/-- The word that a text is, if it is one. -/
def ofText? (test : TokenKind → Bool) (text : String) : Option (Spelled test) :=
  match h : Lexer.lexemes text.toList with
  | [l] =>
    if hl : test l.kind = true ∧ l.kind.isSignificant = true ∧ l = ⟨l.kind, text.toList, []⟩ then
      some ⟨l.kind, text, hl.1, hl.2.1, h.trans (congrArg ([·]) hl.2.2)⟩
    else none
  | _ => none

theorem ofText?_text (w : Spelled test) : ofText? test w.text = some w := by
  unfold ofText?
  split
  · next l h =>
    rw [w.lexes] at h
    obtain rfl := (List.cons.inj h).1
    rw [dif_pos ⟨w.passes, w.significant, rfl⟩]
  · next h => exact absurd w.lexes (h _)

end Spelled

/-- The token of a keyword. -/
def word (k : Keyword) : TokenKind × String := (.keyword k, k.spelling)

/-- The token of a punctuation mark. -/
def mark (p : Punct) : TokenKind × String := (.punct p, p.spelling)

abbrev Ident := Spelled (· == .ident)

/-- The name of an atom, without the backtick in front of it. -/
structure AtomName where
  name : String
  lexes : Lexer.lexemes ("\x60" ++ name).toList = [⟨.atomName, ("\x60" ++ name).toList, []⟩]

/-- One or more. -/
structure Several (α : Type) where
  first : α
  rest : List α

namespace Several

variable {α β : Type}

def toList (s : Several α) : List α := s.first :: s.rest

def ofList? : List α → Option (Several α)
  | [] => none
  | a :: as => some ⟨a, as⟩

def map (f : α → β) (s : Several α) : Several β := ⟨f s.first, s.rest.map f⟩

@[simp] theorem toList_map (f : α → β) (s : Several α) : (s.map f).toList = s.toList.map f := rfl

end Several

/-- `this/` and the segments of a name. -/
structure QualifiedName where
  this : Bool
  segments : Several (Spelled TokenKind.isNameSegment)

/-- A multiplicity beside an arrow. -/
abbrev SideMult := { m : Multiplicity // .keyword m.keyword ∈ Operator.arrowMultiplicities }

/-- A multiplicity in front of a type. -/
abbrev TypeMult := { m : Multiplicity // .keyword m.keyword ∈ Operator.typeMultiplicities }

/-- Numbers are those of which the magnitude fits into a signed word of 64 bits. -/
def Fits : Constant → Prop
  | .number n => n.natAbs < 2 ^ 63
  | _ => True

instance : DecidablePred Fits := fun c =>
  match c with
  | .number n => inferInstanceAs (Decidable (n.natAbs < 2 ^ 63))
  | .none | .univ | .iden => .isTrue trivial

/-! ### Operators -/

/-- An operator between two operands that is no comparison, no arrow and no implication. -/
def isPlain (k : TokenKind) : Bool :=
  (Operator.infixRow? k).any fun row => row.fixity.isBinary && row.node != .compareExpr
    && row.node != .arrowExpr && row.node != .impliesExpr

def isImplication (k : TokenKind) : Bool := (Operator.infixRow? k).any (·.node == .impliesExpr)

/-- An operator in front of its operand. -/
def isFront (k : TokenKind) : Bool := (Operator.frontRow? k).isSome

/-- An operator between two operands. -/
inductive BinaryOperator where
  | plain (operator : Spelled isPlain)
  | compare (negation : Option (Spelled Operator.isNegation))
      (relation : Spelled Operator.isComparison)
  | arrow (left right : Option SideMult)

/-! ### Forms -/

/-- Names with what they stand for. -/
structure Declaration (α : Type) where
  disj : Bool
  names : Several Ident
  mult : Option TypeMult
  type : α

/-- A name with its value. -/
structure Binding (α : Type) where
  name : Ident
  value : α

/-- An expression with parts of some type. -/
inductive Shape (α : Type) where
  | binary (operator : BinaryOperator) (lhs rhs : α)
  | implies (operator : Spelled isImplication) (lhs rhs : α) (otherwise : Option α)
  | unary (operator : Spelled isFront) (operand : α)
  | quantified (quantifier : Quantifier) (decls : Several (Declaration α)) (body : α)
  | letIn (isBind : Bool) (bindings : Several (Binding α)) (body : α)
  | comprehension (decls : Several (Declaration α)) (body : Option α)
  | boxJoin (target : α) (arguments : List α)
  | prime (operand : α)
  | const (value : { c : Constant // Fits c })
  | nameRef (name : QualifiedName)
  | atName (name : Ident)
  | atom (name : AtomName)
  | this
  | sexpr (text : Spelled (· == .sexpr))
  | block (items : List α)

end Term

/-- Abstract expressions of no more than a height. -/
def Term : Nat → Type
  | 0 => Empty
  | n + 1 => Term.Shape (Term n)

namespace Term

variable {α β : Type}

def Declaration.map (f : α → β) (d : Declaration α) : Declaration β := { d with type := f d.type }

def Binding.map (f : α → β) (b : Binding α) : Binding β := { b with value := f b.value }

namespace Shape

/-- The same with other parts. -/
def map (f : α → β) : Shape α → Shape β
  | .binary operator lhs rhs => .binary operator (f lhs) (f rhs)
  | .implies operator lhs rhs otherwise => .implies operator (f lhs) (f rhs) (otherwise.map f)
  | .unary operator operand => .unary operator (f operand)
  | .quantified quantifier decls body => .quantified quantifier (decls.map (·.map f)) (f body)
  | .letIn isBind bindings body => .letIn isBind (bindings.map (·.map f)) (f body)
  | .comprehension decls body => .comprehension (decls.map (·.map f)) (body.map f)
  | .boxJoin target arguments => .boxJoin (f target) (arguments.map f)
  | .prime operand => .prime (f operand)
  | .const value => .const value
  | .nameRef name => .nameRef name
  | .atName name => .atName name
  | .atom name => .atom name
  | .this => .this
  | .sexpr text => .sexpr text
  | .block items => .block (items.map f)

/-- Has no parts, whatever their type. -/
def isAtomic : Shape α → Bool
  | .const _ | .nameRef _ | .atName _ | .atom _ | .this | .sexpr _ => true
  | _ => false

/-- Is a number below zero. -/
def isNegative : Shape α → Bool
  | .const value => value.val.isNegative
  | _ => false

/-- All parts of an expression pass. -/
def All (p : α → Prop) : Shape α → Prop
  | .binary _ lhs rhs => p lhs ∧ p rhs
  | .implies _ lhs rhs otherwise => p lhs ∧ p rhs ∧ ∀ e ∈ otherwise, p e
  | .unary _ operand | .prime operand => p operand
  | .quantified _ decls body => (∀ d ∈ decls.toList, p d.type) ∧ p body
  | .letIn _ bindings body => (∀ b ∈ bindings.toList, p b.value) ∧ p body
  | .comprehension decls body => (∀ d ∈ decls.toList, p d.type) ∧ ∀ e ∈ body, p e
  | .boxJoin target arguments => p target ∧ ∀ e ∈ arguments, p e
  | .block items => ∀ e ∈ items, p e
  | .const _ | .nameRef _ | .atName _ | .atom _ | .this | .sexpr _ => True

/-- What holds of everything that parts are made of holds of all parts. -/
theorem all_map {p : β → Prop} {f : α → β} (h : ∀ a, p (f a)) (s : Shape α) :
    (s.map f).All p := by
  cases s with
  | binary | implies | unary | quantified | letIn | comprehension | boxJoin | prime | block =>
    simp [Shape.map, Shape.All, Several.toList_map, Declaration.map, Binding.map, h]
  | const | nameRef | atName | atom | this | sexpr => trivial

end Shape

/-! ### How expressions are written -/

/-- Pieces with a mark between them. -/
def separated (sep : α) : List (List α) → List α
  | [] => []
  | xs :: xss => xs ++ xss.flatMap (sep :: ·)

/-- In parentheses. -/
def parenthesized (ts : List (TokenKind × String)) : List (TokenKind × String) :=
  mark .lparen :: ts ++ [mark .rparen]

def constTokens : Constant → List (TokenKind × String)
  | .none => [word .noneKw]
  | .univ => [word .univKw]
  | .iden => [word .idenKw]
  | .number n => (if n < 0 then [mark .minus] else []) ++ [(.number, toString n.natAbs)]

def QualifiedName.tokens (name : QualifiedName) : List (TokenKind × String) :=
  (if name.this then [word .thisKw, mark .slash] else [])
    ++ separated (mark .slash) (name.segments.toList.map ([·.token]))

def BinaryOperator.tokens : BinaryOperator → List (TokenKind × String)
  | .plain operator => [operator.token]
  | .compare negation relation => negation.toList.map (·.token) ++ [relation.token]
  | .arrow left right =>
    left.toList.map (word ·.val.keyword) ++ mark .arrow :: right.toList.map (word ·.val.keyword)

namespace Declaration

def tokens (d : Declaration (List (TokenKind × String))) : List (TokenKind × String) :=
  (if d.disj then [word .disjKw] else [])
    ++ separated (mark .comma) (d.names.toList.map ([·.token]))
    ++ mark .colon :: d.mult.toList.map (word ·.val.keyword) ++ d.type

end Declaration

def Binding.tokens (b : Binding (List (TokenKind × String))) : List (TokenKind × String) :=
  b.name.token :: mark .eq :: b.value

/-- The tokens of an expression, of which the tokens of the parts are given. -/
def Shape.tokens : Shape (List (TokenKind × String)) → List (TokenKind × String)
  | .binary operator lhs rhs => lhs ++ operator.tokens ++ rhs
  | .implies operator lhs rhs otherwise =>
    lhs ++ operator.token :: rhs ++ (otherwise.map (word .elseKw :: ·)).getD []
  | .unary operator operand => operator.token :: operand
  | .quantified quantifier decls body =>
    word quantifier.keyword :: separated (mark .comma) (decls.toList.map (·.tokens))
      ++ mark .bar :: body
  | .letIn isBind bindings body =>
    word (if isBind then .bindKw else .letKw)
      :: separated (mark .comma) (bindings.toList.map (·.tokens)) ++ mark .bar :: body
  | .comprehension decls body =>
    mark .lbrace :: separated (mark .comma) (decls.toList.map (·.tokens))
      ++ (body.map (mark .bar :: ·)).getD [] ++ [mark .rbrace]
  | .boxJoin target arguments =>
    target ++ mark .lbracket :: separated (mark .comma) arguments ++ [mark .rbracket]
  | .prime operand => operand ++ [mark .prime]
  | .const value => constTokens value.val
  | .nameRef name => name.tokens
  | .atName name => [mark .atSign, name.token]
  | .atom name => [(.atomName, "\x60" ++ name.name)]
  | .this => [word .thisKw]
  | .sexpr text => [text.token]
  | .block items => mark .lbrace :: items.flatten ++ [mark .rbrace]

/-- The tokens with the parentheses that a negative number stands in. -/
def Shape.written (s : Shape (List (TokenKind × String))) : List (TokenKind × String) :=
  if s.isNegative then parenthesized s.tokens else s.tokens

/-- Has no parts. -/
def isAtomic : {n : Nat} → Term n → Bool
  | _ + 1, e => Shape.isAtomic e

/-- The tokens of an expression. Parts that have parts stand in parentheses. -/
def tokens : {n : Nat} → Term n → List (TokenKind × String)
  | n + 1, e => Shape.written <| Shape.map
      (fun part : Term n => if part.isAtomic then tokens part else parenthesized (tokens part)) e

/-- The expression as it is written. -/
def print {n : Nat} (e : Term n) : String := " ".intercalate (e.tokens.map (·.2))

/-! ### How expressions are read back -/

/-- The word of a kind below a node. -/
def spelled? {c : Category} (test : TokenKind → Bool) (kind : TokenKind) (v : View c) :
    Option (Spelled test) :=
  (v.tokenText? kind).bind (Spelled.ofText? test)

/-- What can be missing is read if it is there. -/
def optional? (f : α → Option β) : Option α → Option (Option β)
  | none => some none
  | some a => (f a).map some

def several? (f : α → Option β) (as : List α) : Option (Several β) := do
  Several.ofList? (← as.mapM f)

def sideMult? (m : Multiplicity) : Option SideMult :=
  if h : .keyword m.keyword ∈ Operator.arrowMultiplicities then some ⟨m, h⟩ else none

def typeMult? (m : Multiplicity) : Option TypeMult :=
  if h : .keyword m.keyword ∈ Operator.typeMultiplicities then some ⟨m, h⟩ else none

/-- The relation of a comparison, and the negation if there is one. -/
def readCompare (v : BinaryExpr) (op : CompareOp) : Option BinaryOperator := do
  let relation ← spelled? Operator.isComparison (← v.operator) op
  let negation ← if v.isNegated then
      some <$> (op.tokenKinds.find? Operator.isNegation).bind (spelled? Operator.isNegation · op)
    else some none
  return .compare negation relation

def readArrow (op : ArrowOp) : Option BinaryOperator := do
  let left ← optional? sideMult? op.multiplicities.1
  let right ← optional? sideMult? op.multiplicities.2
  return .arrow left right

section

variable (f : Expr → Option β)

def readBinary (v : BinaryExpr) : Option (Shape β) := do
  let lhs ← v.lhs.bind f
  let rhs ← v.rhs.bind f
  let kind ← v.operator
  match v.compareOp, v.arrowOp with
  | some op, _ => return .binary (← readCompare v op) lhs rhs
  | none, some op => return .binary (← readArrow op) lhs rhs
  | none, none =>
    if isImplication kind then
      return .implies (← spelled? isImplication kind v) lhs rhs (← optional? f v.elseBranch)
    else return .binary (.plain (← spelled? isPlain kind v)) lhs rhs

def readUnary (v : UnaryExpr) : Option (Shape β) := do
  return .unary (← spelled? isFront (← v.operator) v) (← v.operand.bind f)

def readDeclaration (d : QuantDecl) : Option (Declaration β) := do
  return {
    disj := d.isDisj
    names := ← several? (Spelled.ofText? (· == .ident)) d.names
    mult := ← optional? typeMult? d.multiplicity
    type := ← d.type.bind f }

def readQuantified (v : QuantExpr) : Option (Shape β) := do
  return .quantified (← v.quantifier) (← several? (readDeclaration f) v.quantDecls)
    (← v.body.bind f)

def readBinding (b : LetDecl) : Option (Binding β) := do
  return {
    name := ← (b.name.bind Name.text).bind (Spelled.ofText? (· == .ident))
    value := ← b.value.bind f }

def readLet (v : LetExpr) : Option (Shape β) := do
  return .letIn v.isBind (← several? (readBinding f) v.bindings) (← v.body.bind f)

def readComprehension (v : ComprehensionExpr) : Option (Shape β) := do
  return .comprehension (← several? (readDeclaration f) v.quantDecls) (← optional? f v.body)

def readBoxJoin (v : BoxJoinExpr) : Option (Shape β) := do
  return .boxJoin (← v.target.bind f) (← v.arguments.mapM f)

def readConst (v : ConstExpr) : Option (Shape β) := do
  let value ← v.value
  if h : Fits value then return .const ⟨value, h⟩ else none

def readName (v : NameRef) : Option (Shape β) := do
  let name ← v.qualName
  return .nameRef ⟨name.isThis, ← several? (Spelled.ofText? TokenKind.isNameSegment) name.segments⟩

def readAtName (v : AtNameExpr) : Option (Shape β) := do
  return .atName (← (v.name.bind Name.text).bind (Spelled.ofText? (· == .ident)))

def readAtom (v : AtomExpr) : Option (Shape β) := do
  let name ← v.atomName
  if h : Lexer.lexemes ("\x60" ++ name).toList = [⟨.atomName, ("\x60" ++ name).toList, []⟩] then
    return .atom ⟨name, h⟩
  else none

/-- An expression, of which the parts are read. -/
def Shape.read (v : Expr) : Option (Shape β) :=
  match v.form with
  | .binary => (v.node.as? .binaryExpr).bind (readBinary f)
  | .unary => (v.node.as? .unaryExpr).bind (readUnary f)
  | .quant => (v.node.as? (.only .quantExpr)).bind (readQuantified f)
  | .letIn => (v.node.as? .letExpr).bind (readLet f)
  | .boxJoin => (v.node.as? (.only .boxJoinExpr)).bind (readBoxJoin f)
  | .prime => do
    let w : PrimeExpr ← v.node.as? (.only .primeExpr)
    return .prime (← w.operand.bind f)
  | .const => (v.node.as? (.only .constExpr)).bind readConst
  | .nameRef => (v.node.as? (.only .nameRef)).bind readName
  | .atName => (v.node.as? (.only .atNameExpr)).bind readAtName
  | .atom => (v.node.as? (.only .atomExpr)).bind readAtom
  | .this => some .this
  | .comprehension => (v.node.as? (.only .comprehensionExpr)).bind (readComprehension f)
  | .paren => none
  | .block => do
    let w : Block ← v.node.as? (.only .block)
    return .block (← w.exprs.mapM f)
  | .sexpr => do
    let w : SExprExpr ← v.node.as? (.only .sexprExpr)
    return .sexpr (← w.text.bind (Spelled.ofText? (· == .sexpr)))

end

/-- The expression that a tree stands for, with the parentheses in it stripped. -/
def read : (n : Nat) → Expr → Option (Term n)
  | 0, _ => none
  | n + 1, v => v.unparenthesized.bind (Shape.read (read n))

end Term
end RelLang
