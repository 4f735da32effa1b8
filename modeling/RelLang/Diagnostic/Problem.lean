import RelLang.Diagnostic
import RelLang.Token
import RelLang.Kind

/-!
# Problems

The causes of the diagnostics of a text. A problem says what a rule of the grammar
missed; together with what was found instead, and where, it is a *report*, and a
report reads as a diagnostic.
-/

namespace RelLang

/-- What stands where a problem is. -/
inductive Found where
  | endOfText
  | token (kind : TokenKind) (text : String)
  deriving DecidableEq, Repr

/-- A name is shown with its text, any other token by its kind. -/
def Found.describe : Found → String
  | .endOfText => "end of input"
  | .token .ident text => "identifier '" ++ text ++ "'"
  | .token kind _ => kind.describe

/-- What keeps a piece of text from being a token. -/
inductive LexicalFault where
  | invalidCharacter | unterminatedPath | unterminatedComment | unterminatedSexpr
  | missingAtomName
  deriving DecidableEq, Repr

/-- The fault of an invalid token, told by its first characters. -/
def LexicalFault.ofText (text : String) : LexicalFault :=
  match text.toList with
  | '/' :: '*' :: _ => .unterminatedComment
  | '\x22' :: _ => .unterminatedPath
  | '$' :: '(' :: _ => .unterminatedSexpr
  | '\x60' :: _ => .missingAtomName
  | _ => .invalidCharacter

def LexicalFault.code : LexicalFault → Code
  | .invalidCharacter => .invalidCharacter
  | .unterminatedPath => .unterminatedPath
  | .unterminatedComment => .unterminatedComment
  | .unterminatedSexpr => .unterminatedSexpr
  | .missingAtomName => .missingAtomName

theorem LexicalFault.toClass_code (fault : LexicalFault) : fault.code.toClass = .lexical := by
  cases fault <;> rfl

/-- The declarations that need a body. -/
inductive BodyOwner where
  | predicate | function | fact
  deriving DecidableEq, Repr

def BodyOwner.keyword : BodyOwner → Keyword
  | .predicate => .predKw
  | .function => .funKw
  | .fact => .factKw

/-- What a rule of the grammar missed. -/
inductive Problem where
  /-- A piece of text is no token. -/
  | lexical (fault : LexicalFault) (text : String)
  /-- A token of one kind has to stand here; if it closes a group, the range is its opener. -/
  | missing (expected : TokenKind) (code : Code) (opener : Option ByteRange)
  /-- One token too many stands in front of the expected one. -/
  | stray (expected : TokenKind)
  | name
  | qualName
  | nameAfterThis
  | expression
  | operand (after : TokenKind)
  | afterExpression
  | tooDeep
  /-- The token is no item of the list that it stands in. -/
  | listItem (code : Code)
  | declarations (quantifier : TokenKind)
  | quantifiedBody
  | body (owner : BodyOwner)
  | parameter
  | emptyField
  | field
  | fieldSeparator
  | lateModule
  | lateImport
  | evalAmongParagraphs
  | paragraphAfterEval
  | paragraph
  | moduleName
  | importTarget
  | optionValue
  | command
  | scope
  | typescope
  | bounds
  | boundOperator
  | boundValue
  | assertionInSuite
  | suiteItem
  | testResult
  | assertionTag
  | temporalDisabled
  deriving DecidableEq, Repr

namespace Problem

/-- The code of the problem. -/
def code : Problem → Code
  | .lexical fault _ => fault.code
  | .missing _ code _ => code
  | .stray _ => .strayToken
  | .name | .qualName | .nameAfterThis | .parameter => .missingName
  | .expression => .missingExpression
  | .operand _ => .missingOperand
  | .afterExpression => .trailingInput
  | .tooDeep => .tooDeep
  | .listItem code => code
  | .declarations _ => .noAlternative
  | .quantifiedBody | .fieldSeparator | .command => .missingToken
  | .body _ => .missingBlock
  | .emptyField | .field => .malformedField
  | .lateModule | .paragraph => .noParagraph
  | .lateImport => .lateImport
  | .evalAmongParagraphs | .paragraphAfterEval => .mixedEval
  | .moduleName => .missingModuleName
  | .importTarget => .malformedImport
  | .optionValue => .invalidOption
  | .scope => .malformedScope
  | .typescope => .malformedTypescope
  | .bounds | .boundOperator => .malformedBound
  | .boundValue => .malformedBoundValue
  | .assertionInSuite | .suiteItem => .noTestConstruct
  | .testResult => .invalidTestResult
  | .assertionTag => .malformedAssertion
  | .temporalDisabled => .temporalDisabled

/-- The context as it is named behind an expected token; the widest two go without saying. -/
def contextSuffix : Context → String
  | .topLevel | .expression => ""
  | context => " " ++ context.describe

/-- "expected X, found Y". -/
def expectedFound (expected : String) (found : Found) : String :=
  "expected " ++ expected ++ ", found " ++ found.describe

/-- The problem in words. -/
def message (context : Context) (found : Found) : Problem → String
  | .lexical .invalidCharacter text => "invalid character '" ++ text ++ "'"
  | .lexical fault _ => fault.code.defaultMessage
  | .missing expected _ _ => expectedFound (expected.describe ++ contextSuffix context) found
  | .stray expected =>
    "unexpected " ++ found.describe ++ ", expected " ++ expected.describe ++ contextSuffix context
  | .name => expectedFound "name" found
  | .qualName => expectedFound "qualified name" found
  | .nameAfterThis => "expected name after 'this/'"
  | .expression => expectedFound "expression" found
  | .operand after => expectedFound ("expression after " ++ after.describe) found
  | .afterExpression => "unexpected " ++ found.describe ++ " after expression"
  | .tooDeep => "expression nested too deeply at " ++ found.describe
  | .listItem _ => "unexpected " ++ found.describe
  | .declarations quantifier =>
    expectedFound ("declarations after " ++ quantifier.describe) found
  | .quantifiedBody => expectedFound "'|' or '\x7b'" found
  | .body owner =>
    expectedFound ("'\x7b' to start the '" ++ owner.keyword.spelling ++ "' body") found
  | .parameter => expectedFound "parameter" found
  | .emptyField => "empty field declaration"
  | .field => expectedFound "field declaration" found
  | .fieldSeparator => expectedFound "',' between fields" found
  | .lateModule => "module declaration must be the first declaration"
  | .lateImport => "'open' must come before the first paragraph"
  | .evalAmongParagraphs => "'eval' cannot be mixed with other paragraphs"
  | .paragraphAfterEval => "paragraphs cannot follow 'eval' declarations"
  | .paragraph => expectedFound "a paragraph" found
  | .moduleName => expectedFound "module name" found
  | .importTarget => expectedFound "module name or file path" found
  | .optionValue => expectedFound "option value" found
  | .command => expectedFound "'run' or 'check'" found
  | .scope => expectedFound "scope" found
  | .typescope => expectedFound "bound number in typescope" found
  | .bounds => expectedFound "bounds block or instance name" found
  | .boundOperator => expectedFound "'in', 'is', '=' or 'ni' in bound" found
  | .boundValue => expectedFound "atom, number or name in bound" found
  | .assertionInSuite => "plain assertions are not allowed in a test suite"
  | .suiteItem => expectedFound "'example', 'expect' or 'assert' in test suite" found
  | .testResult => expectedFound "'sat', 'unsat', 'theorem' or 'forge_error'" found
  | .assertionTag =>
    expectedFound ("'is' followed by 'sufficient', 'necessary', 'sat', 'unsat', "
      ++ "'consistent' or 'inconsistent'") found
  | .temporalDisabled =>
    found.describe ++ " requires temporal mode (use '#lang forge/temporal')"

/-- How the problem can be mended, where that is plain: a group can be closed. -/
def hint : Problem → Option String
  | .missing expected _ (some _) => some ("insert " ++ expected.describe)
  | _ => none

/-- The opener of a group that is not closed. -/
def notes : Problem → List Note
  | .missing _ _ (some opener) => [⟨"opened here", opener⟩]
  | _ => []

end Problem

/-- The code of a missing token. -/
def Code.ofMissing : TokenKind → Code
  | .punct .rbrace => .missingBrace
  | .punct .rparen => .missingParen
  | .punct .rbracket => .missingBracket
  | .punct .colon => .missingColon
  | .ident => .missingName
  | _ => .missingToken

/-- The code of a missing token or node of a kind. -/
def Kind.missingCode : Kind → Code
  | .token k => .ofMissing k
  | .node _ => .missingToken

/-- A problem, what was found instead, and where. -/
structure Report where
  problem : Problem
  found : Found
  context : Context
  range : ByteRange
  fatal : Bool
  deriving DecidableEq, Repr

/-- The report in words. -/
def Report.toDiagnostic (r : Report) : Diagnostic :=
  { message := r.problem.message r.context r.found
    range := r.range
    code := r.problem.code
    hint := r.problem.hint
    notes := r.problem.notes
    fatal := r.fatal }

/-- The report of an invalid token. -/
def Report.ofInvalid (t : Token) : Report :=
  { problem := .lexical (.ofText t.text) t.text
    found := .token t.kind t.text
    context := .topLevel
    range := t.range
    fatal := false }

end RelLang
