import RelLang.Parse
import RelLang.View.Bounds

/-!
# Declarations

What a module and its declarations are made of.
-/

namespace RelLang

abbrev SourceFile := View (.only .sourceFile)
abbrev Paragraph := View .paragraph
abbrev ModuleDecl := View (.only .moduleDecl)
abbrev ImportDecl := View (.only .importDecl)
abbrev SigDecl := View (.only .sigDecl)
abbrev SigExt := View (.only .sigExt)
abbrev FieldList := View (.only .fieldList)
abbrev FieldDecl := View (.only .fieldDecl)
abbrev PredDecl := View (.only .predDecl)
abbrev FunDecl := View (.only .funDecl)
abbrev Receiver := View (.only .receiver)
abbrev ParaDecls := View (.only .paraDecls)
abbrev ParaDecl := View (.only .paraDecl)
abbrev FactDecl := View (.only .factDecl)
abbrev AssertDecl := View (.only .assertDecl)
abbrev CmdDecl := View (.only .cmdDecl)
abbrev Scope := View (.only .scope)
abbrev Typescope := View (.only .typescope)
abbrev TestDecl := View (.only .testDecl)
abbrev TestBlock := View (.only .testBlock)
abbrev TestExpectDecl := View (.only .testExpectDecl)
abbrev TestSuiteDecl := View (.only .testSuiteDecl)
abbrev ExampleDecl := View (.only .exampleDecl)
abbrev PropertyDecl := View (.only .propertyDecl)
abbrev QuantifiedPropertyDecl := View (.only .quantifiedPropertyDecl)
abbrev SatisfiabilityDecl := View (.only .satisfiabilityDecl)
abbrev ConsistencyDecl := View (.only .consistencyDecl)
abbrev InstDecl := View (.only .instDecl)
abbrev OptionDecl := View (.only .optionDecl)
abbrev EvalDecl := View (.only .evalDecl)
abbrev SExprDecl := View (.only .sexprDecl)

namespace View

variable {c : Category}

/-- The scope of a command or test. -/
def scope (v : View c) : Option Scope := v.first (.only .scope)

/-- The bounds of a command, test or instance. -/
def bounds (v : View c) : Option Bounds := v.first (.only .bounds)

/-- The first qualified name directly below a node. -/
def qualName (v : View c) : Option QualName := v.first (.only .qualName)

/-- The path of a file, with its quotes. -/
def filePath (v : View c) : Option String := v.tokenText? .filePath

/-- The signature that a predicate or function belongs to. -/
def receiver (v : View c) : Option QualName :=
  (v.first (.only .receiver)).bind fun r : Receiver => r.qualName

/-- The parameters of a predicate or function. -/
def params (v : View c) : Option ParaDecls := v.first (.only .paraDecls)

/-- The members of a category of a test block. -/
def testMembers (d : Category) (v : View c) : List (View d) :=
  ((v.first (.only .testBlock)).map fun block : TestBlock => block.all d).getD []

end View

namespace Paragraph

/-- The form of the paragraph. -/
def form (v : Paragraph) : ParagraphForm := (ParagraphForm.ofKind? v.node.kind).get v.admitted

end Paragraph

namespace SourceFile

def moduleDecl (v : SourceFile) : Option ModuleDecl := v.first (.only .moduleDecl)

def imports (v : SourceFile) : List ImportDecl := v.all (.only .importDecl)

def paragraphs (v : SourceFile) : List Paragraph := v.all .paragraph

/-- The language that the language line at the start of the file names. -/
def language (v : SourceFile) : Option String := languageOf v.node.childTokens

end SourceFile

namespace ImportDecl

def target (v : ImportDecl) : Option QualName := v.qualName

/-- The name that the module is imported under. -/
def alias? (v : ImportDecl) : Option Name := v.name

/-- The arguments of the imported module. -/
def arguments (v : ImportDecl) : List QualName :=
  ((v.first (.only .qualNameList)).map QualNameList.names).getD []

end ImportDecl

namespace FieldList

def fields (v : FieldList) : List FieldDecl := v.all (.only .fieldDecl)

end FieldList

namespace SigDecl

def isAbstract (v : SigDecl) : Bool := v.hasToken (.keyword .abstractKw)

def isVar (v : SigDecl) : Bool := v.hasToken (.keyword .varKw)

/-- What the signature is a part of. -/
def extension (v : SigDecl) : Option SigExt := v.first (.only .sigExt)

def fieldList (v : SigDecl) : Option FieldList := v.first (.only .fieldList)

def fields (v : SigDecl) : List FieldDecl := (v.fieldList.map FieldList.fields).getD []

end SigDecl

/-- How a signature is a part of others. -/
inductive SigExtKind where
  | extending | inside
  deriving DecidableEq, Repr

namespace SigExtKind

/-- What a keyword stands for. -/
def ofToken? : TokenKind → Option SigExtKind
  | .keyword .extendsKw => some .extending
  | .keyword .inKw => some .inside
  | _ => none

def label : SigExtKind → String
  | .extending => "Extends"
  | .inside => "In"

end SigExtKind

namespace SigExt

def kind (v : SigExt) : Option SigExtKind := v.firstMeaning SigExtKind.ofToken?

def parents (v : SigExt) : List QualName := v.all (.only .qualName)

end SigExt

namespace FieldDecl

def isVar (v : FieldDecl) : Bool := v.hasToken (.keyword .varKw)

def type (v : FieldDecl) : Option Expr := v.expr

end FieldDecl

namespace ParaDecls

def decls (v : ParaDecls) : List ParaDecl := v.all (.only .paraDecl)

/-- The parameters stand in parentheses and not in brackets. -/
def isParenthesized (v : ParaDecls) : Bool := v.hasToken (.punct .lparen)

end ParaDecls

namespace ParaDecl

/-- The arguments are different. -/
def isDisj (v : ParaDecl) : Bool := v.hasToken (.keyword .disjKw)

def type (v : ParaDecl) : Option Expr := v.expr

end ParaDecl

namespace PredDecl

/-- The predicate carries the mark of a reference solution. -/
def isWheat (v : PredDecl) : Bool := (v.first (.only .predType)).isSome

end PredDecl

namespace FunDecl

/-- The type of the result; the body, which is an expression too, is not meant. -/
def result (v : FunDecl) : Option Expr := v.exprs.find? (·.node.kind != .block)

end FunDecl

/-- What a command asks for. -/
inductive CommandKind where
  | run | check
  deriving DecidableEq, Repr

namespace CommandKind

/-- What a keyword stands for. -/
def ofToken? : TokenKind → Option CommandKind
  | .keyword .runKw => some .run
  | .keyword .checkKw => some .check
  | _ => none

def label : CommandKind → String
  | .run => "Run"
  | .check => "Check"

end CommandKind

namespace CmdDecl

def kind (v : CmdDecl) : Option CommandKind := v.firstMeaning CommandKind.ofToken?

end CmdDecl

namespace Scope

def typescopes (v : Scope) : List Typescope := v.all (.only .typescope)

/-- The scope of all signatures that have none of their own. -/
def default? (v : Scope) : Option Int := v.number?

end Scope

namespace Typescope

def isExact (v : Typescope) : Bool := v.hasToken (.keyword .exactlyKw)

def sig (v : Typescope) : Option QualName := v.qualName

def count (v : Typescope) : Option Int := v.number?

end Typescope

/-- What is expected of a test. -/
inductive TestResult where
  | sat | unsat | holds | fails
  deriving DecidableEq, Repr

namespace TestResult

/-- What a keyword stands for. -/
def ofToken? : TokenKind → Option TestResult
  | .keyword .satKw => some .sat
  | .keyword .unsatKw => some .unsat
  | .keyword .theoremKw => some .holds
  | .keyword .forgeErrorKw => some .fails
  | _ => none

def label : TestResult → String
  | .sat => "Sat"
  | .unsat => "Unsat"
  | .holds => "Theorem"
  | .fails => "ForgeError"

end TestResult

/-- The expected result of a test. -/
def View.expected {c : Category} (v : View c) : Option TestResult :=
  v.firstMeaning TestResult.ofToken?

namespace TestExpectDecl

def tests (v : TestExpectDecl) : List TestDecl := v.testMembers (.only .testDecl)

end TestExpectDecl

namespace TestSuiteDecl

/-- The predicate under test. -/
def pred (v : TestSuiteDecl) : Option Name := v.name

def constructs (v : TestSuiteDecl) : List Paragraph := v.testMembers .paragraph

end TestSuiteDecl

/-- How a property is related to a predicate. -/
inductive PropertyKind where
  | sufficient | necessary
  deriving DecidableEq, Repr

namespace PropertyKind

/-- What a keyword stands for. -/
def ofToken? : TokenKind → Option PropertyKind
  | .keyword .sufficientKw => some .sufficient
  | .keyword .necessaryKw => some .necessary
  | _ => none

def label : PropertyKind → String
  | .sufficient => "Sufficient"
  | .necessary => "Necessary"

end PropertyKind

/-- How the property of an assertion is related to its predicate. -/
def View.propertyKind {c : Category} (v : View c) : Option PropertyKind :=
  v.firstMeaning PropertyKind.ofToken?

namespace QuantifiedPropertyDecl

/-- The variables of the first declaration have different values. -/
def isDisj (v : QuantifiedPropertyDecl) : Bool := v.quantDecls.head?.any QuantDecl.isDisj

end QuantifiedPropertyDecl

namespace ConsistencyDecl

def isInconsistent (v : ConsistencyDecl) : Bool := v.hasToken (.keyword .inconsistentKw)

end ConsistencyDecl

namespace OptionDecl

def key (v : OptionDecl) : Option QualName := v.qualName

/-- The value in words: a name, a quoted path, or a number. -/
def value (v : OptionDecl) : Option String :=
  ((v.all (.only .qualName))[1]?.map QualName.text)
  <|> v.filePath
  <|> (v.number?.map toString)

end OptionDecl

namespace SExprDecl

def text (v : SExprDecl) : Option String := v.tokenText? .sexpr

end SExprDecl
end RelLang
