import RelLang.Kind.Node

/-!
# Categories of nodes

Which nodes can be seen as what: nodes of one kind, or of one of the families that
different kinds belong to.
-/

namespace RelLang

/-- What a node can be seen as. -/
inductive Category where
  /-- A declaration of a module or of a test suite. -/
  | paragraph
  | expr
  /-- An operator between its operands. -/
  | binaryExpr
  /-- An operator in front of its operand. -/
  | unaryExpr
  /-- Names bound to values. -/
  | letExpr
  /-- A node of one kind. -/
  | only (kind : NodeKind)
  deriving DecidableEq, Repr

/-- The forms of paragraphs. -/
inductive ParagraphForm where
  | sig | pred | func | fact | assertion | command | testExpect | testSuite | exampleTest | property
  | quantifiedProperty | satisfiability | consistency | inst | option | sexpr | eval
  deriving DecidableEq, Repr

namespace ParagraphForm

/-- The form of the paragraphs of a kind. -/
def ofKind? : NodeKind → Option ParagraphForm
  | .sigDecl => some .sig
  | .predDecl => some .pred
  | .funDecl => some .func
  | .factDecl => some .fact
  | .assertDecl => some .assertion
  | .cmdDecl => some .command
  | .testExpectDecl => some .testExpect
  | .testSuiteDecl => some .testSuite
  | .exampleDecl => some .exampleTest
  | .propertyDecl => some .property
  | .quantifiedPropertyDecl => some .quantifiedProperty
  | .satisfiabilityDecl => some .satisfiability
  | .consistencyDecl => some .consistency
  | .instDecl => some .inst
  | .optionDecl => some .option
  | .sexprDecl => some .sexpr
  | .evalDecl => some .eval
  | _ => none

def label : ParagraphForm → String
  | .sig => "Sig"
  | .pred => "Pred"
  | .func => "Fun"
  | .fact => "Fact"
  | .assertion => "Assert"
  | .command => "Cmd"
  | .testExpect => "TestExpect"
  | .testSuite => "TestSuite"
  | .exampleTest => "Example"
  | .property => "Property"
  | .quantifiedProperty => "QuantifiedProperty"
  | .satisfiability => "Satisfiability"
  | .consistency => "Consistency"
  | .inst => "Inst"
  | .option => "Option"
  | .sexpr => "SExpr"
  | .eval => "Eval"

end ParagraphForm

/-- The forms of expressions. -/
inductive ExprForm where
  | binary | unary | quant | letIn | boxJoin | prime | const | nameRef | atName | atom | this
  | comprehension | paren | block | sexpr
  deriving DecidableEq, Repr

namespace ExprForm

/-- The form of the expressions of a kind. -/
def ofKind? : NodeKind → Option ExprForm
  | .orExpr | .xorExpr | .iffExpr | .impliesExpr | .andExpr | .temporalBinaryExpr | .compareExpr
  | .unionExpr | .overrideExpr | .intersectExpr | .arrowExpr | .restrictExpr | .dotJoinExpr =>
    some .binary
  | .unaryExpr | .multExpr | .cardExpr | .closureExpr => some .unary
  | .quantExpr => some .quant
  | .letExpr | .bindExpr => some .letIn
  | .boxJoinExpr => some .boxJoin
  | .primeExpr => some .prime
  | .constExpr => some .const
  | .nameRef => some .nameRef
  | .atNameExpr => some .atName
  | .atomExpr => some .atom
  | .thisExpr => some .this
  | .comprehensionExpr => some .comprehension
  | .parenExpr => some .paren
  | .block => some .block
  | .sexprExpr => some .sexpr
  | _ => none

/-- The expressions are the nodes that have a form. -/
theorem isSome_ofKind? (k : NodeKind) : (ofKind? k).isSome = k.isExpr := by cases k <;> rfl

def label : ExprForm → String
  | .binary => "Binary"
  | .unary => "Unary"
  | .quant => "Quant"
  | .letIn => "Let"
  | .boxJoin => "BoxJoin"
  | .prime => "Prime"
  | .const => "Const"
  | .nameRef => "NameRef"
  | .atName => "AtName"
  | .atom => "Atom"
  | .this => "This"
  | .comprehension => "Comprehension"
  | .paren => "Paren"
  | .block => "Block"
  | .sexpr => "SExpr"

end ExprForm

namespace Category

/-- The nodes of the kind can be seen as the category. -/
def admits : Category → NodeKind → Bool
  | .paragraph, k => (ParagraphForm.ofKind? k).isSome
  | .expr, k => (ExprForm.ofKind? k).isSome
  | .binaryExpr, k => ExprForm.ofKind? k == some .binary
  | .unaryExpr, k => ExprForm.ofKind? k == some .unary
  | .letExpr, k => ExprForm.ofKind? k == some .letIn
  | .only kind, k => kind == k

/-- The categories that have a name, with it. -/
def labelled : List (String × Category) :=
  [("Paragraph", .paragraph), ("Expr", .expr), ("SourceFile", .only .sourceFile),
   ("ExprRoot", .only .exprRoot), ("ModuleDecl", .only .moduleDecl),
   ("ImportDecl", .only .importDecl), ("Name", .only .name), ("NameList", .only .nameList),
   ("QualName", .only .qualName), ("QualNameList", .only .qualNameList), ("Mult", .only .mult),
   ("SigDecl", .only .sigDecl), ("SigExt", .only .sigExt), ("FieldList", .only .fieldList),
   ("FieldDecl", .only .fieldDecl), ("PredDecl", .only .predDecl), ("FunDecl", .only .funDecl),
   ("ParaDecls", .only .paraDecls), ("ParaDecl", .only .paraDecl), ("FactDecl", .only .factDecl),
   ("AssertDecl", .only .assertDecl), ("CmdDecl", .only .cmdDecl), ("Scope", .only .scope),
   ("Typescope", .only .typescope), ("TestDecl", .only .testDecl),
   ("TestExpectDecl", .only .testExpectDecl), ("TestSuiteDecl", .only .testSuiteDecl),
   ("ExampleDecl", .only .exampleDecl), ("PropertyDecl", .only .propertyDecl),
   ("QuantifiedPropertyDecl", .only .quantifiedPropertyDecl),
   ("SatisfiabilityDecl", .only .satisfiabilityDecl),
   ("ConsistencyDecl", .only .consistencyDecl), ("InstDecl", .only .instDecl),
   ("OptionDecl", .only .optionDecl), ("EvalDecl", .only .evalDecl),
   ("SExprDecl", .only .sexprDecl), ("Bounds", .only .bounds), ("Bound", .only .bound),
   ("BoundLhs", .only .boundLhs), ("BindRhsUnion", .only .bindRhsUnion),
   ("BindRhsProduct", .only .bindRhsProduct), ("BindRhsAtom", .only .bindRhsAtom),
   ("BinaryExpr", .binaryExpr), ("CompareOp", .only .compareOp), ("ArrowOp", .only .arrowOp),
   ("UnaryExpr", .unaryExpr), ("QuantExpr", .only .quantExpr), ("QuantDecl", .only .quantDecl),
   ("LetExpr", .letExpr), ("LetDecl", .only .letDecl),
   ("ComprehensionExpr", .only .comprehensionExpr), ("BoxJoinExpr", .only .boxJoinExpr),
   ("PrimeExpr", .only .primeExpr), ("ConstExpr", .only .constExpr), ("NameRef", .only .nameRef),
   ("AtNameExpr", .only .atNameExpr), ("AtomExpr", .only .atomExpr),
   ("ThisExpr", .only .thisExpr), ("ParenExpr", .only .parenExpr), ("Block", .only .block),
   ("SExprExpr", .only .sexprExpr)]

end Category
end RelLang
