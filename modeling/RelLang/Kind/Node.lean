/-!
# Node kinds

What an inner node of the tree stands for: one kind for each rule of the grammar,
and one for text that no rule accepts.
-/

namespace RelLang

/-- The kinds of inner nodes, in the order of the kind numbering. -/
inductive NodeKind where
  | sourceFile | exprRoot | moduleDecl | importDecl | name | nameList | qualName | qualNameList
  | sigDecl | sigExt | fieldList | fieldDecl | mult | predDecl | predType | receiver | funDecl
  | paraDecls | paraDecl | factDecl | assertDecl | cmdDecl | scope | typescope | testDecl
  | testExpectDecl | testBlock | testSuiteDecl | exampleDecl | propertyDecl
  | quantifiedPropertyDecl | satisfiabilityDecl | consistencyDecl | instDecl | bounds | bound
  | boundLhs | bindRhsUnion | bindRhsProduct | bindRhsAtom | optionDecl | evalDecl | sexprDecl
  | letExpr | letDecl | bindExpr | quantExpr | quantDecl | orExpr | xorExpr | iffExpr
  | impliesExpr | andExpr | temporalBinaryExpr | unaryExpr | compareExpr | compareOp | multExpr
  | unionExpr | cardExpr | overrideExpr | intersectExpr | arrowExpr | arrowOp | restrictExpr
  | boxJoinExpr | exprList | dotJoinExpr | primeExpr | closureExpr | constExpr | nameRef
  | atNameExpr | atomExpr | thisExpr | comprehensionExpr | parenExpr | block | sexprExpr
  | error
  deriving DecidableEq, Repr

namespace NodeKind

def label : NodeKind → String
  | .sourceFile => "SOURCE_FILE"
  | .exprRoot => "EXPR_ROOT"
  | .moduleDecl => "MODULE_DECL"
  | .importDecl => "IMPORT_DECL"
  | .name => "NAME"
  | .nameList => "NAME_LIST"
  | .qualName => "QUAL_NAME"
  | .qualNameList => "QUAL_NAME_LIST"
  | .sigDecl => "SIG_DECL"
  | .sigExt => "SIG_EXT"
  | .fieldList => "FIELD_LIST"
  | .fieldDecl => "FIELD_DECL"
  | .mult => "MULT"
  | .predDecl => "PRED_DECL"
  | .predType => "PRED_TYPE"
  | .receiver => "RECEIVER"
  | .funDecl => "FUN_DECL"
  | .paraDecls => "PARA_DECLS"
  | .paraDecl => "PARA_DECL"
  | .factDecl => "FACT_DECL"
  | .assertDecl => "ASSERT_DECL"
  | .cmdDecl => "CMD_DECL"
  | .scope => "SCOPE"
  | .typescope => "TYPESCOPE"
  | .testDecl => "TEST_DECL"
  | .testExpectDecl => "TEST_EXPECT_DECL"
  | .testBlock => "TEST_BLOCK"
  | .testSuiteDecl => "TEST_SUITE_DECL"
  | .exampleDecl => "EXAMPLE_DECL"
  | .propertyDecl => "PROPERTY_DECL"
  | .quantifiedPropertyDecl => "QUANTIFIED_PROPERTY_DECL"
  | .satisfiabilityDecl => "SATISFIABILITY_DECL"
  | .consistencyDecl => "CONSISTENCY_DECL"
  | .instDecl => "INST_DECL"
  | .bounds => "BOUNDS"
  | .bound => "BOUND"
  | .boundLhs => "BOUND_LHS"
  | .bindRhsUnion => "BIND_RHS_UNION"
  | .bindRhsProduct => "BIND_RHS_PRODUCT"
  | .bindRhsAtom => "BIND_RHS_ATOM"
  | .optionDecl => "OPTION_DECL"
  | .evalDecl => "EVAL_DECL"
  | .sexprDecl => "SEXPR_DECL"
  | .letExpr => "LET_EXPR"
  | .letDecl => "LET_DECL"
  | .bindExpr => "BIND_EXPR"
  | .quantExpr => "QUANT_EXPR"
  | .quantDecl => "QUANT_DECL"
  | .orExpr => "OR_EXPR"
  | .xorExpr => "XOR_EXPR"
  | .iffExpr => "IFF_EXPR"
  | .impliesExpr => "IMPLIES_EXPR"
  | .andExpr => "AND_EXPR"
  | .temporalBinaryExpr => "TEMPORAL_BINARY_EXPR"
  | .unaryExpr => "UNARY_EXPR"
  | .compareExpr => "COMPARE_EXPR"
  | .compareOp => "COMPARE_OP"
  | .multExpr => "MULT_EXPR"
  | .unionExpr => "UNION_EXPR"
  | .cardExpr => "CARD_EXPR"
  | .overrideExpr => "OVERRIDE_EXPR"
  | .intersectExpr => "INTERSECT_EXPR"
  | .arrowExpr => "ARROW_EXPR"
  | .arrowOp => "ARROW_OP"
  | .restrictExpr => "RESTRICT_EXPR"
  | .boxJoinExpr => "BOX_JOIN_EXPR"
  | .exprList => "EXPR_LIST"
  | .dotJoinExpr => "DOT_JOIN_EXPR"
  | .primeExpr => "PRIME_EXPR"
  | .closureExpr => "CLOSURE_EXPR"
  | .constExpr => "CONST_EXPR"
  | .nameRef => "NAME_REF"
  | .atNameExpr => "AT_NAME_EXPR"
  | .atomExpr => "ATOM_EXPR"
  | .thisExpr => "THIS_EXPR"
  | .comprehensionExpr => "COMPREHENSION_EXPR"
  | .parenExpr => "PAREN_EXPR"
  | .block => "BLOCK"
  | .sexprExpr => "SEXPR_EXPR"
  | .error => "ERROR"

/-- Every kind, in the order of the kind numbering. -/
def all : List NodeKind :=
  [.sourceFile, .exprRoot, .moduleDecl, .importDecl, .name, .nameList, .qualName, .qualNameList,
   .sigDecl, .sigExt, .fieldList, .fieldDecl, .mult, .predDecl, .predType, .receiver, .funDecl,
   .paraDecls, .paraDecl, .factDecl, .assertDecl, .cmdDecl, .scope, .typescope, .testDecl,
   .testExpectDecl, .testBlock, .testSuiteDecl, .exampleDecl, .propertyDecl,
   .quantifiedPropertyDecl, .satisfiabilityDecl, .consistencyDecl, .instDecl, .bounds, .bound,
   .boundLhs, .bindRhsUnion, .bindRhsProduct, .bindRhsAtom, .optionDecl, .evalDecl, .sexprDecl,
   .letExpr, .letDecl, .bindExpr, .quantExpr, .quantDecl, .orExpr, .xorExpr, .iffExpr,
   .impliesExpr, .andExpr, .temporalBinaryExpr, .unaryExpr, .compareExpr, .compareOp, .multExpr,
   .unionExpr, .cardExpr, .overrideExpr, .intersectExpr, .arrowExpr, .arrowOp, .restrictExpr,
   .boxJoinExpr, .exprList, .dotJoinExpr, .primeExpr, .closureExpr, .constExpr, .nameRef,
   .atNameExpr, .atomExpr, .thisExpr, .comprehensionExpr, .parenExpr, .block, .sexprExpr, .error]

theorem mem_all (k : NodeKind) : k ∈ all := by cases k <;> decide

/-- The kinds of nodes that are expressions. -/
def isExpr : NodeKind → Bool
  | .letExpr | .bindExpr | .quantExpr | .orExpr | .xorExpr | .iffExpr | .impliesExpr | .andExpr
  | .temporalBinaryExpr | .unaryExpr | .compareExpr | .multExpr | .unionExpr | .cardExpr
  | .overrideExpr | .intersectExpr | .arrowExpr | .restrictExpr | .boxJoinExpr | .dotJoinExpr
  | .primeExpr | .closureExpr | .constExpr | .nameRef | .atNameExpr | .atomExpr | .thisExpr
  | .comprehensionExpr | .parenExpr | .block | .sexprExpr => true
  | _ => false

/-- What a diagnostic calls a node of this kind. -/
def describe (k : NodeKind) : String :=
  match k with
  | .name | .nameList => "name"
  | .qualName | .qualNameList => "qualified name"
  | .scope | .typescope => "scope"
  | .bounds | .bound => "bounds"
  | .block => "block"
  | .error => "error"
  | _ => if k.isExpr then "expression" else "syntax node"

end NodeKind
end RelLang
