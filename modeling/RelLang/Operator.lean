import RelLang.Kind.Token
import RelLang.Kind.Node

/-!
# Operators

The table of operators. A row holds the operators of one level, from the loosest,
level 1, to the tightest, level 19; operands by themselves are of level 20. The
*operand level* of a row is the loosest level that the operand behind the operator
may have: its own level for operators that group to the right and for prefix
operators that can be repeated, and the next one for all others.
-/

namespace RelLang

/-- How an operator takes its operands. -/
inductive Fixity where
  | binaryLeft | binaryRight | binaryNone
  /-- In front of a tighter operand. -/
  | front
  /-- In front of an operand of its own level, so that it can be repeated. -/
  | frontRepeated
  | behind
  deriving DecidableEq, Repr

namespace Fixity

def isBinary : Fixity → Bool
  | .binaryLeft | .binaryRight | .binaryNone => true
  | _ => false

def isFront : Fixity → Bool
  | .front | .frontRepeated => true
  | _ => false

def label : Fixity → String
  | .binaryLeft => "BinaryLeft"
  | .binaryRight => "BinaryRight"
  | .binaryNone => "BinaryNonAssoc"
  | .front => "Prefix"
  | .frontRepeated => "PrefixSelf"
  | .behind => "Postfix"

end Fixity

/-- The operators of one level that make one kind of node. -/
structure OperatorRow where
  level : Nat
  operators : List TokenKind
  fixity : Fixity
  node : NodeKind
  temporal : Bool := false
  deriving DecidableEq, Repr

/-- The loosest level that the operand behind the operator may have. -/
def OperatorRow.operandLevel (row : OperatorRow) : Nat :=
  match row.fixity with
  | .binaryRight | .frontRepeated => row.level
  | _ => row.level + 1

namespace Operator

def impliesLevel : Nat := 4
def compareLevel : Nat := 8
def arrowLevel : Nat := 14
def operandOnlyLevel : Nat := 20

/-- The rows by level. The optional `else` of an implication is no operator of its own. -/
def table : List OperatorRow :=
  [⟨1, [.keyword .orKw, .punct .barBar], .binaryLeft, .orExpr, false⟩,
   ⟨2, [.keyword .xorKw], .binaryLeft, .xorExpr, false⟩,
   ⟨3, [.keyword .iffKw, .punct .iffArrow], .binaryLeft, .iffExpr, false⟩,
   ⟨impliesLevel, [.keyword .impliesKw, .punct .fatArrow], .binaryRight, .impliesExpr, false⟩,
   ⟨5, [.keyword .andKw, .punct .ampAmp], .binaryLeft, .andExpr, false⟩,
   ⟨6, [.keyword .untilKw, .keyword .releaseKw, .keyword .sinceKw, .keyword .triggeredKw],
     .binaryLeft, .temporalBinaryExpr, true⟩,
   ⟨7, [.punct .bang, .keyword .notKw], .frontRepeated, .unaryExpr, false⟩,
   ⟨7, [.keyword .alwaysKw, .keyword .eventuallyKw, .keyword .afterKw, .keyword .beforeKw,
     .keyword .onceKw, .keyword .historicallyKw], .frontRepeated, .unaryExpr, true⟩,
   ⟨compareLevel, [.keyword .inKw, .punct .eq, .punct .lt, .punct .gt, .punct .le, .punct .ge,
     .keyword .isKw, .keyword .niKw], .binaryLeft, .compareExpr, false⟩,
   ⟨9, [.keyword .noKw, .keyword .someKw, .keyword .loneKw, .keyword .oneKw, .keyword .twoKw,
     .keyword .setKw], .front, .multExpr, false⟩,
   ⟨10, [.punct .plus, .punct .minus], .binaryLeft, .unionExpr, false⟩,
   ⟨11, [.punct .hash], .frontRepeated, .cardExpr, false⟩,
   ⟨12, [.punct .plusPlus], .binaryLeft, .overrideExpr, false⟩,
   ⟨13, [.punct .amp], .binaryLeft, .intersectExpr, false⟩,
   ⟨arrowLevel, [.punct .arrow], .binaryRight, .arrowExpr, false⟩,
   ⟨15, [.punct .domainRestrict, .punct .rangeRestrict], .binaryLeft, .restrictExpr, false⟩,
   ⟨16, [.punct .lbracket], .behind, .boxJoinExpr, false⟩,
   ⟨17, [.punct .dot], .binaryLeft, .dotJoinExpr, false⟩,
   ⟨18, [.punct .prime], .behind, .primeExpr, true⟩,
   ⟨19, [.punct .tilde, .punct .caret, .punct .star], .frontRepeated, .closureExpr, false⟩]

/-- The row of an operator that stands behind an operand. -/
def infixRow? (k : TokenKind) : Option OperatorRow :=
  table.find? fun row => !row.fixity.isFront && row.operators.contains k

/-- The row of an operator that stands in front of its operand. -/
def frontRow? (k : TokenKind) : Option OperatorRow :=
  table.find? fun row => row.fixity.isFront && row.operators.contains k

/-- The rows of a level. -/
def rowsOf (level : Nat) : List OperatorRow := table.filter (·.level == level)

/-- The keywords that open a quantified expression when declarations follow. -/
def quantifiers : List TokenKind :=
  [.keyword .allKw, .keyword .noKw, .keyword .sumKw, .keyword .loneKw, .keyword .someKw,
   .keyword .oneKw, .keyword .twoKw]

/-- The multiplicities on either side of an arrow. -/
def arrowMultiplicities : List TokenKind :=
  [.keyword .loneKw, .keyword .someKw, .keyword .oneKw, .keyword .twoKw, .keyword .setKw]

/-- The multiplicities in front of a signature. -/
def sigMultiplicities : List TokenKind :=
  [.keyword .loneKw, .keyword .someKw, .keyword .oneKw, .keyword .twoKw]

/-- The multiplicities in front of the type of a field. -/
def fieldMultiplicities : List TokenKind :=
  [.keyword .loneKw, .keyword .setKw, .keyword .oneKw, .keyword .twoKw, .keyword .funcKw,
   .keyword .pfuncKw]

/-- The multiplicities in front of the type of a parameter, of a variable or of a result. -/
def typeMultiplicities : List TokenKind :=
  [.keyword .loneKw, .keyword .setKw, .keyword .oneKw, .keyword .funcKw, .keyword .pfuncKw]

/-- The keywords that end an expression when they stand behind `is`. -/
def testResults : List TokenKind :=
  [.keyword .satKw, .keyword .unsatKw, .keyword .theoremKw, .keyword .forgeErrorKw,
   .keyword .sufficientKw, .keyword .necessaryKw, .keyword .consistentKw,
   .keyword .inconsistentKw]

/-- Compares two operands. -/
def isComparison (k : TokenKind) : Bool := (infixRow? k).any (·.level == compareLevel)

/-- Negates the comparison behind it. -/
def isNegation : TokenKind → Bool
  | .punct .bang | .keyword .notKw => true
  | _ => false

/-- Can begin an expression. -/
def startsExpr (k : TokenKind) : Bool :=
  match k with
  | .number | .punct .minus | .keyword .noneKw | .keyword .univKw | .keyword .idenKw
  | .keyword .thisKw | .punct .atSign | .atomName | .sexpr | .punct .lparen | .punct .lbrace
  | .keyword .allKw | .keyword .sumKw | .keyword .letKw | .keyword .bindKw => true
  | _ => k.isNameSegment || (frontRow? k).isSome

/-- How a complete operand is continued by the tokens behind it. -/
structure Extension where
  node : NodeKind
  /-- The level of the new expression. -/
  level : Nat
  /-- The level of the operand that follows; none for an operator behind its operand. -/
  operandLevel? : Option Nat
  temporal : Bool
  deriving DecidableEq, Repr

/-- The continuation that a row stands for. -/
def Extension.ofRow (row : OperatorRow) : Extension :=
  ⟨row.node, row.level, if row.fixity.isBinary then some row.operandLevel else none, row.temporal⟩

/-- The continuation that the next two tokens ask for: a negated comparison, an arrow with a
multiplicity in front, or an operator of the table. An `is` that a test result follows belongs
to the declaration around the expression. -/
def extension? (first : TokenKind) (second : Option TokenKind) : Option Extension :=
  if isNegation first && second.any isComparison then
    some ⟨.compareExpr, compareLevel, some (compareLevel + 1), false⟩
  else if arrowMultiplicities.contains first && second == some (.punct .arrow) then
    some ⟨.arrowExpr, arrowLevel, some arrowLevel, false⟩
  else if first == .keyword .isKw && second.any testResults.contains then none
  else (infixRow? first).map .ofRow

end Operator
end RelLang
