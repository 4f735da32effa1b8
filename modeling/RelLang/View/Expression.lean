import RelLang.View.Name

/-!
# Expressions

What the expressions of each form are made of.
-/

namespace RelLang

abbrev Expr := View .expr
abbrev BinaryExpr := View .binaryExpr
abbrev UnaryExpr := View .unaryExpr
abbrev LetExpr := View .letExpr
abbrev ExprRoot := View (.only .exprRoot)
abbrev CompareOp := View (.only .compareOp)
abbrev ArrowOp := View (.only .arrowOp)
abbrev QuantExpr := View (.only .quantExpr)
abbrev QuantDecl := View (.only .quantDecl)
abbrev LetDecl := View (.only .letDecl)
abbrev ComprehensionExpr := View (.only .comprehensionExpr)
abbrev ExprList := View (.only .exprList)
abbrev BoxJoinExpr := View (.only .boxJoinExpr)
abbrev PrimeExpr := View (.only .primeExpr)
abbrev ConstExpr := View (.only .constExpr)
abbrev NameRef := View (.only .nameRef)
abbrev AtNameExpr := View (.only .atNameExpr)
abbrev AtomExpr := View (.only .atomExpr)
abbrev ThisExpr := View (.only .thisExpr)
abbrev ParenExpr := View (.only .parenExpr)
abbrev Block := View (.only .block)
abbrev SExprExpr := View (.only .sexprExpr)

namespace View

variable {c : Category}

/-- The first expression directly below a node. -/
def expr (v : View c) : Option Expr := v.first .expr

/-- The expressions directly below a node. -/
def exprs (v : View c) : List Expr := v.all .expr

/-- The first block directly below a node. -/
def block (v : View c) : Option Block := v.first (.only .block)

/-- The arguments that a node holds in a list of their own. -/
def arguments (v : View c) : List Expr :=
  ((v.first (.only .exprList)).map fun list : ExprList => list.exprs).getD []

/-- The declarations of the variables that a node binds. -/
def quantDecls (v : View c) : List QuantDecl := v.all (.only .quantDecl)

end View

namespace Expr

/-- The form of the expression. -/
def form (v : Expr) : ExprForm := (ExprForm.ofKind? v.node.kind).get v.admitted

/-- The expression inside any number of parentheses; none if there is none inside. -/
def unparenthesized (v : Expr) : Option Expr :=
  if v.node.kind = .parenExpr then
    match _h : v.first .expr with
    | some w => unparenthesized w
    | none => none
  else some v
termination_by sizeOf v.node.children
decreasing_by exact Located.sizeOf_children_lt (View.node_mem_childNodes_of_first ‹_›)

end Expr

namespace BinaryExpr

def lhs (v : BinaryExpr) : Option Expr := v.expr

def rhs (v : BinaryExpr) : Option Expr := v.exprs[1]?

/-- What stands behind the `else` of an implication. -/
def elseBranch (v : BinaryExpr) : Option Expr :=
  if v.hasToken (.keyword .elseKw) then v.exprs[2]? else none

def compareOp (v : BinaryExpr) : Option CompareOp := v.first (.only .compareOp)

def arrowOp (v : BinaryExpr) : Option ArrowOp := v.first (.only .arrowOp)

end BinaryExpr

namespace CompareOp

def isNegated (v : CompareOp) : Bool :=
  v.hasToken (.punct .bang) || v.hasToken (.keyword .notKw)

/-- The relation, without its negation. -/
def operator (v : CompareOp) : Option TokenKind :=
  v.tokenKinds.find? fun k => !k.isTrivia && k != .punct .bang && k != .keyword .notKw

end CompareOp

namespace ArrowOp

def operator (v : ArrowOp) : Option TokenKind := v.tokenKinds.find? (· == .punct .arrow)

/-- The multiplicities on the two sides of an arrow. -/
def sideMultiplicity? (k : TokenKind) : Option Multiplicity :=
  match Multiplicity.ofToken? k with
  | .some .func | .some .pfunc => none
  | m => m

def multiplicities (v : ArrowOp) : Option Multiplicity × Option Multiplicity :=
  let left := v.tokenKinds.takeWhile (· != .punct .arrow)
  let right := v.tokenKinds.dropWhile (· != .punct .arrow)
  ((left.filterMap sideMultiplicity?).getLast?, (right.filterMap sideMultiplicity?).getLast?)

end ArrowOp

namespace BinaryExpr

/-- The operator; of a comparison, the relation. -/
def operator (v : BinaryExpr) : Option TokenKind :=
  match v.compareOp, v.arrowOp with
  | some compare, _ => compare.operator
  | none, some arrow => arrow.operator
  | none, none => v.firstOperator

/-- A comparison that is negated. -/
def isNegated (v : BinaryExpr) : Bool := v.compareOp.any CompareOp.isNegated

end BinaryExpr

namespace UnaryExpr

def operator (v : UnaryExpr) : Option TokenKind := v.firstOperator

def operand (v : UnaryExpr) : Option Expr := v.expr

end UnaryExpr

/-- What a quantified expression says about the values of its variables. -/
inductive Quantifier where
  | all | no | sum | lone | some | one | two
  deriving DecidableEq, Repr

namespace Quantifier

/-- What a keyword stands for. -/
def ofToken? : TokenKind → Option Quantifier
  | .keyword .allKw => .some .all
  | .keyword .noKw => .some .no
  | .keyword .sumKw => .some .sum
  | .keyword .loneKw => .some .lone
  | .keyword .someKw => .some .some
  | .keyword .oneKw => .some .one
  | .keyword .twoKw => .some .two
  | _ => none

def label : Quantifier → String
  | .all => "All"
  | .no => "No"
  | .sum => "Sum"
  | .lone => "Lone"
  | .some => "Some"
  | .one => "One"
  | .two => "Two"

end Quantifier

namespace QuantDecl

/-- The variables have different values. -/
def isDisj (v : QuantDecl) : Bool := v.hasToken (.keyword .disjKw)

def mult (v : QuantDecl) : Option Mult := v.first (.only .mult)

def type (v : QuantDecl) : Option Expr := v.expr

end QuantDecl

namespace QuantExpr

def quantifier (v : QuantExpr) : Option Quantifier := v.firstMeaning Quantifier.ofToken?

def body (v : QuantExpr) : Option Expr := v.expr

/-- The variables of the first declaration have different values. -/
def isDisj (v : QuantExpr) : Bool := v.quantDecls.head?.any QuantDecl.isDisj

end QuantExpr

namespace LetExpr

/-- The values are bound by `bind` and not by `let`. -/
def isBind (v : LetExpr) : Bool := v.node.kind == .bindExpr

def bindings (v : LetExpr) : List LetDecl := v.all (.only .letDecl)

def body (v : LetExpr) : Option Expr := v.expr

end LetExpr

namespace LetDecl

def value (v : LetDecl) : Option Expr := v.expr

end LetDecl

namespace ComprehensionExpr

def body (v : ComprehensionExpr) : Option Expr := v.expr

end ComprehensionExpr

namespace BoxJoinExpr

/-- What stands in front of the brackets. -/
def target (v : BoxJoinExpr) : Option Expr := v.expr

end BoxJoinExpr

namespace PrimeExpr

def operand (v : PrimeExpr) : Option Expr := v.expr

end PrimeExpr

/-- The value of a constant. -/
inductive Constant where
  | none | univ | iden
  | number (n : Int)
  deriving DecidableEq, Repr

namespace ConstExpr

def value (v : ConstExpr) : Option Constant :=
  if v.hasToken (.keyword .noneKw) then some .none
  else if v.hasToken (.keyword .univKw) then some .univ
  else if v.hasToken (.keyword .idenKw) then some .iden
  else v.number?.map .number

end ConstExpr

namespace NameRef

def qualName (v : NameRef) : Option QualName := v.first (.only .qualName)

/-- The name as it is written, without trivia. -/
def text (v : NameRef) : Option String := v.qualName.map QualName.text

end NameRef

/-- The name of an atom, without the backtick in front of it. -/
def View.atomName {c : Category} (v : View c) : Option String :=
  (v.tokenText? .atomName).map fun text => String.ofList (text.toList.drop 1)

namespace ParenExpr

def inner (v : ParenExpr) : Option Expr := v.expr

end ParenExpr

namespace SExprExpr

def text (v : SExprExpr) : Option String := v.tokenText? .sexpr

end SExprExpr
end RelLang
