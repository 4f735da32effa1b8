import RelLang.View.Expression

/-!
# Bounds

What the bounds of an instance or of a command are made of.
-/

namespace RelLang

abbrev Bounds := View (.only .bounds)
abbrev Bound := View (.only .bound)
abbrev BoundLhs := View (.only .boundLhs)
abbrev BindRhsUnion := View (.only .bindRhsUnion)
abbrev BindRhsProduct := View (.only .bindRhsProduct)
abbrev BindRhsAtom := View (.only .bindRhsAtom)

namespace Bounds

/-- The bounds leave no room for anything else. -/
def isExact (v : Bounds) : Bool := v.hasToken (.keyword .exactlyKw)

def bounds (v : Bounds) : List Bound := v.all (.only .bound)

/-- The name of the instance whose bounds are meant. -/
def reference (v : Bounds) : Option QualName := v.first (.only .qualName)

end Bounds

namespace Bound

/-- The relation on the left is empty. -/
def isNo (v : Bound) : Bool := v.hasToken (.keyword .noKw)

def lhs (v : Bound) : Option BoundLhs := v.first (.only .boundLhs)

def rhs (v : Bound) : Option BindRhsUnion := v.first (.only .bindRhsUnion)

/-- How the two sides are related. -/
def operator (v : Bound) : Option TokenKind :=
  (v.first (.only .compareOp)).bind CompareOp.operator

/-- Nothing but a name, which is that of another instance. -/
def isReference (v : Bound) : Bool := !v.isNo && v.operator.isNone

end Bound

namespace BoundLhs

/-- The bound is on the number of elements. -/
def isCardinality (v : BoundLhs) : Bool := v.hasToken (.punct .hash)

def path (v : BoundLhs) : List QualName := v.all (.only .qualName)

end BoundLhs

namespace BindRhsUnion

def products (v : BindRhsUnion) : List BindRhsProduct := v.all (.only .bindRhsProduct)

end BindRhsUnion

namespace BindRhsProduct

def atoms (v : BindRhsProduct) : List BindRhsAtom := v.all (.only .bindRhsAtom)

end BindRhsProduct

/-- A value on the right side of a bound. -/
inductive BoundValue where
  | atom (name : String)
  | number (n : Int)
  | none
  | name (name : QualName)
  | union (values : BindRhsUnion)

namespace BindRhsAtom

def value (v : BindRhsAtom) : Option BoundValue :=
  (v.atomName.map .atom)
  <|> (if v.hasToken (.keyword .noneKw) then some .none else none)
  <|> ((v.first (.only .qualName)).map .name)
  <|> ((v.first (.only .bindRhsUnion)).map .union)
  <|> (v.number?.map .number)

end BindRhsAtom
end RelLang
