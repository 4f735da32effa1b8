import RelLang.View.Category
import RelLang.View.Located

/-!
# Views

A view is a node seen as one of a category. What it consists of is found among its
direct children: nodes by their category, tokens by their kind. Any of it can be
missing in the tree of a malformed text.
-/

namespace RelLang

/-- A node of a category. -/
structure View (c : Category) where
  node : Located
  admitted : c.admits node.kind = true

/-- The node seen as one of a category, if it is one. -/
def Located.as? (c : Category) (n : Located) : Option (View c) :=
  if h : c.admits n.kind = true then some ⟨n, h⟩ else none

theorem Located.node_of_as? {c : Category} {n : Located} {v : View c} (h : n.as? c = some v) :
    v.node = n := by
  unfold Located.as? at h
  split at h
  · exact congrArg View.node (Option.some.inj h).symm
  · cases h

namespace View

variable {c : Category}

/-- The first child of a category. -/
def first (d : Category) (v : View c) : Option (View d) := v.node.childNodes.findSome? (·.as? d)

/-- The children of a category. -/
def all (d : Category) (v : View c) : List (View d) := v.node.childNodes.filterMap (·.as? d)

/-- The first child of a category is the first of its children of that category. -/
theorem first_eq_head? (d : Category) (v : View c) : v.first d = (v.all d).head? :=
  List.head?_filterMap.symm

theorem node_mem_childNodes_of_first {d : Category} {v : View c} {w : View d}
    (h : v.first d = some w) : w.node ∈ v.node.childNodes := by
  obtain ⟨n, hn, ha⟩ := List.exists_of_findSome?_eq_some h
  exact Located.node_of_as? ha ▸ hn

/-- All nodes of a category, from the node itself on. -/
def descendants (d : Category) (v : View c) : List (View d) :=
  v.node.descendants.filterMap (·.as? d)

/-- The kinds of the tokens directly below the node. -/
def tokenKinds (v : View c) : List TokenKind := v.node.childTokens.map (·.1)

/-- There is a token of a kind directly below the node. -/
def hasToken (kind : TokenKind) (v : View c) : Bool := v.tokenKinds.contains kind

/-- The text of the first token of a kind. -/
def tokenText? (kind : TokenKind) (v : View c) : Option String :=
  (v.node.childTokens.find? (·.1 == kind)).map (·.2)

/-- What the first token with a meaning stands for. -/
def firstMeaning {α : Type} (meaning : TokenKind → Option α) (v : View c) : Option α :=
  v.tokenKinds.findSome? meaning

/-- The first token that is no trivia. -/
def firstOperator (v : View c) : Option TokenKind := v.tokenKinds.find? (!·.isTrivia)

/-- The value of decimal digits. -/
def digitsValue (digits : List Char) : Nat :=
  digits.foldl (fun n d => 10 * n + (d.toNat - '0'.toNat)) 0

/-- The number of a number token, negated by a minus. Digits that do not fit into a signed word
of 64 bits are no number. -/
def number? (v : View c) : Option Int := do
  let text ← v.tokenText? .number
  let magnitude := digitsValue text.toList
  if magnitude < Nat.pow 2 63 then
    return if v.hasToken (.punct .minus) then -(magnitude : Int) else magnitude
  else none

end View
end RelLang
