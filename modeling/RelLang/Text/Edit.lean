/-!
# Small edits of a list

All lists that one edit of a kind makes out of a list.
-/

namespace RelLang.Text

/-- The kinds of edits. -/
inductive Edit where
  | keepFront | keepBack | delete | duplicate | swap
  deriving DecidableEq, Repr

/-- Every way to delete one element. -/
def deletions {α : Type} : List α → List (List α)
  | [] => []
  | x :: xs => xs :: (deletions xs).map (x :: ·)

/-- Every way to write one element twice. -/
def duplications {α : Type} : List α → List (List α)
  | [] => []
  | x :: xs => (x :: x :: xs) :: (duplications xs).map (x :: ·)

/-- Every way to exchange two neighbours. -/
def swaps {α : Type} : List α → List (List α)
  | [] => []
  | [_] => []
  | x :: y :: xs => (y :: x :: xs) :: (swaps (y :: xs)).map (x :: ·)

/-- The lists that an edit makes, from the front to the back. -/
def Edit.results {α : Type} (xs : List α) : Edit → List (List α)
  | .keepFront => (List.range (xs.length + 1)).map xs.take
  | .keepBack => (List.range (xs.length + 1)).map xs.drop
  | .delete => deletions xs
  | .duplicate => duplications xs
  | .swap => swaps xs

end RelLang.Text
