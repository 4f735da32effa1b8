import RelLang.Tree

/-!
# Building a tree call by call

A builder is told where nodes begin and end, and refuses what does not fit: an end
without a beginning, or a beginning at a mark that is not in force. A mark is in
force as long as the node in which it was set is the innermost open one, and no node
was begun in front of it.
-/

namespace RelLang

/-- What a node holds so far, and the marks in force in it. -/
structure Layer where
  /-- The trees, the last one first. -/
  trees : List Tree := []
  /-- The number of each mark, and how many trees stand in front of it. -/
  marks : List (Nat × Nat) := []

/-- A tree that is being built. -/
structure Builder where
  /-- What the innermost open node holds. -/
  top : Layer := {}
  /-- The kinds of the open nodes, the innermost first, and what stands around each. -/
  below : List (NodeKind × Layer) := []
  nextMark : Nat := 0

namespace Builder

/-- Adds trees, the last one first. -/
def add (trees : List Tree) (b : Builder) : Builder :=
  { b with top := { b.top with trees := trees ++ b.top.trees } }

/-- Sets a mark behind what the innermost open node holds. -/
def mark (b : Builder) : Nat × Builder :=
  (b.nextMark,
    { b with
      top := { b.top with marks := (b.nextMark, b.top.trees.length) :: b.top.marks }
      nextMark := b.nextMark + 1 })

/-- Begins a node with some trees in it, and sets a mark in front of them. -/
def openNode (kind : NodeKind) (trees : List Tree) (around : Layer) (b : Builder) :
    Nat × Builder :=
  (b.nextMark,
    { top := { trees, marks := [(b.nextMark, 0)] }
      below := (kind, around) :: b.below
      nextMark := b.nextMark + 1 })

/-- Begins a node. -/
def start (kind : NodeKind) (b : Builder) : Nat × Builder := b.openNode kind [] b.top

/-- Begins a node at a mark, around all that was added since it was set. -/
def startAt? (mark : Nat) (kind : NodeKind) (b : Builder) : Option (Nat × Builder) :=
  (b.top.marks.lookup mark).map fun front =>
    let since := b.top.trees.length - front
    b.openNode kind (b.top.trees.take since)
      { trees := b.top.trees.drop since, marks := b.top.marks.filter (·.2 ≤ front) }

/-- Ends the innermost open node. -/
def finish? (b : Builder) : Option Builder :=
  match b.below with
  | [] => none
  | (kind, around) :: below =>
    some { b with
      top := { around with trees := .node kind b.top.trees.reverse :: around.trees }
      below }

/-- The tree that was built: one node, and no node is open. -/
def root? (b : Builder) : Option Tree :=
  match b.below, b.top.trees with
  | [], [.node kind children] => some (.node kind children)
  | _, _ => none

/-- The numbers of all marks in force are used up. -/
def Fresh (b : Builder) : Prop :=
  ∀ l ∈ b.top :: b.below.map (·.2), ∀ p ∈ l.marks, p.1 < b.nextMark

end Builder

/-- A mark in front of which nothing changes stays in force. -/
theorem lookup_filter_le {marks : List (Nat × Nat)} {front mark n : Nat}
    (h : marks.lookup mark = some n) (hn : n ≤ front) :
    (marks.filter (·.2 ≤ front)).lookup mark = some n := by
  induction marks with
  | nil => cases h
  | cons p marks ih =>
    rw [List.lookup_cons] at h
    rw [List.filter_cons]
    cases hp : mark == p.1 with
    | true =>
      rw [hp] at h
      obtain rfl : p.2 = n := by simpa using h
      rw [if_pos (by simpa using hn), List.lookup_cons, hp]
    | false =>
      rw [hp] at h
      split
      · rw [List.lookup_cons, hp]
        exact ih h
      · exact ih h

end RelLang
