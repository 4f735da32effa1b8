import RelLang.Tree

/-!
# Trees without trivia

Layout and comments are leaves of a tree like all other tokens. Without them a tree
has the same shape, and its leaves are the other tokens in their order.
-/

namespace RelLang.Tree

mutual

/-- The tree without the trivia in it. -/
def bare : Tree → Tree
  | .token kind text => .token kind text
  | .node kind children => .node kind (bareAll children)

/-- The trees of a list that are no trivia, each without the trivia in it. -/
def bareAll : List Tree → List Tree
  | [] => []
  | t :: ts => if t.isTrivia then bareAll ts else t.bare :: bareAll ts

end

@[simp] theorem bareAll_singleton_node (kind : NodeKind) (children : List Tree) :
    bareAll [.node kind children] = [.node kind (bareAll children)] := rfl

@[simp] theorem bareAll_append (ts us : List Tree) :
    bareAll (ts ++ us) = bareAll ts ++ bareAll us := by
  induction ts with
  | nil => rfl
  | cons t ts ih =>
    simp only [List.cons_append, bareAll]
    split
    · exact ih
    · rw [ih, List.cons_append]

/-- A tree among trees without trivia is one of those with it. -/
theorem exists_of_bareAll_eq {ts as bs : List Tree} {b : Tree} (h : bareAll ts = as ++ b :: bs) :
    ∃ us t vs, ts = us ++ t :: vs ∧ bareAll us = as ∧ t.isTrivia = false ∧ t.bare = b := by
  induction ts generalizing as with
  | nil => cases as <;> cases h
  | cons t ts ih =>
    rw [bareAll] at h
    split at h
    · next htrivia =>
      obtain ⟨us, t', vs, rfl, rfl, ht'⟩ := ih h
      exact ⟨t :: us, t', vs, rfl, by rw [bareAll, if_pos htrivia], ht'⟩
    · next htrivia =>
      cases as with
      | nil => exact ⟨[], t, ts, rfl, rfl, Bool.eq_false_iff.mpr htrivia, (List.cons.inj h).1⟩
      | cons a as =>
        obtain ⟨rfl, hbehind⟩ := List.cons.inj h
        obtain ⟨us, t', vs, rfl, rfl, ht'⟩ := ih hbehind
        exact ⟨t :: us, t', vs, rfl, by rw [bareAll, if_neg htrivia], ht'⟩

@[simp] theorem isTrivia_bare (t : Tree) : t.bare.isTrivia = t.isTrivia := by
  cases t <;> rfl

mutual

theorem shape_bare : (t : Tree) → t.bare.shape = t.shape
  | .token _ _ => rfl
  | .node _ children => by rw [bare, shape, shapes_bareAll children, shape]

theorem shapes_bareAll : (ts : List Tree) → shapes (bareAll ts) = shapes ts
  | [] => rfl
  | t :: ts => by
    rw [bareAll, shapes]
    split
    · exact shapes_bareAll ts
    · next ht => rw [shapes, isTrivia_bare, if_neg ht, shape_bare t, shapes_bareAll ts]

end

mutual

/-- Without trivia a tree has the other leaves, in their order. -/
theorem leaves_bare : (t : Tree) → t.isTrivia = false →
    t.bare.leaves = t.leaves.filter (!·.1.isTrivia)
  | .token kind _, ht => by
    have hkind : kind.isTrivia = false := ht
    simp [bare, leaves, hkind]
  | .node _ children, _ => by rw [bare, leaves, leavesAll_bareAll children, leaves]

theorem leavesAll_bareAll : (ts : List Tree) →
    leavesAll (bareAll ts) = (leavesAll ts).filter (!·.1.isTrivia)
  | [] => rfl
  | t :: ts => by
    rw [bareAll, leavesAll, List.filter_append]
    cases ht : t.isTrivia with
    | false =>
      rw [if_neg Bool.false_ne_true, leavesAll, leaves_bare t ht, leavesAll_bareAll ts]
    | true =>
      rw [if_pos rfl, leavesAll_bareAll ts]
      cases t with
      | token kind text =>
        have hkind : kind.isTrivia = true := ht
        simp [leaves, hkind]
      | node kind children => cases ht

end

/-- The kinds of the tokens of some trees. -/
def kinds (ts : List Tree) : List TokenKind := (leavesAll ts).map (·.1)

@[simp] theorem kinds_nil : kinds [] = [] := rfl

@[simp] theorem kinds_append (ts us : List Tree) : kinds (ts ++ us) = kinds ts ++ kinds us := by
  simp [kinds]

@[simp] theorem kinds_token_cons (kind : TokenKind) (text : String) (ts : List Tree) :
    kinds (.token kind text :: ts) = kind :: kinds ts := rfl

@[simp] theorem kinds_node_cons (kind : NodeKind) (children ts : List Tree) :
    kinds (.node kind children :: ts) = kinds children ++ kinds ts := by
  simp [kinds, leavesAll, leaves]

end RelLang.Tree
