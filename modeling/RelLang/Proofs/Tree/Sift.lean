import RelLang.Tree

/-!
# Trees without skipped tokens

The grammar sees no trivia and no invalid tokens, but they stand in the tree: trivia as
they are, an invalid token in a node of its own. A tree is *sifted* if they are taken out.
-/

namespace RelLang.Tree

/-- A token that the grammar does not see, as it stands in a tree. -/
def isUnseen : Tree → Bool
  | .token kind _ => kind.isTrivia
  | .node .error [.token .invalid _] => true
  | .node .. => false

mutual

/-- The tree without the skipped tokens in it. -/
def sifted : Tree → Tree
  | .token kind text => .token kind text
  | .node kind children => .node kind (siftedAll children)

/-- The trees of a list that are no skipped tokens, each without those in it. -/
def siftedAll : List Tree → List Tree
  | [] => []
  | t :: ts => if t.isUnseen then siftedAll ts else t.sifted :: siftedAll ts

end

@[simp] theorem siftedAll_append (ts us : List Tree) :
    siftedAll (ts ++ us) = siftedAll ts ++ siftedAll us := by
  induction ts with
  | nil => rfl
  | cons t ts ih =>
    simp only [List.cons_append, siftedAll]
    split
    · exact ih
    · rw [ih, List.cons_append]

theorem siftedAll_singleton {t : Tree} (h : t.isUnseen = false) :
    siftedAll [t] = [t.sifted] := by
  simp [siftedAll, h]

/-- A node of skipped text that begins with a token the grammar sees is no skipped token. -/
theorem isUnseen_node {kind : NodeKind} {children : List Tree}
    (h : kind = .error → ∀ text, children ≠ [.token .invalid text]) :
    (node kind children).isUnseen = false := by
  unfold isUnseen
  split
  · next heq => cases heq
  · next text heq =>
    obtain ⟨rfl, rfl⟩ := Tree.node.inj heq
    exact absurd rfl (h rfl text)
  · rfl

end RelLang.Tree
