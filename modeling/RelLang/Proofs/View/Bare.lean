import RelLang.Proofs.Tree.Bare
import RelLang.Proofs.View.Binary

/-!
# Views do not see trivia

The nodes that a view finds are those that are found in the tree without trivia, and
so are the tokens that are no trivia.
-/

namespace RelLang

@[simp] theorem Tree.isOf_bare (d : Category) (t : Tree) : t.bare.isOf d = t.isOf d := by
  cases t <;> rfl

namespace Tree

theorem map_bare_filter_isOf (d : Category) (ts : List Tree) :
    (ts.filter (isOf d)).map bare = (bareAll ts).filter (isOf d) := by
  induction ts with
  | nil => rfl
  | cons t ts ih =>
    rw [bareAll, List.filter_cons]
    cases htrivia : t.isTrivia with
    | true =>
      cases t with
      | token kind text => exact ih
      | node kind children => cases htrivia
    | false =>
      rw [if_neg Bool.false_ne_true, List.filter_cons, isOf_bare]
      cases t.isOf d with
      | true => exact congrArg (t.bare :: ·) ih
      | false => exact ih

theorem leaves_subset_of_mem {t : Tree} {ts : List Tree} (h : t ∈ ts) : t.leaves ⊆ leavesAll ts := by
  induction h with
  | head => exact List.subset_append_left ..
  | tail _ _ ih => exact List.Subset.trans ih (List.subset_append_right ..)

/-- The tokens among some trees, without those below nodes. -/
def words (ts : List Tree) : List (TokenKind × String) :=
  ts.filterMap fun
    | .token kind text => some (kind, text)
    | .node .. => none

@[simp] theorem words_nil : words [] = [] := rfl

@[simp] theorem words_token_cons (kind : TokenKind) (text : String) (ts : List Tree) :
    words (.token kind text :: ts) = (kind, text) :: words ts := rfl

@[simp] theorem words_node_cons (kind : NodeKind) (children ts : List Tree) :
    words (.node kind children :: ts) = words ts := rfl

/-- Nodes are no tokens. -/
theorem words_cons_of_isOf {d : Category} {t : Tree} (h : t.isOf d = true) (ts : List Tree) :
    words (t :: ts) = words ts := by
  cases t with
  | token kind text => cases h
  | node kind children => rfl

end Tree

namespace View

variable {c : Category}

/-- The tree of the node without trivia. -/
def bare (v : View c) : Tree := v.node.tree.bare

/-- What is directly below the node, without trivia. -/
def parts (v : View c) : List Tree := Tree.bareAll v.node.children

theorem bare_eq (v : View c) : v.bare = .node v.node.kind v.parts := rfl

theorem kind_of_bare {v : View c} {kind : NodeKind} {ts : List Tree} (h : v.bare = .node kind ts) :
    v.node.kind = kind ∧ v.parts = ts := by
  rw [bare_eq] at h
  exact ⟨(Tree.node.inj h).1, (Tree.node.inj h).2⟩

theorem bare_only {kind : NodeKind} (v : View (.only kind)) : v.bare = .node kind v.parts := by
  have hkind : v.node.kind = kind := (eq_of_beq v.admitted).symm
  rw [bare_eq]
  exact congrArg (Tree.node · v.parts) hkind

/-- The nodes of a category are those of the tree without trivia. -/
theorem map_bare_all (d : Category) (v : View c) :
    (v.all d).map bare = v.parts.filter (Tree.isOf d) := by
  have hmap : (v.all d).map bare = ((v.all d).map (·.node.tree)).map Tree.bare := by
    rw [List.map_map]
    rfl
  rw [hmap, map_tree_all, Tree.map_bare_filter_isOf]
  rfl

theorem map_bare_first (d : Category) (v : View c) :
    (v.first d).map bare = (v.parts.filter (Tree.isOf d)).head? := by
  rw [first_eq_head?, ← List.head?_map, map_bare_all]

theorem leaves_subset_of_all {d : Category} {v : View c} {w : View d} (h : w ∈ v.all d) :
    w.bare.leaves ⊆ v.bare.leaves := by
  have hmem : w.bare ∈ v.parts.filter (Tree.isOf d) := by
    rw [← map_bare_all]
    exact List.mem_map_of_mem h
  exact Tree.leaves_subset_of_mem (List.mem_filter.mp hmem).1

theorem leaves_subset_of_first {d : Category} {v : View c} {w : View d} (h : v.first d = some w) :
    w.bare.leaves ⊆ v.bare.leaves :=
  leaves_subset_of_all (List.mem_of_head? (v.first_eq_head? d ▸ h))

theorem bare_of_as? {d : Category} {v : View c} {w : View d} (h : v.node.as? d = some w) :
    w.bare = v.bare := by
  rw [bare, bare, Located.node_of_as? h]

/-- A node is seen as what its tree is. -/
theorem as?_of_bare {d : Category} {v : View c} {kind : NodeKind} {ts : List Tree}
    (h : v.bare = .node kind ts) (hd : d.admits kind = true) :
    ∃ w : View d, v.node.as? d = some w ∧ w.bare = .node kind ts := by
  have hkind : d.admits v.node.kind = true := by rwa [(kind_of_bare h).1]
  exact ⟨⟨v.node, hkind⟩, dif_pos hkind, h⟩

/-- The node that a view finds first. -/
theorem first_of_parts {d : Category} {v : View c} {t : Tree} {ts : List Tree}
    (h : v.parts.filter (Tree.isOf d) = t :: ts) : ∃ w : View d, v.first d = some w ∧ w.bare = t := by
  have hfirst := v.map_bare_first d
  rw [h] at hfirst
  obtain ⟨w, hw, ht⟩ := Option.map_eq_some_iff.mp hfirst
  exact ⟨w, hw, ht⟩

theorem first_eq_none {d : Category} {v : View c} (h : v.parts.filter (Tree.isOf d) = []) :
    v.first d = none := by
  have hfirst := v.map_bare_first d
  rw [h] at hfirst
  exact Option.map_eq_none_iff.mp hfirst

/-! ### Tokens -/

/-- The tokens directly below the node, without trivia. -/
def words (v : View c) : List (TokenKind × String) := Tree.words v.parts

theorem filter_childTokens (v : View c) :
    v.node.childTokens.filter (!·.1.isTrivia) = v.words := by
  have hwords : ∀ ts : List Tree,
      (Tree.words ts).filter (!·.1.isTrivia) = Tree.words (Tree.bareAll ts) := by
    intro ts
    induction ts with
    | nil => rfl
    | cons t ts ih =>
      cases t with
      | token kind text =>
        have htrivia : (Tree.token kind text).isTrivia = kind.isTrivia := rfl
        rw [Tree.words_token_cons, List.filter_cons, Tree.bareAll, htrivia]
        cases kind.isTrivia with
        | true => exact ih
        | false => exact congrArg ((kind, text) :: ·) ih
      | node kind children => exact ih
  exact hwords _

/-- What is found among the tokens is found without the trivia, if it is none. -/
theorem find?_childTokens (v : View c) {test : TokenKind × String → Bool}
    (htest : ∀ t, t.1.isTrivia = true → test t = false) :
    v.node.childTokens.find? test = v.words.find? test := by
  rw [← filter_childTokens, List.find?_filter]
  congr 1
  funext t
  cases htrivia : t.1.isTrivia with
  | true => rw [htest t htrivia]; rfl
  | false => simp

variable {kind : TokenKind}

theorem tokenText?_eq (v : View c) (h : kind.isTrivia = false) :
    v.tokenText? kind = (v.words.find? (·.1 == kind)).map (·.2) := by
  rw [tokenText?, find?_childTokens]
  intro t ht
  refine beq_false_of_ne fun heq => ?_
  rw [heq, h] at ht
  cases ht

theorem find?_tokenKinds (v : View c) {test : TokenKind → Bool}
    (htest : ∀ k, k.isTrivia = true → test k = false) :
    v.tokenKinds.find? test = (v.words.find? fun t => test t.1).map (·.1) := by
  rw [tokenKinds, List.find?_map, ← find?_childTokens v fun t => htest t.1]
  rfl

theorem firstMeaning_eq (v : View c) {α : Type} {meaning : TokenKind → Option α}
    (h : ∀ k, k.isTrivia = true → meaning k = none) :
    v.firstMeaning meaning = v.words.findSome? fun t => meaning t.1 := by
  rw [firstMeaning, tokenKinds, List.findSome?_map, ← filter_childTokens]
  induction v.node.childTokens with
  | nil => rfl
  | cons t ts ih =>
    rw [List.findSome?_cons, List.filter_cons, ih]
    cases htrivia : t.1.isTrivia with
    | true => rw [Function.comp_apply, h t.1 htrivia]; rfl
    | false => rfl

theorem hasToken_eq (v : View c) (h : kind.isTrivia = false) :
    v.hasToken kind = v.words.any (·.1 == kind) := by
  rw [← filter_childTokens, List.any_filter, hasToken, tokenKinds, Bool.eq_iff_iff,
    List.contains_iff_mem, List.mem_map, List.any_eq_true]
  refine exists_congr fun t => and_congr_right fun _ => ?_
  constructor
  · rintro rfl
    simp [h]
  · intro ht
    rw [Bool.and_eq_true] at ht
    exact eq_of_beq ht.2

end View
end RelLang
