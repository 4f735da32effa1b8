import RelLang.Proofs.Rule.Loop
import RelLang.Proofs.Rule.Sound
import RelLang.Proofs.Tree.Bare

/-!
# Readings without trivia

What a reading has put into the tree and what it still has to read, without the
tokens that the grammar does not see. In a text without invalid tokens nothing else
is skipped, so the trees that a rule adds tell which tokens it has taken.
-/

namespace RelLang

namespace State

variable {s t u : State} {ts us : List Tree}

/-- The trees of the innermost open node or group, without trivia. -/
def bare (s : State) : List Tree := Tree.bareAll s.siblings.reverse

/-- The significant tokens to come. -/
def input (s : State) : List (TokenKind × String) := s.words.map (·.token.toPair)

/-- The state is valid, and no invalid token is to come. -/
structure Ready (s : State) : Prop where
  valid : s.Valid
  whole : ∀ t ∈ s.rest, t.kind ≠ .invalid

theorem kinds_eq (s : State) : s.kinds = s.input.map (·.1) := by
  simp [kinds, input, Token.toPair]

theorem kindAt_eq (s : State) (n : Nat) : s.kindAt n = s.kinds[n]? := by
  simp [kindAt, kinds]

theorem Ready.of_reaches (hs : s.Ready) (h : s.Reaches t) : t.Ready :=
  ⟨h.valid hs.valid, fun u hu => hs.whole u (h.rest.subset hu)⟩

theorem Ready.of_eq (hs : s.Ready) (h₁ : t.left = s.left) (h₂ : t.pending = s.pending)
    (h₃ : t.words = s.words) : t.Ready := by
  refine ⟨hs.valid.of_eq h₁ h₂ h₃, ?_⟩
  simp only [rest, h₂, h₃]
  exact hs.whole

theorem isTrivia_of_not_significant {k : TokenKind} (hk : k.isSignificant = false)
    (hvalid : k ≠ .invalid) : k.isTrivia = true := by
  simpa [TokenKind.isSignificant, hvalid] using hk

/-- Skipped tokens that are all trivia leave nothing in the tree. -/
theorem bareAll_skippedTree {tokens : List Token} (h : ∀ t ∈ tokens, t.kind.isTrivia = true) :
    Tree.bareAll (tokens.map Token.skippedTree) = [] := by
  induction tokens with
  | nil => rfl
  | cons t tokens ih =>
    have ht := h t List.mem_cons_self
    have hleaf : t.skippedTree = t.leaf := by
      refine if_neg fun hinvalid => ?_
      rw [hinvalid] at ht
      cases ht
    have htrivia : t.leaf.isTrivia = true := ht
    rw [List.map_cons, hleaf, Tree.bareAll, if_pos htrivia]
    exact ih fun u hu => h u (List.mem_cons_of_mem _ hu)

@[simp] theorem bare_attachPending (hs : s.Ready) : s.attachPending.bare = s.bare := by
  have htrivia : ∀ t ∈ s.pending, t.kind.isTrivia = true := fun t ht =>
    isTrivia_of_not_significant (hs.valid.pending t ht)
      (hs.whole t (List.mem_append_left _ ht))
  simp [bare, attachPending, bareAll_skippedTree htrivia]

theorem ready_attachPending (hs : s.Ready) : s.attachPending.Ready :=
  hs.of_reaches (reaches_attachPending s)

/-- Taking a token puts it behind the other trees. -/
theorem bare_bump (hs : s.Ready) {w : Word} {ws : List Word} (hw : s.words = w :: ws) :
    s.bump.bare = s.bare ++ [w.token.leaf] := by
  have hsig := hs.valid.token w (by rw [hw]; exact List.mem_cons_self)
  have htrivia : w.token.kind.isTrivia = false := by
    simp only [TokenKind.isSignificant, Bool.and_eq_true, Bool.not_eq_true'] at hsig
    exact hsig.1
  have hleaf : Tree.bareAll [w.token.leaf] = [w.token.leaf] :=
    if_neg (Bool.eq_false_iff.mp htrivia)
  rw [← bare_attachPending hs, bump_of_words_eq_cons hw]
  simp [bare, hleaf]

/-- The significant tokens in the tree and those to come are those of all tokens. -/
theorem leavesAll_bare (hs : s.Ready) :
    Tree.leavesAll s.bare ++ s.input = s.leaves.filter (!·.1.isTrivia) := by
  have hrest : (s.rest.map Token.toPair).filter (!·.1.isTrivia) = s.input := by
    have hsame : s.rest.filter (!·.kind.isTrivia) = s.rest.filter (·.kind.isSignificant) := by
      refine List.filter_congr fun t ht => ?_
      simp [TokenKind.isSignificant, hs.whole t ht]
    have hfilter := hs.valid.filter_rest
    rw [← hsame] at hfilter
    rw [List.filter_map]
    refine (congrArg (List.map Token.toPair) hfilter).trans ?_
    rw [List.map_map]
    rfl
  rw [bare, Tree.leavesAll_bareAll, leaves, List.filter_append, hrest]

/-- The trees that were added tell which tokens were taken. -/
theorem Reaches.input_eq (h : s.Reaches t) (hs : s.Ready) (hbare : t.bare = s.bare ++ ts) :
    s.input = Tree.leavesAll ts ++ t.input := by
  have hleaves := leavesAll_bare (hs.of_reaches h)
  rw [h.leaves, ← leavesAll_bare hs, hbare, Tree.leavesAll_append, List.append_assoc] at hleaves
  exact (List.append_cancel_left hleaves).symm

theorem Reaches.kinds_eq (h : s.Reaches t) (hs : s.Ready) (hbare : t.bare = s.bare ++ ts) :
    s.kinds = Tree.kinds ts ++ t.kinds := by
  rw [State.kinds_eq, h.input_eq hs hbare, List.map_append, Tree.kinds, State.kinds_eq]

/-- The tokens to come are those behind the trees that were added. -/
theorem Reaches.input_behind (h : s.Reaches t) (hs : s.Ready) (hbare : t.bare = s.bare ++ ts)
    {behind : List (TokenKind × String)} (hinput : s.input = Tree.leavesAll ts ++ behind) :
    t.input = behind :=
  List.append_cancel_left ((h.input_eq hs hbare).symm.trans hinput)

/-- Trees were added, and nothing was reported. -/
structure Took (ts : List Tree) (s t : State) : Prop where
  bare : t.bare = s.bare ++ ts
  reports : t.reports = s.reports

theorem Took.refl (s : State) : Took [] s s := ⟨(List.append_nil _).symm, rfl⟩

theorem Took.trans (h₁ : Took ts s t) (h₂ : Took us t u) : Took (ts ++ us) s u :=
  ⟨by rw [h₂.bare, h₁.bare, List.append_assoc], h₂.reports.trans h₁.reports⟩

theorem took_bump (hs : s.Ready) {w : Word} {ws : List Word} (hw : s.words = w :: ws) :
    Took [w.token.leaf] s s.bump :=
  ⟨bare_bump hs hw, by rw [bump_of_words_eq_cons hw]; rfl⟩

/-- The trees in front of a node or group are left alone. -/
theorem bare_behind (hs : s.Ready) (trees : List Tree) :
    bare { t with siblings := trees ++ s.attachPending.siblings }
      = s.bare ++ Tree.bareAll trees.reverse := by
  rw [← bare_attachPending hs]
  simp [bare]

theorem words_of_kinds {k : TokenKind} {ks : List TokenKind} (h : s.kinds = k :: ks) :
    ∃ w ws, s.words = w :: ws ∧ w.token.kind = k := by
  obtain ⟨w, ws, hw, hk, -⟩ := List.map_eq_cons_iff.mp h
  exact ⟨w, ws, hw, hk⟩

/-- What takes trees with tokens has fewer tokens left. -/
theorem Reaches.left_lt (h : s.Reaches t) (hs : s.Ready) (hbare : t.bare = s.bare ++ ts)
    (hts : Tree.kinds ts ≠ []) : t.left < s.left := by
  refine Nat.lt_of_le_of_ne (h.left_le hs.valid) fun heq => ?_
  have hkinds := h.kinds_eq hs hbare
  rw [kinds, kinds, h.words_eq_of_left_eq hs.valid heq] at hkinds
  exact hts (List.append_left_eq_self.mp hkinds.symm)

end State

namespace Rule

variable {ν α : Type} {setting : Setting} {enter : ν → State → Bool × State} {s : State}

/-- A node stands behind the trees in front of it. -/
theorem bare_node (hs : s.Ready) (kind : NodeKind) (body : Rule ν α) :
    ((Rule.node kind body).run setting enter s).2.bare = s.bare ++
      [.node kind (body.run setting enter { s.attachPending with siblings := [] }).2.bare] := by
  have hadd := State.bare_behind
    (t := (body.run setting enter { s.attachPending with siblings := [] }).2) hs
    [.node kind (body.run setting enter { s.attachPending with siblings := [] }).2.siblings.reverse]
  rw [List.reverse_singleton, Tree.bareAll_singleton_node] at hadd
  rw [run_node]
  exact hadd

end Rule
end RelLang
