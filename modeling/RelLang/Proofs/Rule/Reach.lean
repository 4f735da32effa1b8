import RelLang.Rule.Run

/-!
# What every rule keeps

A rule moves tokens from the text into the tree and does nothing else to them. So
the leaves of the tree and the tokens to come stay the same list, the open contexts
are what they were, and reports are only added. One relation between states says
all of this; it holds of every step, it is closed under the ways to put steps
together, and by induction on the rule it holds of whole readings.
-/

namespace RelLang

namespace State

/-- The tokens that are not in the tree yet. -/
def rest (s : State) : List Token := s.pending ++ Word.tokens s.words

/-- The tokens of the innermost open node or group, and behind them those to come. -/
def leaves (s : State) : List (TokenKind × String) :=
  Tree.leavesAll s.siblings.reverse ++ s.rest.map Token.toPair

/-- The counter is right, and the grammar sees the significant tokens and no others. -/
structure Valid (s : State) : Prop where
  left_eq : s.left = s.rest.length
  pending : ∀ t ∈ s.pending, t.kind.isSignificant = false
  token : ∀ w ∈ s.words, w.token.kind.isSignificant = true
  behind : ∀ w ∈ s.words, ∀ t ∈ w.behind, t.kind.isSignificant = false

/-- What a rule can make of a state. -/
structure Reaches (s t : State) : Prop where
  valid : s.Valid → t.Valid
  rest : t.rest <:+ s.rest
  words : t.words <:+ s.words
  leaves : t.leaves = s.leaves
  contexts : t.contexts = s.contexts
  reports : s.reports <:+ t.reports
  temporal : s.temporal = true → t.temporal = true
  stalled : s.stalled = true → t.stalled = true

end State

/-! ### Tokens that become trees -/

theorem Word.tokens_cons (w : Word) (ws : List Word) :
    tokens (w :: ws) = w.token :: (w.behind ++ tokens ws) := by
  simp [tokens]

/-- The significant tokens of words are the words' own tokens. -/
theorem Word.filter_tokens {ws : List Word}
    (htoken : ∀ w ∈ ws, w.token.kind.isSignificant = true)
    (hbehind : ∀ w ∈ ws, ∀ t ∈ w.behind, t.kind.isSignificant = false) :
    (tokens ws).filter (·.kind.isSignificant) = ws.map (·.token) := by
  induction ws with
  | nil => rfl
  | cons w ws ih =>
    have hw : w.behind.filter (·.kind.isSignificant) = [] := by
      simpa [List.filter_eq_nil_iff] using hbehind w List.mem_cons_self
    have hi := ih (fun v hv => htoken v (List.mem_cons_of_mem _ hv))
      (fun v hv => hbehind v (List.mem_cons_of_mem _ hv))
    have ht := htoken w List.mem_cons_self
    rw [tokens_cons, List.filter_cons, if_pos ht, List.filter_append, hw, List.nil_append, hi,
      List.map_cons]

@[simp] theorem Token.leaves_leaf (t : Token) : t.leaf.leaves = [t.toPair] := rfl

theorem Token.leaves_skippedTree (t : Token) : t.skippedTree.leaves = [t.toPair] := by
  unfold skippedTree
  split
  · simp [Tree.leaves]
  · rfl

theorem Tree.leavesAll_map_skippedTree (ts : List Token) :
    leavesAll (ts.map Token.skippedTree) = ts.map Token.toPair := by
  induction ts with
  | nil => rfl
  | cons t ts ih => simp [leavesAll, Token.leaves_skippedTree, ih]

namespace State

variable {s t u : State} {setting : Setting}

theorem leaves_eq_of_eq (h₁ : t.siblings = s.siblings) (h₂ : t.pending = s.pending)
    (h₃ : t.words = s.words) : t.leaves = s.leaves := by
  simp only [leaves, rest, h₁, h₂, h₃]

/-- The significant tokens to come are those of the words. -/
theorem Valid.filter_rest (hs : s.Valid) :
    s.rest.filter (·.kind.isSignificant) = s.words.map (·.token) := by
  have hp : s.pending.filter (·.kind.isSignificant) = [] := by
    simpa [List.filter_eq_nil_iff] using hs.pending
  rw [rest, List.filter_append, hp, List.nil_append, Word.filter_tokens hs.token hs.behind]

theorem Valid.of_eq (hs : s.Valid) (h₁ : t.left = s.left) (h₂ : t.pending = s.pending)
    (h₃ : t.words = s.words) : t.Valid := by
  refine ⟨?_, ?_, ?_, ?_⟩
  · rw [h₁, hs.left_eq]
    simp only [rest, h₂, h₃]
  · rw [h₂]; exact hs.pending
  · rw [h₃]; exact hs.token
  · rw [h₃]; exact hs.behind

/-- A step that touches neither tokens nor trees nor contexts. -/
theorem Reaches.of_eq (h₁ : t.left = s.left) (h₂ : t.pending = s.pending)
    (h₃ : t.words = s.words) (h₄ : t.siblings = s.siblings) (h₅ : t.contexts = s.contexts)
    (h₆ : s.reports <:+ t.reports) (h₇ : s.temporal = true → t.temporal = true)
    (h₈ : s.stalled = true → t.stalled = true) : s.Reaches t where
  valid hs := hs.of_eq h₁ h₂ h₃
  rest := by simp only [State.rest, h₂, h₃, List.suffix_refl]
  words := by simp only [h₃, List.suffix_refl]
  leaves := leaves_eq_of_eq h₄ h₂ h₃
  contexts := h₅
  reports := h₆
  temporal := h₇
  stalled := h₈

@[refl] theorem Reaches.refl (s : State) : s.Reaches s :=
  .of_eq rfl rfl rfl rfl rfl (List.suffix_refl _) id id

theorem Reaches.trans (h₁ : s.Reaches t) (h₂ : t.Reaches u) : s.Reaches u where
  valid hs := h₂.valid (h₁.valid hs)
  rest := h₂.rest.trans h₁.rest
  words := h₂.words.trans h₁.words
  leaves := h₂.leaves.trans h₁.leaves
  contexts := h₂.contexts.trans h₁.contexts
  reports := h₁.reports.trans h₂.reports
  temporal hs := h₂.temporal (h₁.temporal hs)
  stalled hs := h₂.stalled (h₁.stalled hs)

/-! ### Single steps -/

theorem rest_attachPending (s : State) : s.attachPending.rest = Word.tokens s.words := rfl

theorem leavesAll_attachPending (s : State) :
    Tree.leavesAll s.attachPending.siblings.reverse
      = Tree.leavesAll s.siblings.reverse ++ s.pending.map Token.toPair := by
  simp [attachPending, Tree.leavesAll_map_skippedTree]

theorem reaches_attachPending (s : State) : s.Reaches s.attachPending where
  valid hs := by
    refine ⟨?_, ?_, hs.token, hs.behind⟩
    · have hl := hs.left_eq
      simp only [rest, List.length_append] at hl
      rw [rest_attachPending]
      show s.left - s.pending.length = _
      omega
    · intro t ht
      cases ht
  rest := ⟨s.pending, rfl⟩
  words := List.suffix_refl _
  leaves := by
    rw [leaves, leavesAll_attachPending, rest_attachPending, leaves, rest, List.map_append,
      List.append_assoc]
  contexts := rfl
  reports := List.suffix_refl _
  temporal := id
  stalled := id

/-- Where the body of a node begins. -/
theorem Valid.opened (hs : s.Valid) : Valid { s.attachPending with siblings := [] } :=
  ((reaches_attachPending s).valid hs).of_eq rfl rfl rfl

/-- Taking the current token when nothing is pending. -/
theorem reaches_take {w : Word} {ws : List Word} (hp : s.pending = [])
    (hw : s.words = w :: ws) :
    s.Reaches
      { s with pending := w.behind, words := ws, left := s.left - 1
               siblings := w.token.leaf :: s.siblings } where
  valid hs := by
    have hmem : w ∈ s.words := by rw [hw]; exact List.mem_cons_self
    refine ⟨?_, hs.behind w hmem, ?_, ?_⟩
    · have hl := hs.left_eq
      simp only [rest, hp, hw, Word.tokens_cons, List.nil_append, List.length_cons] at hl
      simp only [rest]
      omega
    · intro v hv
      exact hs.token v (by rw [hw]; exact List.mem_cons_of_mem _ hv)
    · intro v hv
      exact hs.behind v (by rw [hw]; exact List.mem_cons_of_mem _ hv)
  rest := by
    refine ⟨[w.token], ?_⟩
    simp only [rest, hp, hw, Word.tokens_cons, List.nil_append, List.singleton_append]
  words := by rw [hw]; exact List.suffix_cons _ _
  leaves := by
    simp [leaves, rest, hp, hw, Word.tokens_cons]
  contexts := rfl
  reports := List.suffix_refl _
  temporal := id
  stalled := id

theorem bump_of_words_eq_nil (h : s.words = []) : s.bump = s.attachPending := by
  have hw : s.attachPending.words = [] := h
  simp only [bump, hw]

theorem bump_of_words_eq_cons {w : Word} {ws : List Word} (h : s.words = w :: ws) :
    s.bump = { s.attachPending with
      pending := w.behind, words := ws, left := s.attachPending.left - 1
      siblings := w.token.leaf :: s.attachPending.siblings } := by
  have hw : s.attachPending.words = w :: ws := h
  simp only [bump, hw]

theorem reaches_bump (s : State) : s.Reaches s.bump := by
  cases hw : s.words with
  | nil =>
    rw [bump_of_words_eq_nil hw]
    exact reaches_attachPending s
  | cons w ws =>
    rw [bump_of_words_eq_cons hw]
    exact (reaches_attachPending s).trans (reaches_take rfl hw)

theorem reaches_keep (setting : Setting) (r : Report) (s : State) :
    s.Reaches (s.keep setting r) := by
  unfold keep
  dsimp only
  split
  · exact .refl s
  · exact .of_eq rfl rfl rfl rfl rfl (List.suffix_cons _ _) id id

theorem reaches_report (setting : Setting) (problem : Problem) (s : State) :
    s.Reaches (s.report setting problem) :=
  reaches_keep setting _ s

/-! ### Steps put together -/

/-- What is done with no trees in front is done behind any trees. -/
theorem Reaches.behind (trees : List Tree) (h : Reaches { s with siblings := [] } t) :
    Reaches { s with siblings := trees } { t with siblings := t.siblings ++ trees } where
  valid hs := (h.valid (hs.of_eq rfl rfl rfl)).of_eq rfl rfl rfl
  rest := h.rest
  words := h.words
  leaves := by
    have hl := h.leaves
    simp only [State.leaves, List.reverse_nil, Tree.leavesAll, List.nil_append] at hl
    simp only [State.leaves, List.reverse_append, Tree.leavesAll_append, List.append_assoc]
    exact congrArg _ hl
  contexts := h.contexts
  reports := h.reports
  temporal := h.temporal
  stalled := h.stalled

/-- Putting a node around all trees loses no leaf. -/
theorem Reaches.wrap (kind : NodeKind) (h : s.Reaches t) :
    s.Reaches { t with siblings := [.node kind t.siblings.reverse] } where
  valid hs := (h.valid hs).of_eq rfl rfl rfl
  rest := h.rest
  words := h.words
  leaves := by
    refine Eq.trans ?_ h.leaves
    simp [State.leaves, State.rest, Tree.leaves]
  contexts := h.contexts
  reports := h.reports
  temporal := h.temporal
  stalled := h.stalled

theorem Reaches.group (h : Reaches { s.attachPending with siblings := [] } t) :
    s.Reaches { t with siblings := t.siblings ++ s.attachPending.siblings } :=
  (reaches_attachPending s).trans (h.behind s.attachPending.siblings)

theorem Reaches.node (kind : NodeKind) (h : Reaches { s.attachPending with siblings := [] } t) :
    s.Reaches
      { t with siblings := .node kind t.siblings.reverse :: s.attachPending.siblings } :=
  Reaches.group (h.wrap kind)

theorem Reaches.within (context : Context)
    (h : Reaches { s with contexts := context :: s.contexts } t) :
    s.Reaches { t with contexts := t.contexts.tail } where
  valid hs := (h.valid (hs.of_eq rfl rfl rfl)).of_eq rfl rfl rfl
  rest := h.rest
  words := h.words
  leaves := h.leaves
  contexts := by
    have hc := h.contexts
    simp only at hc
    simp only [hc, List.tail_cons]
  reports := h.reports
  temporal := h.temporal
  stalled := h.stalled

end State

/-- Going round a loop reaches what its rounds reach. -/
theorem reaches_iterate {σ : Type} {step : σ → State → (σ × Bool) × State}
    (h : ∀ a s, State.Reaches s (step a s).2) (rounds : Nat) (a : σ) (s : State) :
    s.Reaches (iterate step rounds a s).2 := by
  induction rounds generalizing a s with
  | zero => exact .of_eq rfl rfl rfl rfl rfl (List.suffix_refl _) id fun _ => rfl
  | succ rounds ih =>
    have hs := h a s
    unfold iterate
    dsimp only
    split
    · exact hs.trans (ih _ _)
    · exact hs

/-- A meaning of calls that keeps what rules keep. -/
def Steady {ν : Type} (enter : ν → State → Bool × State) : Prop :=
  ∀ symbol s, State.Reaches s (enter symbol s).2

/-- Where there is nothing to call, there is nothing to keep. -/
theorem steady_of_empty (enter : Empty → State → Bool × State) : Steady enter :=
  fun symbol => symbol.elim

namespace Rule

variable {ν : Type} {enter : ν → State → Bool × State}

/-- A rule reaches what it makes of a state, if its calls do. -/
theorem reaches_run (setting : Setting) (henter : Steady enter) {α : Type} (rule : Rule ν α)
    (s : State) : s.Reaches (rule.run setting enter s).2 := by
  induction rule generalizing s with
  | done a => exact .refl s
  | andThen first next ih₁ ih₂ => exact (ih₁ s).trans (ih₂ _ _)
  | peek n => exact .refl s
  | ahead test => exact .refl s
  | currentText => exact .refl s
  | currentRange => exact .refl s
  | atRecoveryPoint => exact .refl s
  | bump => exact State.reaches_bump s
  | node kind body ih => exact (ih _).node kind
  | group body ih => exact (ih _).group
  | enclose kind body ih => exact (ih s).wrap kind
  | within context body ih => exact (ih _).within context
  | report problem => exact State.reaches_report setting problem s
  | requireTemporal =>
    simp only [run]
    split
    · exact .refl s
    · exact State.reaches_report setting _ s
  | admitTemporal =>
    simp only [run]
    split
    · exact .of_eq rfl rfl rfl rfl rfl (List.suffix_refl _) (fun _ => rfl) id
    · exact .refl s
  | progress body ih => exact ih s
  | loop a body ih => exact reaches_iterate (fun a s => ih a s) _ _ _
  | call symbol => exact henter symbol s

end Rule

/-- Every nonterminal of a grammar keeps what rules keep. -/
theorem Grammar.steady_enter {ν : Type} (g : Grammar ν) (setting : Setting) (levels : Nat) :
    Steady (g.enter setting levels) := by
  induction levels with
  | zero => exact fun symbol s => Rule.reaches_run _ (steady_of_empty _) (g.beyond symbol) s
  | succ levels ih => exact fun symbol s => Rule.reaches_run _ ih (g.body symbol) s

end RelLang
