import RelLang.Proofs.Rule.Bare

/-!
# Rules that take just the tokens they expect

A rule *consumes* tokens if wherever they are ahead, with some others behind them, it takes these
and no others, and reports nothing. Skipped tokens may stand anywhere between them, invalid ones
included. Rules put together consume what their parts consume.
-/

namespace RelLang

namespace State

variable {s : State} {n : Nat}

theorem words_bump (s : State) : s.bump.words = s.words.tail := by
  cases hw : s.words with
  | nil =>
    rw [bump_of_words_eq_nil hw]
    exact hw
  | cons w ws => rw [bump_of_words_eq_cons hw, List.tail_cons]

theorem kinds_eq_tail_of_bump (s : State) : s.bump.kinds = s.kinds.tail := by
  rw [kinds, words_bump, List.map_tail, kinds]

theorem reports_bump (s : State) : s.bump.reports = s.reports := by
  cases hw : s.words with
  | nil =>
    rw [bump_of_words_eq_nil hw]
    rfl
  | cons w ws =>
    rw [bump_of_words_eq_cons hw]
    rfl

end State

namespace Rule

variable {ν α β : Type} {setting : Setting} {enter : ν → State → Bool × State}
variable {a : α} {b : β} {k : TokenKind} {taken more behind : List TokenKind}

/-- In front of the tokens, with the others behind them, the rule yields the value, takes just these
tokens, and reports nothing. -/
def Consumes (setting : Setting) (enter : ν → State → Bool × State) (rule : Rule ν α) (a : α)
    (taken behind : List TokenKind) : Prop :=
  ∀ s : State, s.Valid → s.kinds = taken ++ behind →
    (rule.run setting enter s).1 = a ∧ (rule.run setting enter s).2.kinds = behind ∧
      (rule.run setting enter s).2.reports = s.reports

theorem consumes_pure (a : α) : Consumes setting enter (pure a : Rule ν α) a [] behind :=
  fun _ _ hkinds => ⟨rfl, hkinds, rfl⟩

theorem consumes_bump (k : TokenKind) :
    Consumes setting enter (bump : Rule ν Unit) () [k] behind := by
  intro s _ hkinds
  refine ⟨rfl, ?_, State.reports_bump s⟩
  rw [run_bump, State.kinds_eq_tail_of_bump, hkinds]
  rfl

namespace Consumes

theorem bind (henter : Steady enter) {first : Rule ν α} {next : α → Rule ν β}
    (h : Consumes setting enter first a taken (more ++ behind))
    (h' : Consumes setting enter (next a) b more behind) :
    Consumes setting enter (first >>= next) b (taken ++ more) behind := by
  intro s hs hkinds
  rw [List.append_assoc] at hkinds
  obtain ⟨hvalue, hrest, hreports⟩ := h s hs hkinds
  obtain ⟨hvalue', hrest', hreports'⟩ := h' _ (valid_run setting henter first hs) hrest
  rw [run_bind, hvalue]
  exact ⟨hvalue', hrest', hreports'.trans hreports⟩

/-- What is looked at first is told by the tokens. -/
theorem look {test : Rule ν α} {next : α → Rule ν β}
    (htest : ∀ s : State, s.kinds = taken ++ behind → test.run setting enter s = (a, s))
    (h : Consumes setting enter (next a) b taken behind) :
    Consumes setting enter (test >>= next) b taken behind := by
  intro s hs hkinds
  rw [run_bind, htest s hkinds]
  exact h s hs hkinds

/-- A rule, and a last step that takes nothing. -/
theorem yielding (henter : Steady enter) {first : Rule ν α} {next : α → Rule ν β}
    (h : Consumes setting enter first a taken behind)
    (h' : Consumes setting enter (next a) b [] behind) :
    Consumes setting enter (first >>= next) b taken behind := by
  have hboth : Consumes setting enter (first >>= next) b (taken ++ []) behind := .bind henter h h'
  rwa [List.append_nil] at hboth

theorem ignore {rule : Rule ν α} (h : Consumes setting enter rule a taken behind) :
    Consumes setting enter (Rule.ignore rule) () taken behind :=
  fun s hs hkinds => ⟨rfl, (h s hs hkinds).2⟩

theorem whenTrue {rule : Rule ν Unit} (h : Consumes setting enter rule () taken behind) :
    Consumes setting enter (when true rule) () taken behind := h

theorem node {body : Rule ν α} (h : Consumes setting enter body a taken behind)
    (kind : NodeKind) : Consumes setting enter (Rule.node kind body) a taken behind :=
  fun s hs hkinds => h { s.attachPending with siblings := [] } hs.opened hkinds

/-- A repetition consumes what its rounds consume, up to one that asks for no more. -/
theorem repeated (henter : Steady enter) {body : Rule ν Bool} (hmoves : Moves setting enter body)
    {items : List (List TokenKind)}
    (hitems : ∀ item ∈ items, ∀ behind, Consumes setting enter body true item behind)
    (hend : Consumes setting enter body false [] behind) :
    Consumes setting enter (Rule.repeated body) () items.flatten behind := by
  induction items with
  | nil =>
    intro s hs hkinds
    obtain ⟨hvalue, hrest⟩ := hend s hs hkinds
    refine ⟨rfl, ?_⟩
    rw [run_repeated henter hmoves hs, hvalue, if_neg Bool.false_ne_true]
    exact hrest
  | cons item items ih =>
    intro s hs hkinds
    rw [List.flatten_cons, List.append_assoc] at hkinds
    obtain ⟨hvalue, hrest, hreports⟩ := hitems item List.mem_cons_self _ s hs hkinds
    obtain ⟨-, hrest', hreports'⟩ :=
      ih (fun item hitem => hitems item (List.mem_cons_of_mem _ hitem)) _
        (valid_run setting henter body hs) hrest
    refine ⟨rfl, ?_⟩
    rw [run_repeated henter hmoves hs, hvalue, if_pos rfl]
    exact ⟨hrest', hreports'.trans hreports⟩

end Consumes

/-! ### Tokens -/

theorem consumes_eat (henter : Steady enter) (k : TokenKind) :
    Consumes setting enter (eat k : Rule ν Bool) true [k] behind := by
  refine .look (a := true) (fun s hkinds => ?_)
    (.yielding henter (consumes_bump k) (consumes_pure true))
  rw [run_currentIs, State.kindAt_eq, hkinds]
  simp

/-- Nothing is eaten in front of another token. -/
theorem consumes_eat_nothing (hbehind : behind.head? ≠ some k) :
    Consumes setting enter (eat k : Rule ν Bool) false [] behind := by
  refine .look (a := false) (fun s hkinds => ?_) (consumes_pure false)
  rw [run_currentIs, State.kindAt_eq, hkinds, List.nil_append, ← List.head?_eq_getElem?,
    beq_eq_false_iff_ne.mpr hbehind]

theorem consumes_expectToken (henter : Steady enter) (k : TokenKind) (code : Code)
    (opener : Option ByteRange) :
    Consumes setting enter (expectToken k code opener : Rule ν Bool) true [k] behind :=
  .yielding henter (consumes_eat henter k) (consumes_pure true)

theorem consumes_expect (henter : Steady enter) (k : TokenKind) :
    Consumes setting enter (expect k : Rule ν Bool) true [k] behind :=
  consumes_expectToken henter k (.ofMissing k) none

end Rule
end RelLang
