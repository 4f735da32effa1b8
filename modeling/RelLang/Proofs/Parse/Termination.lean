import RelLang.Proofs.Machine.Reading

/-!
# Reading comes to an end

Each round of a loop that asks for another takes a token, so no loop is cut off. A
call goes one level deeper, and there is a limit to that. So the number of tokens,
with the limit, bounds beforehand how much a reading has to do.
-/

namespace RelLang

/-- A rule whose loops advance cuts none off, if its calls do not. -/
theorem Rule.stalled_run {ν α : Type} {setting : Setting} {enter : ν → State → Bool × State}
    (henter : Steady enter)
    (hcall : ∀ symbol s, s.Valid → (enter symbol s).2.stalled = s.stalled) (rule : Rule ν α)
    (hrule : rule.Every (fun _ => True) (Advancing setting enter)) {s : State} (hs : s.Valid) :
    (rule.run setting enter s).2.stalled = s.stalled := by
  induction rule generalizing s with
  | andThen first next ih₁ ih₂ =>
    exact (ih₂ _ (hrule.2 _) (valid_run _ henter first hs)).trans (ih₁ hrule.1 hs)
  | bump => cases hw : s.words <;> simp [run, State.bump, State.attachPending, hw]
  | node kind body ih =>
    exact ih hrule.2 hs.opened
  | group body ih =>
    exact ih hrule hs.opened
  | enclose kind body ih => exact ih hrule.2 hs
  | within context body ih => exact ih hrule (hs.of_eq rfl rfl rfl)
  | report problem =>
    obtain ⟨_, hreport⟩ := State.report_eq setting problem s
    rw [run, hreport]
  | requireTemporal =>
    obtain ⟨_, hreport⟩ := State.report_eq setting .temporalDisabled s
    rw [run]
    split
    · rfl
    · rw [hreport]
  | admitTemporal =>
    rw [run]
    split <;> rfl
  | progress body ih => exact ih hrule hs
  | loop a body ih =>
    obtain ⟨b, t, ht, hstalled, -, hrun⟩ := loop_last henter hrule.1
      (fun _ t => t.stalled = s.stalled)
      (fun a t ht hstalled _ => (ih a (hrule.2 a) ht).trans hstalled) hs (a := a) rfl
    rw [hrun]
    exact (ih b (hrule.2 b) ht).trans hstalled
  | call symbol => exact hcall symbol s hs
  | _ => rfl

namespace Grammar

theorem stalled_enter (setting : Setting) (levels : Nat) (symbol : Nonterminal) {s : State}
    (hs : s.Valid) : (language.enter setting levels symbol s).2.stalled = s.stalled := by
  induction levels generalizing symbol s with
  | zero =>
    exact Rule.stalled_run (steady_of_empty _) (fun symbol => symbol.elim) _
      (advances_beyond setting _ symbol).ends hs
  | succ levels ih =>
    have henter := language.steady_enter setting levels
    exact Rule.stalled_run henter (fun symbol _ hs => ih symbol hs) _ (ends_body henter symbol) hs

end Grammar

namespace Parse

theorem stalled_ofTokens (config : ParseConfig) (entry : Entry) (tokens : List Token) :
    (ofTokens config entry tokens).stalled = false := by
  have henter := Grammar.language.steady_enter (setting config tokens) nestingLimit
  obtain ⟨_, hstart⟩ := start_eq config tokens
  have hrule : Grammar.Ends (setting config tokens) _ entry.rule := entry.ends_rule henter
  have hstalled := Rule.stalled_run henter
    (fun symbol _ hs => Grammar.stalled_enter _ nestingLimit symbol hs) entry.rule hrule
    (valid_start config tokens)
  refine Eq.trans hstalled ?_
  rw [hstart]

/-- Reading ends, whatever the tokens are. In every loop of the grammar each round that asks for
another takes a token, and a call either goes one level deeper, below the limit, or follows a rule
without calls. So as many rounds as there are tokens and one more, and as many nested calls as the
limit and one more, are enough; the machine stops without a fault and has taken every token, and
no loop has been cut off. -/
theorem reading_ends (config : ParseConfig) (entry : Entry) (tokens : List Token) :
    (∀ levels symbol, Grammar.Ends (setting config tokens)
      (Grammar.language.enter (setting config tokens) levels) (Grammar.language.body symbol)) ∧
    (∀ symbol, Grammar.Ends (setting config tokens) nofun (Grammar.language.beyond symbol)) ∧
    Grammar.Ends (setting config tokens)
      (Grammar.language.enter (setting config tokens) nestingLimit) entry.rule ∧
    (∀ m : Machine, m.nesting ≤ nestingLimit → ∀ deeper ∈ m.enterNesting?,
      deeper.nesting = m.nesting + 1 ∧ deeper.nesting ≤ nestingLimit) ∧
    (∃ m, Machine.read config entry tokens = .ok m ∧ m.state.rest = [] ∧ m.state.left = 0) ∧
    (ofTokens config entry tokens).stalled = false := by
  have henter := fun levels => Grammar.language.steady_enter (setting config tokens) levels
  refine ⟨fun levels => Grammar.ends_body (henter levels),
    fun symbol => (Grammar.advances_beyond _ _ symbol).ends, entry.ends_rule (henter _), ?_, ?_,
    stalled_ofTokens config entry tokens⟩
  · intro m hm deeper hdeeper
    unfold Machine.enterNesting? at hdeeper
    split at hdeeper
    · cases hdeeper
    · next hlimit =>
      obtain rfl := Option.some.inj hdeeper
      exact ⟨rfl, Nat.lt_of_not_le hlimit⟩
  · obtain ⟨m, hread, hstate, -⟩ := Machine.read_eq config entry tokens
    have hrest : m.state.rest = [] := by
      rw [hstate]
      exact rest_final config entry tokens
    have hvalid := (reaches_final config entry tokens).valid (valid_start config tokens)
    refine ⟨m, hread, hrest, ?_⟩
    rw [hstate]
    show (final config entry tokens).left = 0
    rw [hvalid.left_eq, rest_final]
    rfl

end Parse
end RelLang
