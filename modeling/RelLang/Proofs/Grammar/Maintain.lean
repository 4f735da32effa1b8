import RelLang.Proofs.Grammar.Orderly
import RelLang.Proofs.Rule.Invariant

/-!
# Invariants and the calls of the grammar

What the two nonterminals have to maintain for a rule to maintain it, and why they do, however
deep it is nested: a group of bound values is called only in front of its opener, so text that is
nested too deeply is skipped from a token on that closes nothing.
-/

namespace RelLang.Grammar

open Rule

variable {setting : Setting} {enter : Nonterminal → State → Bool × State} {I : State → Prop}

/-- Expressions lead from states with the property to such states, and so do groups of bound values
in front of their opener. -/
def MaintainingCalls (I : State → Prop) (enter : Nonterminal → State → Bool × State) : Prop :=
  (∀ level, Maintains I (enter (.expression level))) ∧
    ∀ s, s.Valid → I s → s.kindAt 0 = some (.punct .lparen) → I (enter .boundGroup s).2

theorem MaintainingCalls.ofForall (h : ∀ symbol, Maintains I (enter symbol)) :
    MaintainingCalls I enter :=
  ⟨fun level => h (.expression level), fun s hs hI _ => h .boundGroup s hs hI⟩

/-- Groups of bound values are called only in front of their opener. -/
theorem kindAt_of_group {s : State}
    (h : BoundValueForm.ofTokens? (s.kindAt 0) (s.kindAt 1) = some .group) :
    s.kindAt 0 = some (.punct .lparen) := by
  unfold BoundValueForm.ofTokens? at h
  split at h <;> try split at h
  all_goals simp_all

theorem maintains_boundValue (hI : Invariant setting I) (henter : Steady enter)
    (hcalls : MaintainingCalls I enter) : Maintains I (boundValue.run setting enter) := by
  refine hI.node henter rfl fun s hs h => ?_
  simp only [run_bind, run_peek]
  split
  · exact hI.bump h
  · exact hI.bump (hI.bump h)
  · next hform => exact hcalls.2 s hs h (kindAt_of_group hform)
  · exact hI.elementary henter elementary_qualName.ignore s hs h
  · exact hI.report _ h

theorem maintains_optionDecl (hI : Invariant setting I) (henter : Steady enter) :
    Maintains I (optionDecl.run setting enter) :=
  hI.node henter rfl <| .bind henter (fun _ _ h => hI.bump h) fun _ =>
    .bind henter (.ofLooking fun _ => rfl) fun _ =>
    .bind henter (hI.elementary henter elementary_qualName.ignore) fun _ =>
    .bind henter (.ofLooking fun _ => rfl) fun _ =>
    .bind henter (hI.elementary henter elementary_optionValue) fun _ => .when hI.admitTemporal

/-- What text that is nested too deeply maintains, and what one level maintains if the next does, is
maintained however deep the text is nested. -/
theorem maintainingCalls_enter
    (hnested : ∀ (enter : Empty → State → Bool × State) (s : State) (kind : TokenKind), s.Valid →
      I s → s.kindAt 0 = some kind → kind.isCloser = false → I (skipNested.run setting enter s).2)
    (hbody : ∀ enter, Steady enter → MaintainingCalls I enter →
      MaintainingCalls I fun symbol => (language.body symbol).run setting enter) (levels : Nat) :
    MaintainingCalls I (language.enter setting levels) := by
  induction levels with
  | zero =>
    refine ⟨fun level s hs h => ?_, fun s hs h hk => ?_⟩
    · show I (expressionTooDeep.runAlone setting s).2
      simp only [expressionTooDeep, runAlone, run_bind, run_nthPasses, run_pure]
      cases hk : s.kindAt 0 with
      | none => exact h
      | some kind =>
        rw [Option.any_some]
        cases hstarts : Operator.startsExpr kind with
        | false => exact h
        | true => exact hnested _ s kind hs h hk (isCloser_of_startsExpr hstarts)
    · show I (boundGroupTooDeep.runAlone setting s).2
      simp only [boundGroupTooDeep, runAlone, run_bind, run_pure]
      exact hnested _ s _ hs h hk rfl
  | succ levels ih => exact hbody _ (language.steady_enter setting levels) ih

end RelLang.Grammar
