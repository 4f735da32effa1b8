import RelLang.Proofs.Grammar.Foresight
import RelLang.Proofs.Parse.Lossless

/-!
# Where the reading of a text comes

The rules that are followed while a text is read, each with the state that it is followed in and
the levels of nesting that are left there, and the states that the reading goes through. All of
them are valid, the tokens are ahead there that the rules need, and every report of a reading is
made by a rule that it comes to.
-/

namespace RelLang.Parse

open Grammar Rule

/-- Reading the tokens comes to the rule in the state, with some levels left. -/
def ComesTo (config : ParseConfig) (entry : Entry) (tokens : List Token) {α : Type} (levels : Nat)
    (rule : Rule Nonterminal α) (s : State) : Prop :=
  Grammar.language.Comes (setting config tokens) nestingLimit entry.rule (start config tokens)
    levels rule s

/-- Reading the tokens comes, past the last level, to the rule in the state. -/
def ComesBeyond (config : ParseConfig) (entry : Entry) (tokens : List Token) {α : Type}
    (rule : Rule Empty α) (s : State) : Prop :=
  Grammar.language.ComesBeyond (setting config tokens) nestingLimit entry.rule
    (start config tokens) rule s

/-- The states that the reading goes through, with the levels that are left there: those in front
of the rules that are followed, and those behind them. -/
inductive Reached (config : ParseConfig) (entry : Entry) (tokens : List Token) :
    Nat → State → Prop where
  | before {α : Type} {levels : Nat} {rule : Rule Nonterminal α} {s : State}
    (h : ComesTo config entry tokens levels rule s) : Reached config entry tokens levels s
  | behind {α : Type} {levels : Nat} {rule : Rule Nonterminal α} {s : State}
    (h : ComesTo config entry tokens levels rule s) :
    Reached config entry tokens levels
      (rule.run (setting config tokens) (Grammar.language.enter (setting config tokens) levels) s).2
  | beforeBeyond {α : Type} {rule : Rule Empty α} {s : State}
    (h : ComesBeyond config entry tokens rule s) : Reached config entry tokens 0 s
  | behindBeyond {α : Type} {rule : Rule Empty α} {s : State}
    (h : ComesBeyond config entry tokens rule s) :
    Reached config entry tokens 0 (rule.runAlone (setting config tokens) s).2

variable {config : ParseConfig} {entry : Entry} {tokens : List Token} {α : Type} {levels : Nat}
  {s : State}

theorem ComesTo.valid {rule : Rule Nonterminal α} (h : ComesTo config entry tokens levels rule s) :
    s.Valid :=
  Comes.valid h (valid_start config tokens)

theorem ComesBeyond.valid {rule : Rule Empty α} (h : ComesBeyond config entry tokens rule s) :
    s.Valid :=
  Grammar.ComesBeyond.valid h (valid_start config tokens)

/-- Wherever the reading comes, the tokens are ahead that are needed there. -/
theorem ComesTo.foreseen {rule : Rule Nonterminal α}
    (h : ComesTo config entry tokens levels rule s) :
    Foreseen callable rule s :=
  foreseen_of_comes (foresighted_entry entry) h

theorem ComesBeyond.foreseen {rule : Rule Empty α} (h : ComesBeyond config entry tokens rule s) :
    Foreseen (fun _ _ => false) rule s :=
  foreseen_of_comesBeyond (foresighted_entry entry) h

/-- What the reading goes through is valid. -/
theorem Reached.valid (h : Reached config entry tokens levels s) : s.Valid := by
  cases h with
  | before h => exact h.valid
  | behind h => exact valid_run _ (Grammar.language.steady_enter _ _) _ h.valid
  | beforeBeyond h => exact h.valid
  | behindBeyond h => exact valid_run _ (steady_of_empty _) _ h.valid

/-- The reading begins where it starts. -/
theorem reached_start (config : ParseConfig) (entry : Entry) (tokens : List Token) :
    Reached config entry tokens nestingLimit (start config tokens) :=
  .before (.inside (.here entry.rule _))

/-- Every report that is not made before the first token is read, and that is about no temporal
construct, is made by a part of the grammar that the reading comes to. -/
theorem comesTo_of_mem_reports {r : Report} (h : r ∈ (ofTokens config entry tokens).reports) :
    r ∈ (start config tokens).reports ∨ r.problem = .temporalDisabled ∨
      (∃ levels s, ComesTo config entry tokens levels (.report r.problem) s) ∨
      ∃ s, ComesBeyond config entry tokens (.report r.problem) s :=
  comes_of_mem_reports entry.rule (by simpa [reports_ofTokens, final] using h)

end RelLang.Parse
