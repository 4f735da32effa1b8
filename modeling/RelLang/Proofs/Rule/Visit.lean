import RelLang.Proofs.Rule.Look

/-!
# Where rules lead

Following a rule from a state comes to its parts, each in a state of its own. What is to be shown
of every place that a reading comes to is shown part by part, as a rule is put together; and every
report that a run makes is made by a part that it comes to.
-/

namespace RelLang

/-- A loop has gone round some times, and each round has asked for another. -/
inductive Rounds {σ : Type} (step : σ → State → (σ × Bool) × State) (a : σ) (s : State) :
    σ → State → Prop where
  | start : Rounds step a s a s
  | more {b : σ} {t : State} (h : Rounds step a s b t) (hmore : (step b t).1.2 = true) :
    Rounds step a s (step b t).1.1 (step b t).2

/-- Following the rule from the first state comes to a part of the rule in the second state. The
rule itself counts as a part; what is done inside a call does not. -/
inductive Rule.Visits {ν : Type} (setting : Setting) (enter : ν → State → Bool × State) :
    {α β : Type} → Rule ν α → State → Rule ν β → State → Prop where
  | here {α : Type} (rule : Rule ν α) (s : State) : Visits setting enter rule s rule s
  | first {α β γ : Type} {first : Rule ν α} {next : α → Rule ν β} {part : Rule ν γ} {s t : State}
    (h : Visits setting enter first s part t) : Visits setting enter (.andThen first next) s part t
  | next {α β γ : Type} {first : Rule ν α} {next : α → Rule ν β} {part : Rule ν γ} {s t : State}
    (h : Visits setting enter (next (first.run setting enter s).1) (first.run setting enter s).2
      part t) : Visits setting enter (.andThen first next) s part t
  | node {α β : Type} {kind : NodeKind} {body : Rule ν α} {part : Rule ν β} {s t : State}
    (h : Visits setting enter body { s.attachPending with siblings := [] } part t) :
    Visits setting enter (.node kind body) s part t
  | group {α β : Type} {body : Rule ν α} {part : Rule ν β} {s t : State}
    (h : Visits setting enter body { s.attachPending with siblings := [] } part t) :
    Visits setting enter (.group body) s part t
  | enclose {α β : Type} {kind : NodeKind} {body : Rule ν α} {part : Rule ν β} {s t : State}
    (h : Visits setting enter body s part t) : Visits setting enter (.enclose kind body) s part t
  | within {α β : Type} {context : Context} {body : Rule ν α} {part : Rule ν β} {s t : State}
    (h : Visits setting enter body { s with contexts := context :: s.contexts } part t) :
    Visits setting enter (.within context body) s part t
  | progress {α β : Type} {body : Rule ν α} {part : Rule ν β} {s t : State}
    (h : Visits setting enter body s part t) : Visits setting enter (.progress body) s part t
  | loop {σ β : Type} {a b : σ} {body : σ → Rule ν (σ × Bool)} {part : Rule ν β} {s t u : State}
    (hrounds : Rounds (fun a t => (body a).run setting enter t) a s b t)
    (h : Visits setting enter (body b) t part u) : Visits setting enter (.loop a body) s part u

namespace Rule

variable {ν α β γ σ : Type} {setting : Setting} {enter : ν → State → Bool × State}
variable {rule : Rule ν α} {part : Rule ν β} {s t u : State}

theorem Visits.trans {last : Rule ν γ} (h : Visits setting enter rule s part t)
    (h' : Visits setting enter part t last u) : Visits setting enter rule s last u := by
  induction h with
  | here => exact h'
  | first _ ih => exact .first (ih h')
  | next _ ih => exact .next (ih h')
  | node _ ih => exact .node (ih h')
  | group _ ih => exact .group (ih h')
  | enclose _ ih => exact .enclose (ih h')
  | within _ ih => exact .within (ih h')
  | progress _ ih => exact .progress (ih h')
  | loop hrounds _ ih => exact .loop hrounds (ih h')

/-- Behind rounds the state is valid, as rounds reach it. -/
theorem valid_of_rounds (henter : Steady enter) {body : σ → Rule ν (σ × Bool)} {a b : σ}
    (h : Rounds (fun a t => (body a).run setting enter t) a s b t) (hs : s.Valid) : t.Valid := by
  induction h with
  | start => exact hs
  | more _ _ ih => exact (reaches_run setting henter _ _).valid ih

/-- Every state that a rule leads to is valid. -/
theorem Visits.valid (henter : Steady enter) (h : Visits setting enter rule s part t)
    (hs : s.Valid) : t.Valid := by
  induction h with
  | here => exact hs
  | first _ ih => exact ih hs
  | next _ ih => exact ih ((reaches_run setting henter _ _).valid hs)
  | node _ ih => exact ih hs.opened
  | group _ ih => exact ih hs.opened
  | enclose _ ih => exact ih hs
  | within _ ih => exact ih (hs.of_eq rfl rfl rfl)
  | progress _ ih => exact ih hs
  | loop hrounds _ ih => exact ih (valid_of_rounds henter hrounds hs)

/-! ### Part by part -/

/-- The part is in the rule, and not the rule itself. -/
def VisitsBelow (setting : Setting) (enter : ν → State → Bool × State) {α : Type}
    (rule : Rule ν α) (s : State) {β : Type} (part : Rule ν β) (t : State) : Prop :=
  match rule with
  | .andThen first next => Visits setting enter first s part t ∨
    Visits setting enter (next (first.run setting enter s).1) (first.run setting enter s).2 part t
  | .node _ body | .group body =>
    Visits setting enter body { s.attachPending with siblings := [] } part t
  | .enclose _ body | .progress body => Visits setting enter body s part t
  | .within context body =>
    Visits setting enter body { s with contexts := context :: s.contexts } part t
  | .loop a body => ∃ b u, Rounds (fun a t => (body a).run setting enter t) a s b u ∧
    Visits setting enter (body b) u part t
  | _ => False

/-- What holds of the rule itself and of all that is below it holds of all parts. -/
theorem Visits.elim (holds : {β : Type} → Rule ν β → State → Prop)
    (h : Visits setting enter rule s part t) (hhere : holds rule s)
    (hbelow : VisitsBelow setting enter rule s part t → holds part t) : holds part t := by
  cases h with
  | here => exact hhere
  | first h => exact hbelow (.inl h)
  | next h => exact hbelow (.inr h)
  | node h => exact hbelow h
  | group h => exact hbelow h
  | enclose h => exact hbelow h
  | within h => exact hbelow h
  | progress h => exact hbelow h
  | loop hrounds h => exact hbelow ⟨_, _, hrounds, h⟩

/-! ### Reports -/

/-- A report that was made by a part of the rule, or inside a call. -/
def Made (setting : Setting) (enter : ν → State → Bool × State) (r : Report) (rule : Rule ν α)
    (s : State) : Prop :=
  (∃ t, Visits setting enter rule s (.report r.problem) t) ∨ r.problem = .temporalDisabled ∨
  ∃ symbol t, Visits setting enter rule s (.call symbol) t ∧ r ∉ t.reports ∧
    r ∈ (enter symbol t).2.reports

variable {r : Report}

/-- A report that a part has made the rule has made. -/
theorem Made.of_visits (hvisits : Visits setting enter rule s part t)
    (h : Made setting enter r part t) : Made setting enter r rule s := by
  rcases h with ⟨u, h⟩ | hproblem | ⟨symbol, u, h, hnew, hmade⟩
  · exact .inl ⟨u, hvisits.trans h⟩
  · exact .inr (.inl hproblem)
  · exact .inr (.inr ⟨symbol, u, hvisits.trans h, hnew, hmade⟩)

theorem mem_reports_keep {kept : Report} (h : r ∈ (s.keep setting kept).reports) :
    r = kept ∨ r ∈ s.reports := by
  unfold State.keep at h
  dsimp only at h
  split at h
  · exact .inr h
  · exact List.mem_cons.mp h

/-- A report in a state that a loop ends in was there before, or a round has made it. -/
theorem made_iterate {body : σ → Rule ν (σ × Bool)} {a : σ}
    (hbody : ∀ a s, r ∈ ((body a).run setting enter s).2.reports →
      r ∈ s.reports ∨ Made setting enter r (body a) s)
    (rounds : Nat) {b : σ} {t : State}
    (hcome : Rounds (fun a t => (body a).run setting enter t) a s b t)
    (h : r ∈ (iterate (fun a t => (body a).run setting enter t) rounds b t).2.reports) :
    r ∈ t.reports ∨ Made setting enter r (.loop a body) s := by
  induction rounds generalizing b t with
  | zero => exact .inl h
  | succ rounds ih =>
    have hround (h : r ∈ ((body b).run setting enter t).2.reports) :
        r ∈ t.reports ∨ Made setting enter r (.loop a body) s :=
      (hbody b t h).imp_right fun hmade => hmade.of_visits (.loop hcome (.here _ _))
    unfold iterate at h
    dsimp only at h
    split at h
    · next hmore =>
      rcases ih (hcome.more hmore) h with h | hmade
      · exact hround h
      · exact .inr hmade
    · exact hround h

/-- A report that is there behind a rule was there before, or a part of the rule has made it. -/
theorem made_run (rule : Rule ν α) (h : r ∈ (rule.run setting enter s).2.reports) :
    r ∈ s.reports ∨ Made setting enter r rule s := by
  induction rule generalizing s with
  | andThen first next ih₁ ih₂ =>
    rcases ih₂ _ h with h | hmade
    · exact (ih₁ h).imp_right (·.of_visits (.first (.here _ _)))
    · exact .inr (hmade.of_visits (.next (.here _ _)))
  | bump =>
    cases hw : s.words with
    | nil =>
      rw [run_bump, State.bump_of_words_eq_nil hw] at h
      exact .inl h
    | cons w ws =>
      rw [run_bump, State.bump_of_words_eq_cons hw] at h
      exact .inl h
  | node kind body ih =>
    exact (ih (s := { s.attachPending with siblings := [] }) h).imp_right
      (·.of_visits (.node (.here _ _)))
  | group body ih =>
    exact (ih (s := { s.attachPending with siblings := [] }) h).imp_right
      (·.of_visits (.group (.here _ _)))
  | enclose kind body ih => exact (ih h).imp_right (·.of_visits (.enclose (.here _ _)))
  | within context body ih =>
    exact (ih (s := { s with contexts := context :: s.contexts }) h).imp_right
      (·.of_visits (.within (.here _ _)))
  | report problem =>
    rcases mem_reports_keep h with rfl | h
    · exact .inr (.inl ⟨s, .here _ _⟩)
    · exact .inl h
  | requireTemporal =>
    rw [run] at h
    split at h
    · exact .inl h
    · rcases mem_reports_keep h with rfl | h
      · exact .inr (.inr (.inl rfl))
      · exact .inl h
  | admitTemporal =>
    rw [run] at h
    split at h <;> exact .inl h
  | progress body ih => exact (ih h).imp_right (·.of_visits (.progress (.here _ _)))
  | loop a body ih => exact made_iterate (fun a _ h => ih a h) _ .start h
  | call symbol =>
    by_cases hold : r ∈ s.reports
    · exact .inl hold
    · exact .inr (.inr (.inr ⟨symbol, s, .here _ _, hold, h⟩))
  | _ => exact .inl h

end Rule

/-! ### Through calls -/

namespace Grammar

open Rule

variable {ν : Type}

/-- Following the rule from the state, with some levels left, comes to a part of it or of a
nonterminal that it calls, with the levels that are left there. -/
inductive Comes (g : Grammar ν) (setting : Setting) {α : Type} (levels : Nat) (rule : Rule ν α)
    (s : State) : {β : Type} → Nat → Rule ν β → State → Prop where
  | inside {β : Type} {part : Rule ν β} {t : State}
    (h : Visits setting (g.enter setting levels) rule s part t) :
    Comes g setting levels rule s levels part t
  | deeper {β : Type} {n : Nat} {symbol : ν} {part : Rule ν β} {t u : State}
    (h : Comes g setting levels rule s (n + 1) (.call symbol) t)
    (h' : Visits setting (g.enter setting n) (g.body symbol) t part u) :
    Comes g setting levels rule s n part u

/-- Following the rule comes to a call with no level left, and then to a part of what is done past
the last level. -/
def ComesBeyond (g : Grammar ν) (setting : Setting) {α : Type} (levels : Nat) (rule : Rule ν α)
    (s : State) {β : Type} (part : Rule Empty β) (u : State) : Prop :=
  ∃ symbol t, g.Comes setting levels rule s 0 (.call symbol) t ∧
    Visits setting nofun (g.beyond symbol) t part u

variable {g : Grammar ν} {setting : Setting} {α β : Type} {levels n m : Nat} {rule : Rule ν α}
  {part : Rule ν β} {s t u : State}

/-- A call comes to what its nonterminal comes to, one level deeper. -/
theorem Comes.call {symbol : ν} (h : g.Comes setting levels rule s (n + 1) (.call symbol) t)
    (h' : g.Comes setting n (g.body symbol) t m part u) :
    g.Comes setting levels rule s m part u := by
  induction h' with
  | inside h' => exact .deeper h h'
  | deeper _ h' ih => exact .deeper ih h'

theorem Comes.valid (h : g.Comes setting levels rule s n part t) (hs : s.Valid) : t.Valid := by
  induction h with
  | inside h => exact h.valid (g.steady_enter setting _) hs
  | deeper _ h' ih => exact h'.valid (g.steady_enter setting _) ih

theorem ComesBeyond.valid {part : Rule Empty β} (h : g.ComesBeyond setting levels rule s part u)
    (hs : s.Valid) : u.Valid := by
  obtain ⟨symbol, t, hcall, hvisits⟩ := h
  exact hvisits.valid (steady_of_empty _) (hcall.valid hs)

/-- A report that is there behind a rule was there before, is about a temporal construct, or was
made by a part that following the rule comes to. -/
theorem comes_of_mem_reports {r : Report} (rule : Rule ν α)
    (h : r ∈ (rule.run setting (g.enter setting levels) s).2.reports) :
    r ∈ s.reports ∨ r.problem = .temporalDisabled ∨
      (∃ n t, g.Comes setting levels rule s n (.report r.problem) t) ∨
      ∃ t, g.ComesBeyond setting levels rule s (.report r.problem) t := by
  induction levels generalizing α rule s with
  | zero =>
    rcases made_run rule h with h | ⟨t, h⟩ | hproblem | ⟨symbol, t, hcall, hnew, hmade⟩
    · exact .inl h
    · exact .inr (.inr (.inl ⟨0, t, .inside h⟩))
    · exact .inr (.inl hproblem)
    · -- past the last level nothing is called
      rcases made_run (g.beyond symbol) hmade with h | ⟨u, h⟩ | hproblem | ⟨symbol, -⟩
      · exact absurd h hnew
      · exact .inr (.inr (.inr ⟨u, symbol, t, .inside hcall, h⟩))
      · exact .inr (.inl hproblem)
      · exact symbol.elim
  | succ levels ih =>
    rcases made_run rule h with h | ⟨t, h⟩ | hproblem | ⟨symbol, t, hcall, hnew, hmade⟩
    · exact .inl h
    · exact .inr (.inr (.inl ⟨levels + 1, t, .inside h⟩))
    · exact .inr (.inl hproblem)
    · rcases ih (g.body symbol) hmade with h | hproblem | ⟨n, u, h⟩ | ⟨u, last, v, h, hvisits⟩
      · exact absurd h hnew
      · exact .inr (.inl hproblem)
      · exact .inr (.inr (.inl ⟨n, u, .call (.inside hcall) h⟩))
      · exact .inr (.inr (.inr ⟨u, last, v, .call (.inside hcall) h, hvisits⟩))

end Grammar
end RelLang
