import RelLang.Proofs.Rule.Reach

/-!
# Looking and taking

What the small rules do, as equations. A test *sees* a token if it holds only in
front of one and leaves the state as it is; a rule *takes* a token if in front of
one it puts at least one into the tree.
-/

namespace RelLang

namespace State

variable {s t : State}

/-- The kind of a token ahead; the current token is number 0. -/
def kindAt (s : State) (n : Nat) : Option TokenKind := s.words[n]?.map (·.token.kind)

theorem kindAt_zero_eq_none : s.kindAt 0 = none ↔ s.words = [] := by
  simp [kindAt]

/-- Where there is a token ahead, there is a current one. -/
theorem kindAt_zero_ne_none {n : Nat} {k : TokenKind} (h : s.kindAt n = some k) :
    s.kindAt 0 ≠ none := by
  intro hw
  simp [kindAt, kindAt_zero_eq_none.mp hw] at h

theorem atRecoveryPoint_of_kindAt (h : s.kindAt 0 = none) : s.atRecoveryPoint = true := by
  simp [atRecoveryPoint, current?, kindAt_zero_eq_none.mp h]

theorem atRecoveryPoint_eq (s : State) :
    s.atRecoveryPoint = (s.kindAt 0).all fun k => s.contexts.any fun c => c.follow.contains k := by
  unfold atRecoveryPoint current? kindAt
  cases s.words <;> rfl

/-- Keeping a report touches nothing but the reports. -/
theorem keep_eq (setting : Setting) (r : Report) (s : State) :
    ∃ reports, s.keep setting r = { s with reports } := by
  unfold keep
  dsimp only
  split
  · exact ⟨s.reports, rfl⟩
  · exact ⟨_, rfl⟩

theorem report_eq (setting : Setting) (problem : Problem) (s : State) :
    ∃ reports, s.report setting problem = { s with reports } :=
  keep_eq setting _ s

/-- Without a cap every report is kept. -/
theorem reports_report {setting : Setting} (hkeep : setting.maxDiagnostics = none)
    (problem : Problem) (s : State) : (s.report setting problem).reports
      = ⟨problem, s.found, s.context, s.currentRange setting, s.words.isEmpty⟩ :: s.reports := by
  simp [report, keep, hkeep]

@[simp] theorem attachPending_reports (s : State) : s.attachPending.reports = s.reports := rfl

@[simp] theorem attachPending_kindAt (s : State) (n : Nat) :
    s.attachPending.kindAt n = s.kindAt n := rfl

theorem kindAt_bump (s : State) (n : Nat) : s.bump.kindAt n = s.kindAt (n + 1) := by
  cases hw : s.words with
  | nil =>
    rw [bump_of_words_eq_nil hw, attachPending_kindAt]
    simp [kindAt, hw]
  | cons w ws => simp [bump_of_words_eq_cons hw, kindAt, hw]

@[simp] theorem report_words (setting : Setting) (problem : Problem) (s : State) :
    (s.report setting problem).words = s.words := by
  obtain ⟨_, h⟩ := report_eq setting problem s
  rw [h]

/-- What a rule reaches has no more tokens left. -/
theorem Reaches.left_le (h : s.Reaches t) (hs : s.Valid) : t.left ≤ s.left := by
  rw [(h.valid hs).left_eq, hs.left_eq]
  exact h.rest.length_le

theorem left_bump_lt (hs : s.Valid) (hk : s.kindAt 0 ≠ none) : s.bump.left < s.left := by
  obtain ⟨w, ws, hw⟩ := List.exists_cons_of_ne_nil fun h => hk (kindAt_zero_eq_none.mpr h)
  have hl := hs.left_eq
  simp only [rest, hw, Word.tokens_cons, List.length_append, List.length_cons] at hl
  rw [bump_of_words_eq_cons hw]
  show s.left - s.pending.length - 1 < s.left
  omega

/-- If the number of tokens left is the same, no word was taken. -/
theorem Reaches.words_eq_of_left_eq (h : s.Reaches t) (hs : s.Valid) (hl : t.left = s.left) :
    t.words = s.words := by
  have hr : t.rest = s.rest := by
    refine h.rest.eq_of_length ?_
    rw [← hs.left_eq, ← (h.valid hs).left_eq, hl]
  refine h.words.eq_of_length ?_
  have hf := congrArg (fun ts => (ts.filter (·.kind.isSignificant)).length) hr
  simpa only [hs.filter_rest, (h.valid hs).filter_rest, List.length_map] using hf

/-- What begins where nothing is pending begins with a token that the grammar sees. -/
theorem Reaches.siblings_ne_invalid (h : s.Reaches t) (hs : s.Valid) (hempty : s.siblings = [])
    (hpending : s.pending = []) (text : String) :
    t.siblings.reverse ≠ [.token .invalid text] := by
  intro heq
  have hleaves := h.leaves
  rw [State.leaves, State.leaves, hempty, heq, State.rest, State.rest, hpending] at hleaves
  cases hw : s.words with
  | nil =>
    rw [hw] at hleaves
    cases hleaves
  | cons w ws =>
    rw [hw, List.nil_append, Word.tokens_cons] at hleaves
    have hkind : TokenKind.invalid = w.token.kind := congrArg Prod.fst (List.cons.inj hleaves).1
    have hsig := hs.token w (by rw [hw]; exact List.mem_cons_self)
    rw [← hkind] at hsig
    cases hsig

end State

namespace Rule

variable {ν α β : Type} {setting : Setting} {enter : ν → State → Bool × State}

/-! ### Equations -/

-- `rfl` is in parentheses so that `simp` rewrites with these: a definitional step would be checked
-- by evaluating the run.

@[simp] theorem run_pure (a : α) (s : State) :
    (pure a : Rule ν α).run setting enter s = (a, s) := (rfl)

@[simp] theorem run_done (a : α) (s : State) :
    (Rule.done a : Rule ν α).run setting enter s = (a, s) := (rfl)

@[simp] theorem run_bind (first : Rule ν α) (next : α → Rule ν β) (s : State) :
    (first >>= next).run setting enter s
      = (next (first.run setting enter s).1).run setting enter (first.run setting enter s).2 :=
  (rfl)

@[simp] theorem run_andThen (first : Rule ν α) (next : α → Rule ν β) (s : State) :
    (Rule.andThen first next).run setting enter s
      = (next (first.run setting enter s).1).run setting enter (first.run setting enter s).2 :=
  (rfl)

@[simp] theorem run_bump (s : State) :
    (Rule.bump : Rule ν Unit).run setting enter s = ((), s.bump) := (rfl)

@[simp] theorem run_report (problem : Problem) (s : State) :
    (Rule.report problem : Rule ν Unit).run setting enter s
      = ((), s.report setting problem) := (rfl)

@[simp] theorem run_peek (n : Nat) (s : State) :
    (Rule.peek n : Rule ν _).run setting enter s = (s.kindAt n, s) := (rfl)

@[simp] theorem run_ahead (test : List TokenKind → Bool) (s : State) :
    (Rule.ahead test : Rule ν Bool).run setting enter s = (test s.kinds, s) := (rfl)

@[simp] theorem run_atRecoveryPoint (s : State) :
    (Rule.atRecoveryPoint : Rule ν Bool).run setting enter s = (s.atRecoveryPoint, s) := (rfl)

@[simp] theorem run_progress (body : Rule ν α) (s : State) :
    (Rule.progress body).run setting enter s
      = (((body.run setting enter s).1, (body.run setting enter s).2.left != s.left),
        (body.run setting enter s).2) := (rfl)

@[simp] theorem run_call (symbol : ν) (s : State) :
    (Rule.call symbol).run setting enter s = enter symbol s := (rfl)

theorem run_within (context : Context) (body : Rule ν α) (s : State) :
    (Rule.within context body).run setting enter s
      = ((body.run setting enter { s with contexts := context :: s.contexts }).1,
        { (body.run setting enter { s with contexts := context :: s.contexts }).2 with
          contexts :=
            (body.run setting enter { s with contexts := context :: s.contexts }).2.contexts.tail }) :=
  (rfl)

theorem run_node (kind : NodeKind) (body : Rule ν α) (s : State) :
    (Rule.node kind body).run setting enter s
      = ((body.run setting enter { s.attachPending with siblings := [] }).1,
        { (body.run setting enter { s.attachPending with siblings := [] }).2 with
          siblings := .node kind
            (body.run setting enter { s.attachPending with siblings := [] }).2.siblings.reverse
              :: s.attachPending.siblings }) := (rfl)

theorem run_enclose (kind : NodeKind) (body : Rule ν α) (s : State) :
    (Rule.enclose kind body).run setting enter s
      = ((body.run setting enter s).1,
        { (body.run setting enter s).2 with
          siblings := [.node kind (body.run setting enter s).2.siblings.reverse] }) := (rfl)

@[simp] theorem run_ignore (rule : Rule ν α) (s : State) :
    (ignore rule).run setting enter s = ((), (rule.run setting enter s).2) := (rfl)

@[simp] theorem run_ite (c : Prop) [Decidable c] (yes no : Rule ν α) (s : State) :
    (if c then yes else no).run setting enter s
      = if c then yes.run setting enter s else no.run setting enter s := by
  split <;> rfl

theorem run_when (condition : Bool) (rule : Rule ν Unit) (s : State) :
    (when condition rule).run setting enter s
      = if condition then rule.run setting enter s else ((), s) := by
  cases condition <;> rfl

@[simp] theorem run_when_true (rule : Rule ν Unit) (s : State) :
    (when true rule).run setting enter s = rule.run setting enter s := (rfl)

@[simp] theorem run_when_false (rule : Rule ν Unit) (s : State) :
    (when false rule).run setting enter s = ((), s) := (rfl)

@[simp] theorem run_nthIs (n : Nat) (kind : TokenKind) (s : State) :
    (nthIs n kind : Rule ν Bool).run setting enter s = (s.kindAt n == some kind, s) := (rfl)

@[simp] theorem run_currentIs (kind : TokenKind) (s : State) :
    (currentIs kind : Rule ν Bool).run setting enter s = (s.kindAt 0 == some kind, s) := (rfl)

@[simp] theorem run_nthPasses (n : Nat) (test : TokenKind → Bool) (s : State) :
    (nthPasses n test : Rule ν Bool).run setting enter s = ((s.kindAt n).any test, s) := (rfl)

@[simp] theorem run_currentIn (kinds : List TokenKind) (s : State) :
    (currentIn kinds : Rule ν Bool).run setting enter s = ((s.kindAt 0).any kinds.contains, s) :=
  (rfl)

@[simp] theorem run_atEnd (s : State) :
    (atEnd : Rule ν Bool).run setting enter s = ((s.kindAt 0).isNone, s) := (rfl)

theorem run_eat (kind : TokenKind) (s : State) :
    (eat kind : Rule ν Bool).run setting enter s
      = if s.kindAt 0 == some kind then (true, s.bump) else (false, s) := by
  cases h : s.kindAt 0 == some kind <;> simp [eat, h]

theorem run_andAlso (first second : Rule ν Bool) (s : State) :
    (andAlso first second).run setting enter s
      = if (first.run setting enter s).1 then second.run setting enter (first.run setting enter s).2
        else (false, (first.run setting enter s).2) := by
  cases h : (first.run setting enter s).1 <;> simp [andAlso, h]

theorem run_orElse (first second : Rule ν Bool) (s : State) :
    (orElse first second).run setting enter s
      = if (first.run setting enter s).1 then (true, (first.run setting enter s).2)
        else second.run setting enter (first.run setting enter s).2 := by
  cases h : (first.run setting enter s).1 <;> simp [orElse, h]

/-! ### Tests that leave the state as it is -/

theorem run_andAlso_look {first second : Rule ν Bool} {s : State} {a b : Bool}
    (hfirst : first.run setting enter s = (a, s)) (hsecond : second.run setting enter s = (b, s)) :
    (andAlso first second).run setting enter s = (a && b, s) := by
  rw [run_andAlso, hfirst]
  cases a with
  | true => exact hsecond
  | false => rfl

theorem run_orElse_look {first second : Rule ν Bool} {s : State} {a b : Bool}
    (hfirst : first.run setting enter s = (a, s)) (hsecond : second.run setting enter s = (b, s)) :
    (orElse first second).run setting enter s = (a || b, s) := by
  rw [run_orElse, hfirst]
  cases a with
  | true => rfl
  | false => exact hsecond

/-! ### Tests that see a token -/

/-- A test that leaves the state as it is and holds only in front of a token. -/
def Sees (setting : Setting) (enter : ν → State → Bool × State) (test : Rule ν Bool) : Prop :=
  ∀ s, (test.run setting enter s).2 = s ∧
    ((test.run setting enter s).1 = true → s.kindAt 0 ≠ none)

theorem sees_nthPasses (n : Nat) (test : TokenKind → Bool) :
    Sees setting enter (nthPasses n test : Rule ν Bool) := by
  intro s
  refine ⟨rfl, fun h => ?_⟩
  cases hk : s.kindAt n with
  | none =>
    rw [run_nthPasses, hk] at h
    cases h
  | some k => exact State.kindAt_zero_ne_none hk

theorem sees_nthIs (n : Nat) (kind : TokenKind) :
    Sees setting enter (nthIs n kind : Rule ν Bool) := by
  intro s
  exact ⟨rfl, fun h => State.kindAt_zero_ne_none (eq_of_beq h)⟩

theorem sees_currentIs (kind : TokenKind) :
    Sees setting enter (currentIs kind : Rule ν Bool) := sees_nthIs 0 kind

theorem sees_currentIn (kinds : List TokenKind) :
    Sees setting enter (currentIn kinds : Rule ν Bool) := sees_nthPasses 0 kinds.contains

/-- The first of two tests sees the token, the second may be any that only looks. -/
theorem Sees.andAlso {first second : Rule ν Bool} (h₁ : Sees setting enter first)
    (h₂ : ∀ s, (second.run setting enter s).2 = s) :
    Sees setting enter (Rule.andAlso first second) := by
  intro s
  rw [run_andAlso, (h₁ s).1]
  split
  · next h => exact ⟨h₂ s, fun _ => (h₁ s).2 h⟩
  · exact ⟨rfl, fun h => nomatch h⟩

end Rule
end RelLang
