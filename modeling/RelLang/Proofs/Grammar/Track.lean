import RelLang.Proofs.Grammar.Ending
import RelLang.Proofs.Grammar.Guarded
import RelLang.Proofs.Parse.Lossless

/-!
# Readings that differ in what they say

The reports made so far and whether temporal constructs are admitted are the *voice* of a
reading. Nothing that a rule takes, puts into the tree or decides depends on it. So two
readings of one text that start with different voices, or under settings that let them
speak differently, go the same way. How their voices are related is kept from step to step,
if one word taken and one report made keep it.
-/

namespace RelLang

/-- What reading does not depend on. -/
structure Voice where
  reports : List Report
  temporal : Bool

namespace State

def voice (s : State) : Voice := ⟨s.reports, s.temporal⟩

/-- The state with another voice. -/
def speak (s : State) (v : Voice) : State := { s with reports := v.reports, temporal := v.temporal }

@[simp] theorem speak_voice (s : State) : s.speak s.voice = s := rfl

@[simp] theorem voice_speak (s : State) (v : Voice) : (s.speak v).voice = v := rfl

@[simp] theorem words_speak (s : State) (v : Voice) : (s.speak v).words = s.words := rfl

/-- The state behind a temporal construct. -/
def require (setting : Setting) (s : State) : State :=
  if s.temporal then s else s.report setting .temporalDisabled

/-- The state behind an option that asks for temporal constructs. -/
def allow (setting : Setting) (s : State) : State :=
  if setting.mode = .fromLanguageLine then { s with temporal := true } else s

theorem require_of_admitted {s : State} (h : s.temporal = true) (setting : Setting) :
    s.require setting = s :=
  if_pos h

theorem require_of_not_admitted {s : State} (h : s.temporal = false) (setting : Setting) :
    s.require setting = s.report setting .temporalDisabled :=
  if_neg (Bool.eq_false_iff.mp h)

theorem speak_attachPending (s : State) (v : Voice) :
    (s.speak v).attachPending = s.attachPending.speak v := rfl

theorem speak_bump (s : State) (v : Voice) : (s.speak v).bump = s.bump.speak v := by
  cases hw : s.words with
  | nil =>
    rw [bump_of_words_eq_nil hw, bump_of_words_eq_nil (s := s.speak v) hw]
    rfl
  | cons w ws =>
    rw [bump_of_words_eq_cons hw, bump_of_words_eq_cons (s := s.speak v) hw]
    rfl

theorem voice_bump (s : State) : s.bump.voice = s.voice := by
  cases hw : s.words with
  | nil =>
    rw [bump_of_words_eq_nil hw]
    rfl
  | cons w ws =>
    rw [bump_of_words_eq_cons hw]
    rfl

/-- Without a cap, every report is kept. -/
theorem keep_of_uncapped {setting : Setting} (h : setting.maxDiagnostics = none) (r : Report)
    (s : State) : s.keep setting r = { s with reports := r :: s.reports } := by
  simp [keep, h]

theorem report_of_uncapped {setting : Setting} (h : setting.maxDiagnostics = none)
    (problem : Problem) (s : State) :
    s.report setting problem = { s with
      reports := { problem, found := s.found, context := s.context
                   range := s.currentRange setting, fatal := s.words.isEmpty } :: s.reports } :=
  keep_of_uncapped h _ s

theorem speak_keep (setting setting' : Setting) (r r' : Report) (s : State) (v : Voice) :
    (s.speak v).keep setting' r'
      = (s.keep setting r).speak ((s.speak v).keep setting' r').voice := by
  obtain ⟨_, h⟩ := keep_eq setting r s
  obtain ⟨_, h'⟩ := keep_eq setting' r' (s.speak v)
  rw [h, h']
  rfl

theorem speak_report (setting setting' : Setting) (problem : Problem) (s : State) (v : Voice) :
    (s.speak v).report setting' problem
      = (s.report setting problem).speak ((s.speak v).report setting' problem).voice :=
  speak_keep ..

end State

namespace Rule

variable {ν α β σ : Type} {setting setting' : Setting} {enter enter' : ν → State → Bool × State}
  {R R₁ R₂ : List Word → Voice → Voice → Prop}

/-- From states with voices related in the first way, the second run does what the first one does,
and leaves voices related in the second way. -/
def Follows (R₁ R₂ : List Word → Voice → Voice → Prop) (run run' : State → α × State) : Prop :=
  ∀ s v, R₁ s.words s.voice v → ∃ v', run' (s.speak v) = ((run s).1, (run s).2.speak v') ∧
    R₂ (run s).2.words (run s).2.voice v'

/-- A relation of voices, at the words to come, that survives the taking of words and the reports
of rules. -/
structure Tracking (setting setting' : Setting) (R : List Word → Voice → Voice → Prop) : Prop where
  stop : setting'.stop = setting.stop
  taken : ∀ {ws vs : List Word} {v v' : Voice}, vs <:+ ws → R ws v v' → R vs v v'
  reported : ∀ {s : State} {v : Voice} {problem : Problem}, problem.ofRule = true →
    R s.words s.voice v →
    R s.words (s.report setting problem).voice ((s.speak v).report setting' problem).voice

namespace Follows

theorem mono {run run' : State → α × State} (h : Follows R₁ R₂ run run')
    {R₁' R₂' : List Word → Voice → Voice → Prop} (hpre : ∀ ws v v', R₁' ws v v' → R₁ ws v v')
    (hpost : ∀ ws v v', R₂ ws v v' → R₂' ws v v') : Follows R₁' R₂' run run' := by
  intro s v hv
  obtain ⟨v', hrun, hv'⟩ := h s v (hpre _ _ _ hv)
  exact ⟨v', hrun, hpost _ _ _ hv'⟩

theorem ofState {f f' : State → State}
    (h : ∀ s v, R₁ s.words s.voice v →
      ∃ v', f' (s.speak v) = (f s).speak v' ∧ R₂ (f s).words (f s).voice v') :
    Follows R₁ R₂ (fun s => ((), f s)) fun s => ((), f' s) := by
  intro s v hv
  obtain ⟨v', heq, hv'⟩ := h s v hv
  exact ⟨v', congrArg ((), ·) heq, hv'⟩

/-- What only looks, and sees the same whatever the voice is. -/
theorem ofLooking {run run' : State → α × State} (hrun : ∀ s, (run s).2 = s)
    (hrun' : ∀ s v, run' (s.speak v) = ((run s).1, s.speak v)) : Follows R R run run' := by
  intro s v h
  rw [hrun]
  exact ⟨v, hrun' s v, h⟩

theorem bump (hR : Tracking setting setting' R) :
    Follows R R (Rule.bump.run setting enter) (Rule.bump.run setting' enter') := by
  intro s v h
  refine ⟨v, ?_, ?_⟩
  · rw [run_bump, run_bump, State.speak_bump]
  · rw [run_bump, State.voice_bump]
    exact hR.taken (State.reaches_bump s).words h

theorem bind {first : Rule ν α} {next : α → Rule ν β}
    (hfirst : Follows R₁ R (first.run setting enter) (first.run setting' enter'))
    (hnext : ∀ a, Follows R R₂ ((next a).run setting enter) ((next a).run setting' enter')) :
    Follows R₁ R₂ ((first >>= next).run setting enter) ((first >>= next).run setting' enter') := by
  intro s v h
  obtain ⟨v₁, hrun₁, h₁⟩ := hfirst s v h
  obtain ⟨v₂, hrun₂, h₂⟩ := hnext _ _ v₁ h₁
  refine ⟨v₂, ?_, h₂⟩
  rw [run_bind, hrun₁]
  exact hrun₂

/-- Only at the end of the text there is no text ahead. -/
theorem currentText {next : String → Rule ν β}
    (hnext : ∀ text, Follows (fun ws v v' => R₁ ws v v' ∧ (text ≠ "" → ws ≠ [])) R₂
      ((next text).run setting enter) ((next text).run setting' enter')) :
    Follows R₁ R₂ ((Rule.currentText >>= next).run setting enter)
      ((Rule.currentText >>= next).run setting' enter') := by
  intro s v h
  refine hnext _ s v ⟨h, fun htext hwords => htext ?_⟩
  show ((s.current?.map (·.text)).getD "") = ""
  rw [State.current?, hwords]
  rfl

theorem ignore {rule : Rule ν α}
    (hrule : Follows R₁ R₂ (rule.run setting enter) (rule.run setting' enter')) :
    Follows R₁ R₂ ((Rule.ignore rule).run setting enter) ((Rule.ignore rule).run setting' enter') :=
  bind hrule fun _ => ofLooking (fun _ => rfl) fun _ _ => rfl

theorem ite {c : Prop} [Decidable c] {yes no : Rule ν α}
    (hyes : Follows R₁ R₂ (yes.run setting enter) (yes.run setting' enter'))
    (hno : Follows R₁ R₂ (no.run setting enter) (no.run setting' enter')) :
    Follows R₁ R₂ ((if c then yes else no).run setting enter)
      ((if c then yes else no).run setting' enter') := by
  split
  · exact hyes
  · exact hno

theorem group {body : Rule ν α}
    (hbody : Follows R₁ R₂ (body.run setting enter) (body.run setting' enter')) :
    Follows R₁ R₂ ((Rule.group body).run setting enter)
      ((Rule.group body).run setting' enter') := by
  intro s v h
  obtain ⟨v', hrun, h'⟩ := hbody { s.attachPending with siblings := [] } v h
  refine ⟨v', ?_, h'⟩
  have hadded := congrArg (fun p : α × State =>
    (p.1, { p.2 with siblings := p.2.siblings ++ s.attachPending.siblings })) hrun
  exact hadded

theorem enclose (kind : NodeKind) {body : Rule ν α}
    (hbody : Follows R₁ R₂ (body.run setting enter) (body.run setting' enter')) :
    Follows R₁ R₂ ((Rule.enclose kind body).run setting enter)
      ((Rule.enclose kind body).run setting' enter') := by
  intro s v h
  obtain ⟨v', hrun, h'⟩ := hbody s v h
  refine ⟨v', ?_, h'⟩
  have hwrapped := congrArg (fun p : α × State =>
    (p.1, { p.2 with siblings := [.node kind p.2.siblings.reverse] })) hrun
  exact hwrapped

theorem node (kind : NodeKind) {body : Rule ν α}
    (hbody : Follows R₁ R₂ (body.run setting enter) (body.run setting' enter')) :
    Follows R₁ R₂ ((Rule.node kind body).run setting enter)
      ((Rule.node kind body).run setting' enter') :=
  group (enclose kind hbody)

theorem within (context : Context) {body : Rule ν α}
    (hbody : Follows R₁ R₂ (body.run setting enter) (body.run setting' enter')) :
    Follows R₁ R₂ ((Rule.within context body).run setting enter)
      ((Rule.within context body).run setting' enter') := by
  intro s v h
  obtain ⟨v', hrun, h'⟩ := hbody { s with contexts := context :: s.contexts } v h
  refine ⟨v', ?_, h'⟩
  have hclosed := congrArg (fun p : α × State =>
    (p.1, { p.2 with contexts := p.2.contexts.tail })) hrun
  exact hclosed

theorem report (hR : Tracking setting setting' R) {problem : Problem}
    (hproblem : problem.ofRule = true) :
    Follows R R ((Rule.report problem).run setting enter)
      ((Rule.report problem).run setting' enter') := by
  intro s v h
  refine ⟨((s.speak v).report setting' problem).voice, ?_, ?_⟩
  · exact congrArg ((), ·) (State.speak_report setting setting' problem s v)
  · rw [run_report, State.report_words]
    exact hR.reported hproblem h

theorem progress {body : Rule ν α}
    (hbody : Follows R₁ R₂ (body.run setting enter) (body.run setting' enter')) :
    Follows R₁ R₂ ((Rule.progress body).run setting enter)
      ((Rule.progress body).run setting' enter') := by
  intro s v h
  obtain ⟨v', hrun, h'⟩ := hbody s v h
  refine ⟨v', ?_, h'⟩
  rw [run_progress, run_progress, hrun]
  rfl

theorem iterate {step step' : σ → State → (σ × Bool) × State}
    (hstep : ∀ a, Follows R R (step a) (step' a)) (rounds : Nat) (a : σ) :
    Follows R R (iterate step rounds a) (iterate step' rounds a) := by
  induction rounds generalizing a with
  | zero => exact fun s v h => ⟨v, rfl, h⟩
  | succ rounds ih =>
    intro s v h
    obtain ⟨v₁, hrun₁, h₁⟩ := hstep a s v h
    unfold RelLang.iterate
    rw [hrun₁]
    dsimp only
    split
    · exact ih _ _ v₁ h₁
    · exact ⟨v₁, rfl, h₁⟩

theorem loop (a : σ) {body : σ → Rule ν (σ × Bool)}
    (hbody : ∀ a, Follows R R ((body a).run setting enter) ((body a).run setting' enter')) :
    Follows R R ((Rule.loop a body).run setting enter) ((Rule.loop a body).run setting' enter') :=
  fun s v h => iterate hbody (s.left + 1) a s v h

/-- Elementary rules go the same way. -/
theorem ofElementary (hR : Tracking setting setting' R) {passes : NodeKind → Bool} {rule : Rule ν α}
    (h : Elementary passes rule) :
    Follows R R (rule.run setting enter) (rule.run setting' enter') := by
  induction h with
  | done a => exact ofLooking (fun _ => rfl) fun _ _ => rfl
  | andThen _ _ hfirst hnext => exact bind hfirst hnext
  | peek n => exact ofLooking (fun _ => rfl) fun _ _ => rfl
  | atRecoveryPoint => exact ofLooking (fun _ => rfl) fun _ _ => rfl
  | bump => exact bump hR
  | node _ _ hbody => exact node _ hbody
  | report hproblem => exact report hR hproblem
  | loop a _ hbody => exact loop a hbody

end Follows

end Rule

namespace Grammar

open Rule

variable {setting setting' : Setting} {enter enter' : Nonterminal → State → Bool × State}
  {R : List Word → Voice → Voice → Prop}

/-- What an option says changes the voice only by admitting temporal constructs. -/
theorem follows_optionDecl (hR : Tracking setting setting' R)
    (hallow : Follows R R (fun s => ((), s.allow setting)) fun s => ((), s.allow setting')) :
    Follows R R (optionDecl.run setting enter) (optionDecl.run setting' enter') := by
  have htext : Follows R R (Rule.currentText.run setting enter)
      (Rule.currentText.run setting' enter') := .ofLooking (fun _ => rfl) fun _ _ => rfl
  refine .node _ <| .bind (.bump hR) fun _ => .bind htext fun key =>
    .bind (.ofElementary hR elementary_qualName.ignore) fun _ => .bind htext fun value =>
    .bind (.ofElementary hR elementary_optionValue) fun _ => ?_
  cases key == "problem_type" && value == "temporal" with
  | true => exact hallow
  | false => exact .ofLooking (fun _ => rfl) fun _ _ => rfl

theorem follows_boundValue (hR : Tracking setting setting' R)
    (hcall : ∀ symbol, Follows R R (enter symbol) (enter' symbol)) :
    Follows R R (boundValue.run setting enter) (boundValue.run setting' enter') := by
  have hpeek (n : Nat) : Follows R R ((peek n).run setting enter) ((peek n).run setting' enter') :=
    .ofLooking (fun _ => rfl) fun _ _ => rfl
  refine .node _ <| .bind (hpeek 0) fun first => .bind (hpeek 1) fun second => ?_
  split
  · exact .bump hR
  · exact .bind (.bump hR) fun _ => .bump hR
  · exact .ignore (hcall _)
  · exact .ofElementary hR elementary_qualName.ignore
  · exact .report hR rfl

/-- Orderly rules go the same way, if asking for temporal constructs and calls do, and options, if
there may be any. -/
theorem Orderly.follows (hR : Tracking setting setting' R)
    (hrequire : Follows R R (fun s => ((), s.require setting)) fun s => ((), s.require setting'))
    (hcall : ∀ symbol, Follows R R (enter symbol) (enter' symbol)) {α : Type}
    {rule : Rule Nonterminal α} (h : Orderly rule)
    (hoption : rule.Every (· ≠ .optionDecl) (fun _ _ => True) ∨
      Follows R R (Grammar.optionDecl.run setting enter)
        (Grammar.optionDecl.run setting' enter')) :
    Follows R R (rule.run setting enter) (rule.run setting' enter') := by
  have hstep {β : Type} {rule : Rule Nonterminal β} (hrule : Elementary (fun _ => true) rule) :
      Follows R R (rule.run setting enter) (rule.run setting' enter') := .ofElementary hR hrule
  induction h with
  | done a => exact hstep (.done a)
  | andThen _ _ hfirst hnext =>
    exact .bind (hfirst (hoption.imp_left (·.1))) fun a => hnext a (hoption.imp_left (·.2 a))
  | peek n => exact hstep (.peek n)
  | ahead test => exact .ofLooking (fun _ => rfl) fun _ _ => rfl
  | atRecoveryPoint => exact hstep .atRecoveryPoint
  | bump => exact hstep .bump
  | node _ _ hbody => exact .node _ (hbody (hoption.imp_left (·.2)))
  | group _ hbody => exact .group (hbody hoption)
  | enclose _ _ hbody => exact .enclose _ (hbody (hoption.imp_left (·.2)))
  | within context _ hbody => exact .within context (hbody hoption)
  | report hproblem => exact hstep (.report hproblem)
  | requireTemporal => exact hrequire
  | loop a _ hbody => exact .loop a fun b => hbody b (hoption.imp_left (·.2 b))
  | opener _ _ hnext =>
    refine .bind (.ofLooking (fun _ => rfl) fun s v => ?_) fun r =>
      hnext r (hoption.imp_left (·.2 r))
    show ((s.speak v).currentRange setting', s.speak v) = (s.currentRange setting, s.speak v)
    rw [State.currentRange, hR.stop]
    rfl
  | skipToken hproblem => exact hstep (.skipToken hproblem rfl)
  | skipUntil stops hproblem => exact hstep (.skipUntil stops hproblem rfl)
  | items closer hcode _ _ hitem =>
    have hitem := hitem (hoption.imp_left fun hevery => by simpa [Rule.items] using hevery)
    refine .loop _ fun _ => .bind ?_ fun _ => hstep (.pure _)
    refine .bind (hstep .currentIs) fun closed => .bind (hstep .atEnd) fun ended =>
      .ite (hstep (.pure _)) <| .bind (.progress hitem) fun _ => .ite (hstep (.pure _)) ?_
    exact hstep <| .bind .atRecoveryPoint fun _ => .bind (.when (.skipToken hcode rfl)) fun _ =>
      .pure _
  | progress _ _ hbody => exact .progress (hbody hoption)
  | expression level => exact hcall _
  | boundValue => exact follows_boundValue hR hcall
  | optionDecl => exact hoption.resolve_left fun hevery => hevery.1 rfl
  | behindExpression => exact hstep elementary_behindExpression

/-- Whatever is read, the two readings go the same way, however deep it is nested: an option does
not stand inside an expression. -/
theorem follows_enter (hR : Tracking setting setting' R)
    (hrequire : Follows R R (fun s => ((), s.require setting)) fun s => ((), s.require setting'))
    (levels : Nat) (symbol : Nonterminal) :
    Follows R R (language.enter setting levels symbol) (language.enter setting' levels symbol) := by
  induction levels generalizing symbol with
  | zero => exact .ofElementary hR (elementary_beyond symbol)
  | succ levels ih =>
    have hbody : Optionless setting _ (language.body symbol) :=
      optionless_body (language.steady_enter setting levels) symbol
    exact (orderly_body symbol).follows hR hrequire ih
      (.inl (hbody.mono (fun _ => id) fun _ _ _ => trivial))

end Grammar

/-- Two readings of a text that start with related voices go the same way, and end with related
voices. -/
theorem Parse.final_follows {config config' : ParseConfig} {tokens : List Token}
    {R : List Word → Voice → Voice → Prop}
    (hR : Rule.Tracking (setting config tokens) (setting config' tokens) R)
    (hrequire : Rule.Follows R R (fun s => ((), s.require (setting config tokens)))
      fun s => ((), s.require (setting config' tokens)))
    (hoption : ∀ enter enter', Rule.Follows R R
      (Grammar.optionDecl.run (setting config tokens) enter)
      (Grammar.optionDecl.run (setting config' tokens) enter'))
    {v : Voice} (hstart : start config' tokens = (start config tokens).speak v)
    (hv : R (start config tokens).words (start config tokens).voice v) (entry : Entry) :
    ∃ v', final config' entry tokens = (final config entry tokens).speak v' ∧
      R (final config entry tokens).words (final config entry tokens).voice v' := by
  obtain ⟨v', hrun, hv'⟩ := (Grammar.orderly_entry entry).follows hR hrequire
    (Grammar.follows_enter hR hrequire nestingLimit) (.inr (hoption _ _)) (start config tokens) v hv
  rw [← hstart] at hrun
  exact ⟨v', congrArg (fun p : Unit × State => p.2.attachPending) hrun, hv'⟩

end RelLang
