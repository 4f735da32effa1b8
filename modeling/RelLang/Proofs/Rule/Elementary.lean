import RelLang.Proofs.Rule.Look

/-!
# Elementary rules

A rule is *elementary* if it does no more than look, take, report and put nodes around what
it takes. It calls nothing, opens no context and does not ask whether temporal constructs
are admitted. A rule that looks at the place of a token is *indifferent* to it if it only
reports it.
-/

namespace RelLang

/-- What a rule may report by itself: no piece of text that is no token, and no temporal
construct, which has a step of its own. -/
def Problem.ofRule (problem : Problem) : Bool :=
  problem.code.toClass != .lexical && problem.code != .temporalDisabled

theorem Problem.ofRule_missing (kind : TokenKind) (opener : Option ByteRange) :
    (Problem.missing kind (.ofMissing kind) opener).ofRule = true := by
  show ((Code.ofMissing kind).toClass != .lexical && Code.ofMissing kind != .temporalDisabled)
    = true
  unfold Code.ofMissing
  split <;> rfl

namespace Rule

variable {ν α β : Type}

/-- A rule that makes nodes of passing kinds, and otherwise only looks, takes and reports. -/
inductive Elementary (passes : NodeKind → Bool) : {α : Type} → Rule ν α → Prop where
  | done {α : Type} (a : α) : Elementary passes (.done a)
  | andThen {α β : Type} {first : Rule ν α} {next : α → Rule ν β} (hfirst : Elementary passes first)
    (hnext : ∀ a, Elementary passes (next a)) : Elementary passes (.andThen first next)
  | peek (n : Nat) : Elementary passes (.peek n)
  | atRecoveryPoint : Elementary passes .atRecoveryPoint
  | bump : Elementary passes .bump
  | node {α : Type} {kind : NodeKind} {body : Rule ν α} (hkind : passes kind = true)
    (hbody : Elementary passes body) : Elementary passes (.node kind body)
  | report {problem : Problem} (hproblem : problem.ofRule = true) :
    Elementary passes (.report problem)
  | loop {σ : Type} (a : σ) {body : σ → Rule ν (σ × Bool)}
    (hbody : ∀ a, Elementary passes (body a)) : Elementary passes (.loop a body)

namespace Elementary

variable {passes : NodeKind → Bool}

theorem pure (a : α) : Elementary passes (Pure.pure a : Rule ν α) := done a

theorem bind {first : Rule ν α} {next : α → Rule ν β} (hfirst : Elementary passes first)
    (hnext : ∀ a, Elementary passes (next a)) : Elementary passes (first >>= next) :=
  andThen hfirst hnext

theorem ite {c : Prop} [Decidable c] {yes no : Rule ν α} (hyes : Elementary passes yes)
    (hno : Elementary passes no) : Elementary passes (if c then yes else no) := by
  split
  · exact hyes
  · exact hno

theorem «when» {condition : Bool} {rule : Rule ν Unit} (hrule : Elementary passes rule) :
    Elementary passes (when condition rule) :=
  ite hrule (pure ())

theorem pick {condition : Bool} {yes no : Rule ν α} (hyes : Elementary passes yes)
    (hno : Elementary passes no) : Elementary passes (pick condition yes no) :=
  ite hyes hno

theorem ignore {rule : Rule ν α} (hrule : Elementary passes rule) :
    Elementary passes (ignore rule) :=
  bind hrule fun _ => pure ()

theorem repeated {body : Rule ν Bool} (hbody : Elementary passes body) :
    Elementary passes (repeated body) :=
  loop () fun _ => bind hbody fun _ => pure _

theorem nthIs (n : Nat) (kind : TokenKind) : Elementary passes (nthIs n kind : Rule ν Bool) :=
  bind (peek n) fun _ => pure _

theorem currentIs {kind : TokenKind} : Elementary passes (currentIs kind : Rule ν Bool) :=
  nthIs 0 kind

theorem nthPasses (n : Nat) (test : TokenKind → Bool) :
    Elementary passes (nthPasses n test : Rule ν Bool) :=
  bind (peek n) fun _ => pure _

theorem currentIn {kinds : List TokenKind} : Elementary passes (currentIn kinds : Rule ν Bool) :=
  nthPasses 0 kinds.contains

theorem atEnd : Elementary passes (atEnd : Rule ν Bool) := bind (peek 0) fun _ => pure _

theorem andAlso {first second : Rule ν Bool} (hfirst : Elementary passes first)
    (hsecond : Elementary passes second) : Elementary passes (andAlso first second) :=
  bind hfirst fun _ => ite hsecond (pure _)

theorem orElse {first second : Rule ν Bool} (hfirst : Elementary passes first)
    (hsecond : Elementary passes second) : Elementary passes (orElse first second) :=
  bind hfirst fun _ => ite (pure _) hsecond

theorem eat {kind : TokenKind} : Elementary passes (eat kind : Rule ν Bool) :=
  bind currentIs fun _ => bind (.when bump) fun _ => pure _

/-! ### Rules that skip -/

theorem skipToken {problem : Problem} (hproblem : problem.ofRule = true)
    (herror : passes .error = true) : Elementary passes (skipToken problem : Rule ν Unit) :=
  bind (report hproblem) fun _ => bind atEnd fun _ => .when (node herror bump)

theorem skipUntil {problem : Problem} (stops : List TokenKind) (hproblem : problem.ofRule = true)
    (herror : passes .error = true) : Elementary passes (skipUntil problem stops : Rule ν Unit) :=
  bind (report hproblem) fun _ => bind atEnd fun _ => .when <| node herror <| bind bump fun _ =>
    repeated <| bind currentIn fun _ => bind atRecoveryPoint fun _ => bind (.when bump) fun _ =>
      pure _

end Elementary

/-! ### Places that are only reported -/

end Rule

/-- What a report says, without the places that it names beside its own. -/
def Report.said (r : Report) : Diagnostic := { r.toDiagnostic with notes := [] }

/-- What has been said so far, the last one first. -/
def State.said (s : State) : List Diagnostic := s.reports.map Report.said

/-- Of two problems that are put into the same words, both or none is kept. -/
theorem State.said_report {problem problem' : Problem} (setting : Setting) (s : State)
    (h : ∀ found context range fatal, Report.said ⟨problem', found, context, range, fatal⟩
      = Report.said ⟨problem, found, context, range, fatal⟩) :
    ∃ reports, s.report setting problem' = { s.report setting problem with reports } ∧
      reports.map Report.said = (s.report setting problem).said := by
  unfold report keep
  dsimp only
  split
  · exact ⟨s.reports, rfl, rfl⟩
  · exact ⟨_, rfl, congrArg (· :: s.said) (h _ _ _ _)⟩

namespace Rule

variable {ν α β : Type}

/-- The place makes no difference but in a note of what is reported. -/
def Indifferent (next : ByteRange → Rule ν α) : Prop :=
  ∀ (setting : Setting) (enter : ν → State → Bool × State) (r r' : ByteRange) (s : State),
    ∃ reports, (next r').run setting enter s
        = (((next r).run setting enter s).1, { ((next r).run setting enter s).2 with reports }) ∧
      reports.map Report.said = ((next r).run setting enter s).2.said

namespace Indifferent

theorem bind {first : Rule ν α} {next : ByteRange → α → Rule ν β}
    (h : ∀ a, Indifferent fun r => next r a) : Indifferent fun r => first >>= next r :=
  fun setting enter r r' _ => h _ setting enter r r' _

theorem «when» {condition : Bool} {next : ByteRange → Rule ν Unit} (h : Indifferent next) :
    Indifferent fun r => when condition (next r) := by
  intro setting enter r r' s
  cases condition with
  | true => exact h setting enter r r' s
  | false => exact ⟨s.reports, rfl, rfl⟩

theorem thenPure {first : ByteRange → Rule ν α} (h : Indifferent first) (b : β) :
    Indifferent fun r => first r >>= fun _ => pure b := by
  intro setting enter r r' s
  obtain ⟨reports, hrun, hsaid⟩ := h setting enter r r' s
  refine ⟨reports, ?_, hsaid⟩
  rw [run_bind, hrun]
  rfl

/-- The opener of a group is only shown when its closer is missing. -/
theorem closer (kind : TokenKind) :
    Indifferent fun r => (ignore (expectCloser kind r) : Rule ν Unit) := by
  intro setting enter r r' s
  simp only [run_ignore, expectCloser, expectToken, run_bind, run_ite, run_pure, run_nthIs,
    run_atRecoveryPoint, run_report]
  split
  · exact ⟨_, rfl, rfl⟩
  · split
    · exact ⟨_, rfl, rfl⟩
    · have hwords (found : Found) (context : Context) (range : ByteRange) (fatal : Bool) :
          Report.said ⟨.missing kind (.ofMissing kind) (some r'), found, context, range, fatal⟩
            = Report.said ⟨.missing kind (.ofMissing kind) (some r), found, context, range, fatal⟩ :=
        rfl
      obtain ⟨reports, h, hsaid⟩ := State.said_report setting
        ((eat kind : Rule ν Bool).run setting enter s).2 hwords
      exact ⟨reports, by rw [h], hsaid⟩

end Indifferent

end Rule
end RelLang
