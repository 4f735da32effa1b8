import RelLang.Proofs.Rule.Look

/-!
# What rules report

`Tells` says of all problems that a rule may report that they pass a test. What
survives the taking of words and reports that pass then holds at the end of every
run, if it held at the start: a rule does nothing else to words and reports.
-/

namespace RelLang

namespace Rule

variable {ν α β σ : Type}

/-- All problems that the rule may report pass, those of its calls apart. -/
def Tells (told : Problem → Prop) {α : Type} : Rule ν α → Prop
  | .andThen first next => first.Tells told ∧ ∀ a, (next a).Tells told
  | .node _ body => body.Tells told
  | .group body => body.Tells told
  | .enclose _ body => body.Tells told
  | .within _ body => body.Tells told
  | .report problem => told problem
  | .requireTemporal => told .temporalDisabled
  | .progress body => body.Tells told
  | .loop _ body => ∀ a, (body a).Tells told
  | _ => True

section

variable {told : Problem → Prop}

@[simp] theorem tells_pure (a : α) : (pure a : Rule ν α).Tells told := trivial
@[simp] theorem tells_done (a : α) : (Rule.done a : Rule ν α).Tells told := trivial
@[simp] theorem tells_peek (n : Nat) : (Rule.peek n : Rule ν _).Tells told := trivial
@[simp] theorem tells_ahead (test : List TokenKind → Bool) :
    (Rule.ahead test : Rule ν Bool).Tells told := trivial
@[simp] theorem tells_currentText : (Rule.currentText : Rule ν _).Tells told := trivial
@[simp] theorem tells_currentRange : (Rule.currentRange : Rule ν _).Tells told := trivial
@[simp] theorem tells_atRecoveryPoint :
    (Rule.atRecoveryPoint : Rule ν _).Tells told := trivial
@[simp] theorem tells_bump : (Rule.bump : Rule ν Unit).Tells told := trivial
@[simp] theorem tells_admitTemporal : (Rule.admitTemporal : Rule ν Unit).Tells told := trivial
@[simp] theorem tells_call (symbol : ν) : (Rule.call symbol).Tells told := trivial

@[simp] theorem tells_report (problem : Problem) :
    (Rule.report problem : Rule ν Unit).Tells told ↔ told problem := Iff.rfl

@[simp] theorem tells_requireTemporal :
    (Rule.requireTemporal : Rule ν Unit).Tells told ↔ told .temporalDisabled := Iff.rfl

@[simp] theorem tells_bind (first : Rule ν α) (next : α → Rule ν β) :
    (first >>= next).Tells told ↔ first.Tells told ∧ ∀ a, (next a).Tells told := Iff.rfl

@[simp] theorem tells_andThen (first : Rule ν α) (next : α → Rule ν β) :
    (Rule.andThen first next).Tells told ↔ first.Tells told ∧ ∀ a, (next a).Tells told := Iff.rfl

@[simp] theorem tells_node (kind : NodeKind) (body : Rule ν α) :
    (Rule.node kind body).Tells told ↔ body.Tells told := Iff.rfl

@[simp] theorem tells_group (body : Rule ν α) :
    (Rule.group body).Tells told ↔ body.Tells told := Iff.rfl

@[simp] theorem tells_enclose (kind : NodeKind) (body : Rule ν α) :
    (Rule.enclose kind body).Tells told ↔ body.Tells told := Iff.rfl

@[simp] theorem tells_within (context : Context) (body : Rule ν α) :
    (Rule.within context body).Tells told ↔ body.Tells told := Iff.rfl

@[simp] theorem tells_progress (body : Rule ν α) :
    (Rule.progress body).Tells told ↔ body.Tells told := Iff.rfl

@[simp] theorem tells_loop (a : σ) (body : σ → Rule ν (σ × Bool)) :
    (Rule.loop a body).Tells told ↔ ∀ a, (body a).Tells told := Iff.rfl

@[simp] theorem tells_repeated (body : Rule ν Bool) :
    (repeated body).Tells told ↔ body.Tells told := by
  simp [repeated]

@[simp] theorem tells_ite (c : Prop) [Decidable c] (yes no : Rule ν α) :
    (if c then yes else no).Tells told ↔ (c → yes.Tells told) ∧ (¬ c → no.Tells told) := by
  by_cases h : c <;> simp [h]

@[simp] theorem tells_when (condition : Bool) (rule : Rule ν Unit) :
    (when condition rule).Tells told ↔ (condition = true → rule.Tells told) := by
  simp [when]

@[simp] theorem tells_pick (condition : Bool) (yes no : Rule ν α) :
    (pick condition yes no).Tells told
      ↔ (condition = true → yes.Tells told) ∧ (condition = false → no.Tells told) := by
  simp [pick]

@[simp] theorem tells_ignore (rule : Rule ν α) :
    (ignore rule).Tells told ↔ rule.Tells told := by
  simp [ignore]

@[simp] theorem tells_nthPasses (n : Nat) (test : TokenKind → Bool) :
    (nthPasses n test : Rule ν Bool).Tells told := by
  simp [nthPasses]

@[simp] theorem tells_nthIs (n : Nat) (kind : TokenKind) :
    (nthIs n kind : Rule ν Bool).Tells told := by
  simp [nthIs]

@[simp] theorem tells_currentIs (kind : TokenKind) :
    (currentIs kind : Rule ν Bool).Tells told := by
  simp [currentIs]

@[simp] theorem tells_currentIn (kinds : List TokenKind) :
    (currentIn kinds : Rule ν Bool).Tells told := by
  simp [currentIn]

@[simp] theorem tells_atEnd : (atEnd : Rule ν Bool).Tells told := by
  simp [atEnd]

@[simp] theorem tells_andAlso (first second : Rule ν Bool) :
    (andAlso first second).Tells told ↔ first.Tells told ∧ second.Tells told := by
  simp [andAlso]

@[simp] theorem tells_orElse (first second : Rule ν Bool) :
    (orElse first second).Tells told ↔ first.Tells told ∧ second.Tells told := by
  simp [orElse]

@[simp] theorem tells_eat (kind : TokenKind) : (eat kind : Rule ν Bool).Tells told := by
  simp [eat]

@[simp] theorem tells_tokenNode (kind : NodeKind) :
    (tokenNode kind : Rule ν Unit).Tells told := by
  simp [tokenNode]

@[simp] theorem tells_skipToken (problem : Problem) :
    (skipToken problem : Rule ν Unit).Tells told ↔ told problem := by
  simp [skipToken]

@[simp] theorem tells_skipUntil (problem : Problem) (stops : List TokenKind) :
    (skipUntil problem stops : Rule ν Unit).Tells told ↔ told problem := by
  simp [skipUntil]

/-- A list that reports nothing about its items but what they report themselves, and that a
token is none. -/
theorem tells_items {closer : Punct} {code : Code} {item : Rule ν Unit}
    (hcode : told (.listItem code)) (hitem : item.Tells told) :
    (items closer code item).Tells told := by
  simp [items, hcode, hitem]

theorem tells_expectToken {kind : TokenKind} {code : Code} {opener : Option ByteRange}
    (hmissing : told (.missing kind code opener)) (hstray : told (.stray kind)) :
    (expectToken kind code opener : Rule ν Bool).Tells told := by
  simp [expectToken, hmissing, hstray]

end

theorem Tells.mono {told told' : Problem → Prop} {rule : Rule ν α} (h : rule.Tells told)
    (himp : ∀ problem, told problem → told' problem) : rule.Tells told' := by
  induction rule with
  | andThen first next ih₁ ih₂ => exact ⟨ih₁ h.1, fun a => ih₂ a (h.2 a)⟩
  | node kind body ih => exact ih h
  | group body ih => exact ih h
  | enclose kind body ih => exact ih h
  | within context body ih => exact ih h
  | report problem => exact himp _ h
  | requireTemporal => exact himp _ h
  | progress body ih => exact ih h
  | loop a body ih => exact fun a => ih a (h a)
  | _ => trivial

/-! ### What runs keep -/

/-- A property of the words to come and of the reports that survives the taking of words and
reports that pass. -/
structure Keeping (setting : Setting) (told : Problem → Prop)
    (I : List Word → List Report → Prop) : Prop where
  taken : ∀ {ws vs : List Word} {rs : List Report}, vs <:+ ws → I ws rs → I vs rs
  reported : ∀ {s : State} {problem : Problem}, told problem → I s.words s.reports →
    I s.words (s.report setting problem).reports

section

variable {setting : Setting} {told : Problem → Prop} {I : List Word → List Report → Prop}
  {enter : ν → State → Bool × State}

theorem Keeping.bump (hI : Keeping setting told I) {s : State} (hs : I s.words s.reports) :
    I s.bump.words s.bump.reports := by
  cases hw : s.words with
  | nil =>
    rw [State.bump_of_words_eq_nil hw]
    exact hs
  | cons w ws =>
    rw [State.bump_of_words_eq_cons hw]
    rw [hw] at hs
    exact hI.taken (List.suffix_cons w ws) hs

theorem Keeping.report (hI : Keeping setting told I) {s : State} {problem : Problem}
    (hproblem : told problem) (hs : I s.words s.reports) :
    I (s.report setting problem).words (s.report setting problem).reports := by
  rw [State.report_words]
  exact hI.reported hproblem hs

/-- Reports that pass leave the number of the other ones as it is. -/
theorem Keeping.countP {counted : Problem → Bool}
    (hcounted : ∀ problem, told problem → counted problem = false) (n : Nat) :
    Keeping setting told fun _ reports => reports.countP (counted ·.problem) = n where
  taken := fun _ h => h
  reported := by
    intro s problem hproblem h
    unfold State.report State.keep
    dsimp only
    split
    · exact h
    · rwa [List.countP_cons_of_neg]
      simp [hcounted problem hproblem]

theorem keeping_iterate {step : σ → State → (σ × Bool) × State}
    (hstep : ∀ a s, I s.words s.reports → I (step a s).2.words (step a s).2.reports)
    (rounds : Nat) (a : σ) {s : State} (hs : I s.words s.reports) :
    I (iterate step rounds a s).2.words (iterate step rounds a s).2.reports := by
  induction rounds generalizing a s with
  | zero => exact hs
  | succ rounds ih =>
    have hround := hstep a s hs
    unfold iterate
    dsimp only
    split
    · exact ih _ hround
    · exact hround

/-- What one word taken and one report made keep, a whole run keeps, if its calls do. -/
theorem Keeping.run (hI : Keeping setting told I)
    (henter : ∀ symbol s, I s.words s.reports →
      I (enter symbol s).2.words (enter symbol s).2.reports)
    (rule : Rule ν α) (hrule : rule.Tells told) {s : State} (hs : I s.words s.reports) :
    I (rule.run setting enter s).2.words (rule.run setting enter s).2.reports := by
  induction rule generalizing s with
  | andThen first next ih₁ ih₂ => exact ih₂ _ (hrule.2 _) (ih₁ hrule.1 hs)
  | bump => exact hI.bump hs
  | node kind body ih => exact ih hrule (s := { s.attachPending with siblings := [] }) hs
  | group body ih => exact ih hrule (s := { s.attachPending with siblings := [] }) hs
  | enclose kind body ih => exact ih hrule hs
  | within context body ih =>
    exact ih hrule (s := { s with contexts := context :: s.contexts }) hs
  | report problem => exact hI.report hrule hs
  | requireTemporal =>
    rw [Rule.run]
    by_cases h : s.temporal
    · simpa [h] using hs
    · simpa [h] using hI.report hrule hs
  | admitTemporal =>
    rw [Rule.run]
    by_cases h : setting.mode = .fromLanguageLine <;> simpa [h] using hs
  | progress body ih => exact ih hrule hs
  | loop a body ih => exact keeping_iterate (fun a s hs => ih a (hrule a) hs) _ _ hs
  | call symbol => exact henter symbol s hs
  | _ => exact hs

end

end Rule

/-- What one word taken and one report made keep, every nonterminal keeps. -/
theorem Grammar.keeping_enter {ν : Type} (g : Grammar ν) {setting : Setting}
    {told : Problem → Prop} {I : List Word → List Report → Prop}
    (hI : Rule.Keeping setting told I) (hbody : ∀ symbol, (g.body symbol).Tells told)
    (hbeyond : ∀ symbol, (g.beyond symbol).Tells told) (levels : Nat) (symbol : ν) (s : State)
    (hs : I s.words s.reports) :
    I (g.enter setting levels symbol s).2.words (g.enter setting levels symbol s).2.reports := by
  induction levels generalizing symbol s with
  | zero => exact hI.run (fun symbol => symbol.elim) (g.beyond symbol) (hbeyond symbol) hs
  | succ levels ih => exact hI.run ih (g.body symbol) (hbody symbol) hs

end RelLang
