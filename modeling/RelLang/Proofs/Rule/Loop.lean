import RelLang.Proofs.Rule.Look

/-!
# Loops that advance

A loop *advances* if each round that asks for another has put a token into the tree.
Such a loop ends by itself: it does what its first round does and then, if that
asked for more, what the loop does from there on. The bound on the rounds plays no
part in this. `Every` says something of all nodes and all loops in a rule.
-/

namespace RelLang

/-- Rounds past the number of tokens left change nothing, if each round takes a token. -/
theorem iterate_eq_of_left_lt {σ : Type} {step : σ → State → (σ × Bool) × State}
    (hvalid : ∀ a s, State.Valid s → (step a s).2.Valid)
    (hleft : ∀ a s, State.Valid s → (step a s).1.2 = true → (step a s).2.left < s.left)
    {n m : Nat} {a : σ} {s : State} (hs : s.Valid) (hn : s.left < n) (hm : s.left < m) :
    iterate step n a s = iterate step m a s := by
  induction n generalizing m a s with
  | zero => omega
  | succ n ih =>
    cases m with
    | zero => omega
    | succ m =>
      unfold iterate
      dsimp only
      split
      · next hmore =>
        have hlt := hleft a s hs hmore
        exact ih (hvalid a s hs) (by omega) (by omega)
      · rfl

namespace Rule

variable {ν α β σ : Type} {setting : Setting} {enter : ν → State → Bool × State}

/-- Each round that asks for another has put a token into the tree. -/
def Advancing (setting : Setting) (enter : ν → State → Bool × State) (σ : Type)
    (body : σ → Rule ν (σ × Bool)) : Prop :=
  ∀ a s, s.Valid → ((body a).run setting enter s).1.2 = true →
    ((body a).run setting enter s).2.left < s.left

/-- Yields true only if it has put a token into the tree. -/
def Moves (setting : Setting) (enter : ν → State → Bool × State) (rule : Rule ν Bool) : Prop :=
  ∀ s, s.Valid → (rule.run setting enter s).1 = true → (rule.run setting enter s).2.left < s.left

/-- In front of a token of a passing kind, puts at least one token into the tree. -/
def Takes (setting : Setting) (enter : ν → State → Bool × State)
    (front : Option TokenKind → Prop) (rule : Rule ν α) : Prop :=
  ∀ s, s.Valid → front (s.kindAt 0) → (rule.run setting enter s).2.left < s.left

/-- There is a token in front. -/
abbrev AnyToken (front : Option TokenKind) : Prop := front ≠ none

variable {front : Option TokenKind → Prop}

/-! ### Rules that take a token -/

theorem left_run_le (setting : Setting) (henter : Steady enter) (rule : Rule ν α) {s : State}
    (hs : s.Valid) : (rule.run setting enter s).2.left ≤ s.left :=
  (reaches_run _ henter rule s).left_le hs

theorem valid_run (setting : Setting) (henter : Steady enter) (rule : Rule ν α) {s : State}
    (hs : s.Valid) : (rule.run setting enter s).2.Valid :=
  (reaches_run _ henter rule s).valid hs

theorem takes_bump : Takes setting enter AnyToken (.bump : Rule ν Unit) :=
  fun _ hs hk => State.left_bump_lt hs hk

theorem Takes.mono {front' : Option TokenKind → Prop} {rule : Rule ν α}
    (h : Takes setting enter front rule) (himp : ∀ k, front' k → front k) :
    Takes setting enter front' rule :=
  fun s hs hk => h s hs (himp _ hk)

/-- What takes a token has taken it whatever comes behind. -/
theorem Takes.followed (henter : Steady enter) {first : Rule ν α}
    (h : Takes setting enter front first) (second : Rule ν β) {s : State} (hs : s.Valid)
    (hk : front (s.kindAt 0)) :
    (second.run setting enter (first.run setting enter s).2).2.left < s.left :=
  Nat.lt_of_le_of_lt (left_run_le _ henter second (valid_run _ henter first hs)) (h s hs hk)

theorem Takes.bind (henter : Steady enter) {first : Rule ν α}
    (h : Takes setting enter front first) (next : α → Rule ν β) :
    Takes setting enter front (first >>= next) :=
  fun _ hs hk => h.followed henter (next _) hs hk

/-- A rule that takes a token, behind one that takes no word. -/
theorem Takes.behind (henter : Steady enter) {first : Rule ν α} {next : α → Rule ν β}
    (hfirst : ∀ s, (first.run setting enter s).2.words = s.words)
    (h : ∀ a, Takes setting enter front (next a)) :
    Takes setting enter front (first >>= next) := by
  intro s hs hk
  refine Nat.lt_of_lt_of_le (h _ _ (valid_run _ henter first hs) ?_)
    (left_run_le _ henter first hs)
  rwa [State.kindAt, hfirst s]

/-- What is taken may depend on whether the current token is of a kind. -/
theorem Takes.ofCurrentIs {kind : TokenKind} {next : Bool → Rule ν α}
    (htrue : Takes setting enter (· = some kind) (next true))
    (hfalse : Takes setting enter (fun k => front k ∧ k ≠ some kind) (next false)) :
    Takes setting enter front (currentIs kind >>= next) := by
  intro s hs hk
  rw [run_bind, run_currentIs]
  by_cases h : s.kindAt 0 = some kind
  · rw [beq_iff_eq.mpr h]
    exact htrue s hs h
  · rw [beq_eq_false_iff_ne.mpr h]
    exact hfalse s hs ⟨hk, h⟩

theorem Takes.ignore {rule : Rule ν α} (h : Takes setting enter front rule) :
    Takes setting enter front (Rule.ignore rule) := h

theorem Takes.node {body : Rule ν α} (h : Takes setting enter front body) (kind : NodeKind) :
    Takes setting enter front (.node kind body) := by
  intro s hs hk
  have ha := State.reaches_attachPending s
  have hlt := h { s.attachPending with siblings := [] } ((ha.valid hs).of_eq rfl rfl rfl) hk
  exact Nat.lt_of_lt_of_le hlt (ha.left_le hs)

theorem Takes.enclose {body : Rule ν α} (h : Takes setting enter front body) (kind : NodeKind) :
    Takes setting enter front (.enclose kind body) :=
  fun s hs hk => h s hs hk

theorem takes_tokenNode (kind : NodeKind) :
    Takes setting enter AnyToken (tokenNode kind : Rule ν Unit) :=
  takes_bump.node kind

/-- A test for the end does not keep a rule from taking a token. -/
theorem Takes.unlessEnded {rule : Rule ν Unit} (h : Takes setting enter AnyToken rule) :
    Takes setting enter AnyToken (do let ended ← atEnd; when (!ended) rule) := by
  intro s hs hk
  have he : (s.kindAt 0).isNone = false := by
    cases hkind : s.kindAt 0 with
    | none => exact absurd hkind hk
    | some k => rfl
  simp only [run_bind, run_atEnd, he]
  exact h s hs hk

theorem words_requireTemporal (s : State) :
    ((Rule.requireTemporal : Rule ν Unit).run setting enter s).2.words = s.words := by
  simp only [run]
  split
  · rfl
  · exact State.report_words ..

theorem takes_skipToken (henter : Steady enter) (problem : Problem) :
    Takes setting enter AnyToken (skipToken problem : Rule ν Unit) :=
  .behind henter (fun s => State.report_words setting problem s)
    fun _ => (takes_bump.node .error).unlessEnded

theorem takes_skipUntil (henter : Steady enter) (problem : Problem) (stops : List TokenKind) :
    Takes setting enter AnyToken (skipUntil problem stops : Rule ν Unit) :=
  .behind henter (fun s => State.report_words setting problem s)
    fun _ => ((takes_bump.bind henter _).node .error).unlessEnded

/-! ### Rules that move -/

theorem moves_eat (kind : TokenKind) : Moves setting enter (eat kind : Rule ν Bool) := by
  intro s hs h
  rw [run_eat] at h ⊢
  split at h
  · next hk =>
    rw [if_pos hk]
    exact State.left_bump_lt hs (State.kindAt_zero_ne_none (eq_of_beq hk))
  · cases h

/-- A round that does something only if it moved. -/
theorem Moves.guarded (henter : Steady enter) {test : Rule ν Bool}
    (h : Moves setting enter test) (act : Rule ν Unit) :
    Moves setting enter (do let more ← test; when more act; return more) := by
  intro s hs hmore
  simp only [run_bind, run_pure] at hmore ⊢
  have hv := (reaches_run setting henter test s).valid hs
  have hact := reaches_run setting henter (when (test.run setting enter s).1 act)
    (test.run setting enter s).2
  exact Nat.lt_of_le_of_lt (hact.left_le hv) (h s hs hmore)

/-- A round that takes a token if it sees one. -/
theorem Sees.guarded {test : Rule ν Bool} (h : Sees setting enter test) {act : Rule ν Unit}
    (hact : Takes setting enter AnyToken act) :
    Moves setting enter (do let more ← test; when more act; return more) := by
  intro s hs hmore
  simp only [run_bind, run_pure] at hmore ⊢
  rw [hmore, (h s).1]
  exact hact s hs ((h s).2 hmore)

/-- One round of skipping: takes the current token, unless it is a stop token or a recovery
point. -/
def skipRound (stops : List TokenKind) : Rule ν Bool := do
  let stop ← currentIn stops
  let recovered ← atRecoveryPoint
  let more := !stop && !recovered
  when more bump
  return more

theorem moves_skipRound (stops : List TokenKind) :
    Moves setting enter (skipRound stops : Rule ν Bool) := by
  intro s hs hmore
  simp only [skipRound, run_bind, run_pure, run_currentIn, run_atRecoveryPoint] at hmore ⊢
  rw [hmore]
  refine State.left_bump_lt hs fun hk => ?_
  simp [State.atRecoveryPoint_of_kindAt hk] at hmore

theorem moves_false : Moves setting enter (pure false : Rule ν Bool) :=
  fun _ _ hmore => nomatch hmore

/-- What moves still moves with rules in front of it. -/
theorem Moves.bind (henter : Steady enter) (first : Rule ν α) {next : α → Rule ν Bool}
    (h : ∀ a, Moves setting enter (next a)) : Moves setting enter (first >>= next) := by
  intro s hs hmore
  have hr := reaches_run setting henter first s
  exact Nat.lt_of_lt_of_le (h _ _ (hr.valid hs) hmore) (hr.left_le hs)

theorem Moves.ite {c : Prop} [Decidable c] {yes no : Rule ν Bool}
    (h₁ : c → Moves setting enter yes) (h₂ : ¬ c → Moves setting enter no) :
    Moves setting enter (if c then yes else no) := by
  split
  · next hc => exact h₁ hc
  · next hc => exact h₂ hc

/-! ### Loops -/

/-- A loop that advances does its first round, and then the rest if that asked for it. -/
theorem run_loop (henter : Steady enter) {body : σ → Rule ν (σ × Bool)}
    (h : Advancing setting enter σ body) (a : σ) {s : State} (hs : s.Valid) :
    (Rule.loop a body).run setting enter s =
      if ((body a).run setting enter s).1.2 then
        (Rule.loop ((body a).run setting enter s).1.1 body).run setting enter
          ((body a).run setting enter s).2
      else (((body a).run setting enter s).1.1, ((body a).run setting enter s).2) := by
  have hv : ∀ a s, s.Valid → ((body a).run setting enter s).2.Valid :=
    fun a s => (reaches_run _ henter (body a) s).valid
  show iterate (fun a t => (body a).run setting enter t) (s.left + 1) a s = _
  rw [iterate]
  dsimp only
  split
  · next hmore =>
    exact iterate_eq_of_left_lt hv h (hv a s hs) (h a s hs hmore) (Nat.lt_succ_self _)
  · rfl

/-- What holds at the start of a loop that advances, and is kept by the rounds that ask for
another, holds at the start of its last round. -/
theorem loop_last (henter : Steady enter) {body : σ → Rule ν (σ × Bool)}
    (h : Advancing setting enter σ body) (I : σ → State → Prop)
    (hround : ∀ a s, s.Valid → I a s → ((body a).run setting enter s).1.2 = true →
      I ((body a).run setting enter s).1.1 ((body a).run setting enter s).2)
    {a : σ} {s : State} (hs : s.Valid) (ha : I a s) :
    ∃ b t, t.Valid ∧ I b t ∧ ((body b).run setting enter t).1.2 = false ∧
      (Rule.loop a body).run setting enter s
        = (((body b).run setting enter t).1.1, ((body b).run setting enter t).2) := by
  induction hn : s.left using Nat.strongRecOn generalizing a s with
  | ind n ih =>
    subst hn
    rw [run_loop henter h a hs]
    cases hmore : ((body a).run setting enter s).1.2 with
    | false => exact ⟨a, s, hs, ha, hmore, by simp⟩
    | true =>
      have hv := (reaches_run setting henter (body a) s).valid hs
      simpa using ih _ (h a s hs hmore) hv (hround a s hs ha hmore) rfl

theorem Moves.advancing {body : Rule ν Bool} (h : Moves setting enter body) :
    Advancing setting enter Unit (fun _ => body.andThen fun more => .done ((), more)) :=
  fun _ s hs hmore => h s hs hmore

theorem run_repeated (henter : Steady enter) {body : Rule ν Bool}
    (h : Moves setting enter body) {s : State} (hs : s.Valid) :
    ((repeated body).run setting enter s).2 =
      if (body.run setting enter s).1 then
        ((repeated body).run setting enter (body.run setting enter s).2).2
      else (body.run setting enter s).2 := by
  have hloop := congrArg Prod.snd (run_loop henter h.advancing () hs)
  rw [apply_ite Prod.snd] at hloop
  exact hloop

/-- The last round of a repetition has not asked for more. -/
theorem repeated_last (henter : Steady enter) {body : Rule ν Bool}
    (h : Moves setting enter body) (I : State → Prop)
    (hround : ∀ s, s.Valid → I s → (body.run setting enter s).1 = true →
      I (body.run setting enter s).2)
    {s : State} (hs : s.Valid) (ha : I s) :
    ∃ t, t.Valid ∧ I t ∧ (body.run setting enter t).1 = false ∧
      ((repeated body).run setting enter s).2 = (body.run setting enter t).2 := by
  obtain ⟨_, t, ht, hi, hlast, heq⟩ := loop_last henter h.advancing (fun _ => I)
    (fun _ s => hround s) (a := ()) hs ha
  exact ⟨t, ht, hi, hlast, congrArg Prod.snd heq⟩

/-! ### Lists -/

/-- One round of a list. -/
def itemsRound (closer : Punct) (code : Code) (item : Rule ν Unit) : Rule ν Bool := do
  let closed ← currentIs closer
  let ended ← atEnd
  if closed || ended then return false
  else
    let (_, moved) ← progress item
    if moved then return true
    else
      let recovered ← atRecoveryPoint
      when (!recovered) (skipToken (.listItem code))
      return !recovered

theorem items_eq (closer : Punct) (code : Code) (item : Rule ν Unit) :
    items closer code item = repeated (itemsRound closer code item) := rfl

theorem run_itemsRound (closer : Punct) (code : Code) (item : Rule ν Unit) (s : State) :
    (itemsRound closer code item).run setting enter s =
      if s.kindAt 0 == some (.punct closer) || (s.kindAt 0).isNone then (false, s)
      else if (item.run setting enter s).2.left ≠ s.left then (true, (item.run setting enter s).2)
      else if (item.run setting enter s).2.atRecoveryPoint then
        (false, (item.run setting enter s).2)
      else
        (true,
          ((skipToken (.listItem code)).run setting enter (item.run setting enter s).2).2) := by
  simp only [itemsRound, run_bind, run_currentIs, run_atEnd, run_ite, run_pure, run_progress,
    run_atRecoveryPoint, bne_iff_ne]
  cases (item.run setting enter s).2.atRecoveryPoint <;> rfl

/-! ### All parts of a rule -/

/-- All nodes that the rule may make are of kinds that pass, and all loops in it pass. -/
def Every (node : NodeKind → Prop) (loop : (σ : Type) → (σ → Rule ν (σ × Bool)) → Prop)
    {α : Type} : Rule ν α → Prop
  | .andThen first next => first.Every node loop ∧ ∀ a, (next a).Every node loop
  | .node kind body => node kind ∧ body.Every node loop
  | .group body => body.Every node loop
  | .enclose kind body => node kind ∧ body.Every node loop
  | .within _ body => body.Every node loop
  | .progress body => body.Every node loop
  | .loop _ body => loop _ body ∧ ∀ a, (body a).Every node loop
  | _ => True

theorem Every.mono {node node' : NodeKind → Prop}
    {loop loop' : (σ : Type) → (σ → Rule ν (σ × Bool)) → Prop} (hnode : ∀ k, node k → node' k)
    (hloop : ∀ σ body, loop σ body → loop' σ body) {rule : Rule ν α}
    (h : rule.Every node loop) : rule.Every node' loop' := by
  induction rule with
  | andThen first next ih₁ ih₂ => exact ⟨ih₁ h.1, fun a => ih₂ a (h.2 a)⟩
  | node kind body ih => exact ⟨hnode kind h.1, ih h.2⟩
  | group body ih => exact ih h
  | enclose kind body ih => exact ⟨hnode kind h.1, ih h.2⟩
  | within context body ih => exact ih h
  | progress body ih => exact ih h
  | loop a body ih => exact ⟨hloop _ _ h.1, fun a => ih a (h.2 a)⟩
  | _ => trivial

section Every

variable {node : NodeKind → Prop} {loop : (σ : Type) → (σ → Rule ν (σ × Bool)) → Prop}

@[simp] theorem every_done (a : α) : (Rule.done a : Rule ν α).Every node loop := trivial
@[simp] theorem every_pure (a : α) : (pure a : Rule ν α).Every node loop := trivial
@[simp] theorem every_peek (n : Nat) : (Rule.peek n : Rule ν _).Every node loop := trivial
@[simp] theorem every_ahead (test : List TokenKind → Bool) :
    (Rule.ahead test : Rule ν Bool).Every node loop := trivial
@[simp] theorem every_currentText : (Rule.currentText : Rule ν _).Every node loop := trivial
@[simp] theorem every_currentRange : (Rule.currentRange : Rule ν _).Every node loop := trivial
@[simp] theorem every_atRecoveryPoint :
    (Rule.atRecoveryPoint : Rule ν _).Every node loop := trivial
@[simp] theorem every_bump : (Rule.bump : Rule ν Unit).Every node loop := trivial
@[simp] theorem every_report (problem : Problem) :
    (Rule.report problem : Rule ν Unit).Every node loop := trivial
@[simp] theorem every_requireTemporal :
    (Rule.requireTemporal : Rule ν Unit).Every node loop := trivial
@[simp] theorem every_admitTemporal :
    (Rule.admitTemporal : Rule ν Unit).Every node loop := trivial
@[simp] theorem every_call (symbol : ν) : (Rule.call symbol).Every node loop := trivial

@[simp] theorem every_bind (first : Rule ν α) (next : α → Rule ν β) :
    (first >>= next).Every node loop ↔ first.Every node loop ∧ ∀ a, (next a).Every node loop :=
  Iff.rfl

@[simp] theorem every_andThen (first : Rule ν α) (next : α → Rule ν β) :
    (Rule.andThen first next).Every node loop
      ↔ first.Every node loop ∧ ∀ a, (next a).Every node loop := Iff.rfl

@[simp] theorem every_node (kind : NodeKind) (body : Rule ν α) :
    (Rule.node kind body).Every node loop ↔ node kind ∧ body.Every node loop := Iff.rfl

@[simp] theorem every_enclose (kind : NodeKind) (body : Rule ν α) :
    (Rule.enclose kind body).Every node loop ↔ node kind ∧ body.Every node loop := Iff.rfl

@[simp] theorem every_group (body : Rule ν α) :
    (Rule.group body).Every node loop ↔ body.Every node loop := Iff.rfl

@[simp] theorem every_within (context : Context) (body : Rule ν α) :
    (Rule.within context body).Every node loop ↔ body.Every node loop := Iff.rfl

@[simp] theorem every_progress (body : Rule ν α) :
    (Rule.progress body).Every node loop ↔ body.Every node loop := Iff.rfl

@[simp] theorem every_loop (a : σ) (body : σ → Rule ν (σ × Bool)) :
    (Rule.loop a body).Every node loop ↔ loop σ body ∧ ∀ a, (body a).Every node loop := Iff.rfl

@[simp] theorem every_repeated (body : Rule ν Bool) :
    (repeated body).Every node loop ↔
      loop Unit (fun _ => body.andThen fun more => .done ((), more)) ∧ body.Every node loop := by
  simp [repeated]

@[simp] theorem every_ite (c : Prop) [Decidable c] (yes no : Rule ν α) :
    (if c then yes else no).Every node loop
      ↔ (c → yes.Every node loop) ∧ (¬ c → no.Every node loop) := by
  split <;> simp_all

@[simp] theorem every_when (condition : Bool) (rule : Rule ν Unit) :
    (when condition rule).Every node loop ↔ (condition = true → rule.Every node loop) := by
  simp [when]

@[simp] theorem every_pick (condition : Bool) (yes no : Rule ν α) :
    (pick condition yes no).Every node loop
      ↔ (condition = true → yes.Every node loop) ∧ (condition = false → no.Every node loop) := by
  simp [pick]

@[simp] theorem every_ignore (rule : Rule ν α) :
    (ignore rule).Every node loop ↔ rule.Every node loop := by
  simp [ignore]

@[simp] theorem every_nthPasses (n : Nat) (test : TokenKind → Bool) :
    (nthPasses n test : Rule ν Bool).Every node loop := by simp [nthPasses]

@[simp] theorem every_nthIs (n : Nat) (kind : TokenKind) :
    (nthIs n kind : Rule ν Bool).Every node loop := by simp [nthIs]

@[simp] theorem every_currentIs (kind : TokenKind) :
    (currentIs kind : Rule ν Bool).Every node loop := by simp [currentIs]

@[simp] theorem every_currentIn (kinds : List TokenKind) :
    (currentIn kinds : Rule ν Bool).Every node loop := by simp [currentIn]

@[simp] theorem every_atEnd : (atEnd : Rule ν Bool).Every node loop := by simp [atEnd]

@[simp] theorem every_andAlso (first second : Rule ν Bool) :
    (andAlso first second).Every node loop
      ↔ first.Every node loop ∧ second.Every node loop := by
  simp [andAlso]

@[simp] theorem every_orElse (first second : Rule ν Bool) :
    (orElse first second).Every node loop
      ↔ first.Every node loop ∧ second.Every node loop := by
  simp [orElse]

@[simp] theorem every_eat (kind : TokenKind) : (eat kind : Rule ν Bool).Every node loop := by
  simp [eat]

@[simp] theorem every_tokenNode (kind : NodeKind) :
    (tokenNode kind : Rule ν Unit).Every node loop ↔ node kind := by
  simp [tokenNode]

@[simp] theorem every_skipToken (problem : Problem) :
    (skipToken problem : Rule ν Unit).Every node loop ↔ node .error := by
  simp [skipToken]

end Every

end Rule
end RelLang
