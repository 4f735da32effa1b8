import RelLang.Proofs.Rule.Loop

/-!
# All or nothing

Two ways of saying that a rule takes a token. It *takes from* a place if it puts a token
into the tree wherever the same words are ahead. It is *all or nothing* if it takes a
token, or leaves everything as it is and at most reports something.
-/

namespace RelLang

namespace Rule

variable {ν α β σ : Type} {setting : Setting} {enter : ν → State → Bool × State}

/-- Where nothing is pending, the rule takes a token or does no more than report. -/
def AllOrNothing (setting : Setting) (enter : ν → State → Bool × State) (rule : Rule ν α) : Prop :=
  ∀ s, s.Valid → s.pending = [] → (rule.run setting enter s).2.left < s.left ∨
    ∃ reports, (rule.run setting enter s).2 = { s with reports }

namespace AllOrNothing

/-- What only looks takes nothing. -/
theorem ofLooking {rule : Rule ν α} (h : ∀ s, (rule.run setting enter s).2 = s) :
    AllOrNothing setting enter rule :=
  fun s _ _ => .inr ⟨s.reports, h s⟩

theorem report (problem : Problem) :
    AllOrNothing setting enter (.report problem : Rule ν Unit) :=
  fun s _ _ => .inr (State.report_eq setting problem s)

/-- A state with other reports takes the place of the one in front. -/
theorem bind (henter : Steady enter) {first : Rule ν α} {next : α → Rule ν β}
    (hfirst : AllOrNothing setting enter first) (hnext : ∀ a, AllOrNothing setting enter (next a)) :
    AllOrNothing setting enter (first >>= next) := by
  intro s hs hpending
  rw [run_bind]
  rcases hfirst s hs hpending with htook | ⟨reports, hsame⟩
  · exact .inl (Nat.lt_of_le_of_lt
      (left_run_le setting henter _ (valid_run setting henter first hs)) htook)
  · rw [hsame]
    exact hnext _ { s with reports } (hs.of_eq rfl rfl rfl) hpending

theorem ite {c : Prop} [Decidable c] {yes no : Rule ν α} (hyes : AllOrNothing setting enter yes)
    (hno : AllOrNothing setting enter no) : AllOrNothing setting enter (if c then yes else no) := by
  split
  · exact hyes
  · exact hno

theorem group {body : Rule ν α} (hbody : AllOrNothing setting enter body) :
    AllOrNothing setting enter (.group body) := by
  rintro ⟨pending, words, left, siblings, reports, contexts, temporal, stalled⟩ hs rfl
  rcases hbody ⟨[], words, left, [], reports, contexts, temporal, stalled⟩ (hs.of_eq rfl rfl rfl)
    rfl with htook | ⟨reports', hsame⟩
  · exact .inl htook
  · refine .inr ⟨reports', ?_⟩
    have hadded := congrArg (fun t : State => { t with siblings := t.siblings ++ siblings }) hsame
    exact hadded

/-- A test that only looks, and a rule that takes a token wherever the test holds. -/
theorem guarded {test : Rule ν Bool} {act : Rule ν Unit}
    (htest : ∀ s, (test.run setting enter s).2 = s)
    (hact : ∀ s, s.Valid → (test.run setting enter s).1 = true →
      (act.run setting enter s).2.left < s.left) :
    AllOrNothing setting enter (do let present ← test; when present act) := by
  intro s hs _
  rw [run_bind, htest]
  cases h : (test.run setting enter s).1 with
  | false => exact .inr ⟨s.reports, rfl⟩
  | true => exact .inl (hact s hs h)

end AllOrNothing

/-! ### Rules that take what they begin with -/

/-- Takes a token wherever the same words are ahead. -/
def TakesFrom (setting : Setting) (enter : ν → State → Bool × State) (s : State)
    (rule : Rule ν α) : Prop :=
  ∀ t, t.Valid → t.words = s.words → (rule.run setting enter t).2.left < t.left

theorem kindAt_congr {s t : State} (h : t.words = s.words) (n : Nat) : t.kindAt n = s.kindAt n := by
  rw [State.kindAt, h, State.kindAt]

theorem Takes.from {front : Option TokenKind → Prop} {rule : Rule ν α}
    (h : Takes setting enter front rule) {s : State} (hk : front (s.kindAt 0)) :
    TakesFrom setting enter s rule :=
  fun t ht hwords => h t ht (by rwa [kindAt_congr hwords])

namespace TakesFrom

variable {s : State}

theorem bind (henter : Steady enter) {first : Rule ν α} (h : TakesFrom setting enter s first)
    (next : α → Rule ν β) : TakesFrom setting enter s (first >>= next) :=
  fun t ht hwords => Nat.lt_of_le_of_lt
    (left_run_le setting henter (next _) (valid_run setting henter first ht)) (h t ht hwords)

/-- What stands in front has taken a token itself, or it has left the words as they were. -/
theorem behind (henter : Steady enter) {first : Rule ν α} {next : α → Rule ν β}
    (h : ∀ a, TakesFrom setting enter s (next a)) : TakesFrom setting enter s (first >>= next) := by
  intro t ht hwords
  have hr := reaches_run setting henter first t
  rcases Nat.lt_or_eq_of_le (hr.left_le ht) with htook | hsame
  · exact Nat.lt_of_le_of_lt (left_run_le setting henter (next _) (hr.valid ht)) htook
  · refine Nat.lt_of_lt_of_le (h _ _ (hr.valid ht) ?_) (hr.left_le ht)
    rw [hr.words_eq_of_left_eq ht hsame, hwords]

/-- What is done may depend on what is ahead. -/
theorem seen {first : Rule ν α} {a : α} {next : α → Rule ν β}
    (hfirst : ∀ t : State, t.words = s.words → first.run setting enter t = (a, t))
    (h : TakesFrom setting enter s (next a)) : TakesFrom setting enter s (first >>= next) := by
  intro t ht hwords
  rw [run_bind, hfirst t hwords]
  exact h t ht hwords

theorem peek {n : Nat} {next : Option TokenKind → Rule ν β}
    (h : TakesFrom setting enter s (next (s.kindAt n))) :
    TakesFrom setting enter s (Rule.peek n >>= next) :=
  seen (fun t hwords => by rw [run_peek, kindAt_congr hwords]) h

theorem currentIs {kind : TokenKind} {next : Bool → Rule ν β}
    (h : TakesFrom setting enter s (next (s.kindAt 0 == some kind))) :
    TakesFrom setting enter s (Rule.currentIs kind >>= next) :=
  seen (fun t hwords => by rw [run_currentIs, kindAt_congr hwords]) h

theorem nthPasses {n : Nat} {test : TokenKind → Bool} {next : Bool → Rule ν β}
    (h : TakesFrom setting enter s (next ((s.kindAt n).any test))) :
    TakesFrom setting enter s (Rule.nthPasses n test >>= next) :=
  seen (fun t hwords => by rw [run_nthPasses, kindAt_congr hwords]) h

theorem ite {c : Prop} [Decidable c] {yes no : Rule ν α}
    (hyes : c → TakesFrom setting enter s yes) (hno : ¬ c → TakesFrom setting enter s no) :
    TakesFrom setting enter s (if c then yes else no) := by
  split
  · next hc => exact hyes hc
  · next hc => exact hno hc

theorem ignore {rule : Rule ν α} (h : TakesFrom setting enter s rule) :
    TakesFrom setting enter s (Rule.ignore rule) := h

theorem within {context : Context} {body : Rule ν α} (h : TakesFrom setting enter s body) :
    TakesFrom setting enter s (.within context body) :=
  fun t ht hwords => h { t with contexts := context :: t.contexts } (ht.of_eq rfl rfl rfl) hwords

theorem group {body : Rule ν α} (h : TakesFrom setting enter s body) :
    TakesFrom setting enter s (.group body) := by
  intro t ht hwords
  have ha := State.reaches_attachPending t
  exact Nat.lt_of_lt_of_le
    (h { t.attachPending with siblings := [] } ((ha.valid ht).of_eq rfl rfl rfl) hwords)
    (ha.left_le ht)

theorem node {kind : NodeKind} {body : Rule ν α} (h : TakesFrom setting enter s body) :
    TakesFrom setting enter s (.node kind body) := group h

/-- A loop takes what its first round takes. -/
theorem loop (henter : Steady enter) {a : σ} {body : σ → Rule ν (σ × Bool)}
    (h : TakesFrom setting enter s (body a)) : TakesFrom setting enter s (.loop a body) := by
  intro t ht hwords
  have hround := h t ht hwords
  have hreaches : ∀ a s, State.Reaches s ((body a).run setting enter s).2 :=
    fun a => reaches_run setting henter (body a)
  show (iterate (fun a t => (body a).run setting enter t) (t.left + 1) a t).2.left < t.left
  unfold iterate
  dsimp only
  split
  · have hrest := reaches_iterate hreaches t.left ((body a).run setting enter t).1.1
      ((body a).run setting enter t).2
    exact Nat.lt_of_le_of_lt (hrest.left_le ((hreaches a t).valid ht)) hround
  · exact hround

theorem bump (hk : s.kindAt 0 ≠ none) : TakesFrom setting enter s (.bump : Rule ν Unit) :=
  takes_bump.from hk

theorem eat {kind : TokenKind} (hk : s.kindAt 0 = some kind) :
    TakesFrom setting enter s (eat kind : Rule ν Bool) := by
  intro t ht hwords
  have hkind : t.kindAt 0 = some kind := by rw [kindAt_congr hwords, hk]
  rw [run_eat, hkind, if_pos (beq_self_eq_true _)]
  exact State.left_bump_lt ht (by simp [hkind])

theorem expectToken (henter : Steady enter) {kind : TokenKind} {code : Code}
    {opener : Option ByteRange} (hk : s.kindAt 0 = some kind) :
    TakesFrom setting enter s (expectToken kind code opener : Rule ν Bool) :=
  (eat hk).bind henter _

theorem expect (henter : Steady enter) {kind : TokenKind} (hk : s.kindAt 0 = some kind) :
    TakesFrom setting enter s (expect kind : Rule ν Bool) :=
  expectToken henter hk

end TakesFrom

end Rule
end RelLang
