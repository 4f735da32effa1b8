import RelLang.Proofs.Rule.Invariant

/-!
# What nodes begin with

When a node or a group begins, the skipped tokens in front of it are put into the tree before it.
So what it holds begins with a token that the grammar sees, and this stays so when a node is put
around everything the group holds. Only outside of all nodes and groups something else may come
first; a rule that begins there is *headed* if it puts no node around what came before it.
-/

namespace RelLang

/-- The first leaf, if there is one, is no trivia. -/
def Tree.Fronted (children : List Tree) : Prop :=
  ∀ leaf, (leavesAll children).head? = some leaf → leaf.1.isTrivia = false

/-- The first leaf of a node, if it has one, is no trivia. -/
def FrontedNode (_ : NodeKind) (children : List Tree) (_ : List (TokenKind × String)) : Prop :=
  Tree.Fronted children

namespace State

variable {s t : State}

/-- What the innermost node or group holds and will hold does not begin with trivia. -/
def Snug (s : State) : Prop := ∀ leaf, s.leaves.head? = some leaf → leaf.1.isTrivia = false

theorem Snug.of_reaches (h : s.Snug) (hr : s.Reaches t) : t.Snug := by
  rw [Snug, hr.leaves]
  exact h

/-- Where a node or group begins. -/
theorem snug_opened (hs : s.Valid) : Snug { s.attachPending with siblings := [] } := by
  intro leaf hleaf
  cases hw : s.words with
  | nil => simp [State.leaves, rest, attachPending, hw, Word.tokens, Tree.leavesAll] at hleaf
  | cons w ws =>
    have hsig := Bool.and_eq_true_iff.mp (hs.token w (by rw [hw]; exact List.mem_cons_self))
    have hfirst : leaf = w.token.toPair := by
      simpa [State.leaves, rest, attachPending, hw, Word.tokens_cons, Tree.leavesAll, eq_comm]
        using hleaf
    rw [hfirst]
    exact (Bool.not_eq_true' _).mp hsig.1

theorem Snug.fronted (h : s.Snug) : Tree.Fronted s.siblings.reverse := by
  intro leaf hleaf
  refine h leaf ?_
  rw [State.leaves, List.head?_append, hleaf]
  rfl

end State

namespace Rule

variable {ν α : Type} {setting : Setting} {enter : ν → State → Bool × State}

theorem fronted_invalid (text : String) (behind : List (TokenKind × String)) :
    FrontedNode .error [.token .invalid text] behind := by
  intro leaf hleaf
  obtain rfl : (TokenKind.invalid, text) = leaf := by
    simpa [Tree.leavesAll, Tree.leaves] using hleaf
  rfl

/-- Puts no node around what stands in front of the rule. -/
def Headed {α : Type} : Rule ν α → Prop
  | .andThen first next => first.Headed ∧ ∀ a, (next a).Headed
  | .enclose _ _ => False
  | .within _ body => body.Headed
  | .progress body => body.Headed
  | .loop _ body => ∀ a, (body a).Headed
  | _ => True

section

variable {β σ : Type}

@[simp] theorem headed_pure (a : α) : (pure a : Rule ν α).Headed := trivial
@[simp] theorem headed_peek (n : Nat) : (Rule.peek n : Rule ν _).Headed := trivial
@[simp] theorem headed_currentRange : (Rule.currentRange : Rule ν _).Headed := trivial
@[simp] theorem headed_atRecoveryPoint : (Rule.atRecoveryPoint : Rule ν _).Headed := trivial
@[simp] theorem headed_bump : (Rule.bump : Rule ν Unit).Headed := trivial
@[simp] theorem headed_report (problem : Problem) :
    (Rule.report problem : Rule ν Unit).Headed := trivial
@[simp] theorem headed_call (symbol : ν) : (Rule.call symbol).Headed := trivial
@[simp] theorem headed_node (kind : NodeKind) (body : Rule ν α) :
    (Rule.node kind body).Headed := trivial
@[simp] theorem headed_group (body : Rule ν α) : (Rule.group body).Headed := trivial

@[simp] theorem headed_bind (first : Rule ν α) (next : α → Rule ν β) :
    (first >>= next).Headed ↔ first.Headed ∧ ∀ a, (next a).Headed := Iff.rfl

@[simp] theorem headed_within (context : Context) (body : Rule ν α) :
    (Rule.within context body).Headed ↔ body.Headed := Iff.rfl

@[simp] theorem headed_progress (body : Rule ν α) :
    (Rule.progress body).Headed ↔ body.Headed := Iff.rfl

@[simp] theorem headed_loop (a : σ) (body : σ → Rule ν (σ × Bool)) :
    (Rule.loop a body).Headed ↔ ∀ a, (body a).Headed := Iff.rfl

@[simp] theorem headed_ite (c : Prop) [Decidable c] (yes no : Rule ν α) :
    (if c then yes else no).Headed ↔ (c → yes.Headed) ∧ (¬ c → no.Headed) := by
  by_cases h : c <;> simp [h]

@[simp] theorem headed_when (condition : Bool) (rule : Rule ν Unit) :
    (when condition rule).Headed ↔ (condition = true → rule.Headed) := by
  cases condition <;> simp [when, Headed]

@[simp] theorem headed_ignore (rule : Rule ν α) : (ignore rule).Headed ↔ rule.Headed :=
  ⟨And.left, fun h => ⟨h, fun _ => trivial⟩⟩

@[simp] theorem headed_nthIs (n : Nat) (kind : TokenKind) :
    (nthIs n kind : Rule ν Bool).Headed := by
  simp [nthIs]

@[simp] theorem headed_nthPasses (n : Nat) (test : TokenKind → Bool) :
    (nthPasses n test : Rule ν Bool).Headed := by
  simp [nthPasses]

@[simp] theorem headed_atEnd : (atEnd : Rule ν Bool).Headed := by
  simp [atEnd]

@[simp] theorem headed_eat (kind : TokenKind) : (eat kind : Rule ν Bool).Headed := by
  simp [eat, currentIs]

@[simp] theorem headed_skipUntil (problem : Problem) (stops : List TokenKind) :
    (skipUntil problem stops : Rule ν Unit).Headed := by
  simp [skipUntil]

@[simp] theorem headed_expectToken (kind : TokenKind) (code : Code) (opener : Option ByteRange) :
    (expectToken kind code opener : Rule ν Bool).Headed := by
  simp [expectToken, skipToken]

end

/-- All nodes that a rule makes are fronted, if it begins in a node or group or is headed. -/
theorem fronted_run (henter : Steady enter)
    (hcalls : ∀ symbol, Maintains (State.Sound FrontedNode) (enter symbol)) (rule : Rule ν α)
    {s : State} (hs : s.Valid) (h : s.Sound FrontedNode) (hfront : s.Snug ∨ rule.Headed) :
    (rule.run setting enter s).2.Sound FrontedNode := by
  induction rule generalizing s with
  | andThen first next ih₁ ih₂ =>
    have hr := reaches_run setting henter first s
    exact ih₂ _ (hr.valid hs) (ih₁ hs h (hfront.imp_right And.left))
      (hfront.imp (·.of_reaches hr) fun hnext => hnext.2 _)
  | bump => exact h.bump fronted_invalid
  | node kind body ih =>
    have hopened := State.snug_opened hs
    have hbody := ih hs.opened (State.sound_of_siblings_eq_nil rfl) (.inl hopened)
    have hr := reaches_run setting henter body { s.attachPending with siblings := [] }
    exact sound_node fronted_invalid henter h rfl hbody (hopened.of_reaches hr).fronted
  | group body ih =>
    have hbody := ih hs.opened (State.sound_of_siblings_eq_nil rfl) (.inl (State.snug_opened hs))
    exact sound_group fronted_invalid henter h hbody
  | enclose kind body ih =>
    have hsnug := hfront.resolve_right id
    have hr := reaches_run setting henter body s
    exact (ih hs h (.inl hsnug)).wrap (hsnug.of_reaches hr).fronted
  | within context body ih =>
    exact (ih (s := { s with contexts := context :: s.contexts }) (hs.of_eq rfl rfl rfl)
      (h.of_eq rfl rfl) hfront).of_eq rfl rfl
  | report problem => exact h.report setting problem
  | requireTemporal =>
    rw [run]
    split
    · exact h
    · exact h.report setting _
  | admitTemporal =>
    rw [run]
    split <;> exact h.of_eq rfl rfl
  | progress body ih => exact ih hs h hfront
  | loop a body ih =>
    have hround (a) : Maintains (fun s => s.Sound FrontedNode ∧ (s.Snug ∨ ∀ a, (body a).Headed))
        ((body a).run setting enter) := fun s hs h =>
      ⟨ih a hs h.1 (h.2.imp_right (· a)),
        h.2.imp_left (·.of_reaches (reaches_run setting henter (body a) s))⟩
    exact (Maintains.loop henter (fun _ h => ⟨h.1.of_eq rfl rfl, h.2⟩) a hround s hs ⟨h, hfront⟩).1
  | call symbol => exact hcalls symbol s hs h
  | _ => exact h

end Rule
end RelLang
