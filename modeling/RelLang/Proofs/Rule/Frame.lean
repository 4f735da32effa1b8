import RelLang.Proofs.Rule.Look

/-!
# What rules do behind trees

A rule is *framed* if what it makes of a state does not depend on the trees in front: it makes
the same behind any trees as behind none. Only a rule that puts a node around the trees in front
of it is not.
-/

namespace RelLang.Rule

variable {ν α β : Type} {setting : Setting} {enter : ν → State → Bool × State}

/-- The state with other trees in front. -/
def behindTrees (trees : List Tree) (run : α × State) : α × State :=
  (run.1, { run.2 with siblings := run.2.siblings ++ trees })

/-- Does the same behind any trees as behind none. -/
def Framed (setting : Setting) (enter : ν → State → Bool × State) (rule : Rule ν α) : Prop :=
  ∀ s : State, rule.run setting enter s
    = behindTrees s.siblings (rule.run setting enter { s with siblings := [] })

namespace Framed

theorem ofLooking {rule : Rule ν α} {value : State → α}
    (h : ∀ s, rule.run setting enter s = (value s, s))
    (hvalue : ∀ s : State, value { s with siblings := [] } = value s) :
    Framed setting enter rule := by
  intro s
  rw [h, h, hvalue]
  rfl

theorem pure (a : α) : Framed setting enter (Pure.pure a : Rule ν α) :=
  ofLooking (fun _ => rfl) fun _ => rfl

theorem peek (n : Nat) : Framed setting enter (.peek n : Rule ν _) :=
  ofLooking (fun _ => rfl) fun _ => rfl

theorem report (problem : Problem) : Framed setting enter (.report problem : Rule ν Unit) := by
  intro s
  rw [run_report, run_report]
  unfold State.report State.keep
  dsimp only [behindTrees]
  split <;> rfl

theorem bind {first : Rule ν α} {next : α → Rule ν β} (hfirst : Framed setting enter first)
    (hnext : ∀ a, Framed setting enter (next a)) : Framed setting enter (first >>= next) := by
  intro s
  rw [run_bind, run_bind, hfirst s, hnext, hnext _ (first.run setting enter _).2]
  simp only [behindTrees, List.append_assoc]

theorem ite {c : Prop} [Decidable c] {yes no : Rule ν α} (hyes : Framed setting enter yes)
    (hno : Framed setting enter no) : Framed setting enter (if c then yes else no) := by
  split
  · exact hyes
  · exact hno

theorem «when» {condition : Bool} {rule : Rule ν Unit} (hrule : Framed setting enter rule) :
    Framed setting enter (when condition rule) :=
  ite hrule (pure ())

theorem ignore {rule : Rule ν α} (hrule : Framed setting enter rule) :
    Framed setting enter (Rule.ignore rule) :=
  bind hrule fun _ => pure ()

theorem group (body : Rule ν α) : Framed setting enter (.group body) := by
  intro s
  simp [run, behindTrees, State.attachPending]

theorem node (kind : NodeKind) (body : Rule ν α) : Framed setting enter (.node kind body) := by
  intro s
  simp [run_node, behindTrees, State.attachPending]

end Framed
end RelLang.Rule
