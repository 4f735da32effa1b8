import RelLang.Proofs.Rule.Look

/-!
# Rules that build one node

A rule *builds* a node if all it puts into the tree, next to what was there, is that node, behind
the skipped tokens in front of it. It *encloses* if it leaves one node around everything that was
put into the innermost node or group; as a group it then builds a node.
-/

namespace RelLang.Rule

variable {ν α β : Type} {setting : Setting} {enter : ν → State → Bool × State}
variable {kinds : NodeKind → Bool}

/-- Puts one node of a passing kind behind the trees so far. -/
def Builds (setting : Setting) (enter : ν → State → Bool × State) (kinds : NodeKind → Bool)
    (rule : Rule ν α) : Prop :=
  ∀ s, ∃ kind children, kinds kind = true ∧
    (rule.run setting enter s).2.siblings = .node kind children :: s.attachPending.siblings

/-- Leaves one node of a passing kind, and no trees beside it. -/
def Encloses (setting : Setting) (enter : ν → State → Bool × State) (kinds : NodeKind → Bool)
    (rule : Rule ν α) : Prop :=
  ∀ s, ∃ kind children, kinds kind = true ∧
    (rule.run setting enter s).2.siblings = [.node kind children]

namespace Encloses

theorem enclose {kind : NodeKind} (h : kinds kind = true) (body : Rule ν α) :
    Encloses setting enter kinds (.enclose kind body) :=
  fun _ => ⟨kind, _, h, rfl⟩

/-- What is enclosed stays enclosed when nothing is added. -/
theorem yields {rule : Rule ν α} (h : Encloses setting enter kinds rule) (b : β) :
    Encloses setting enter kinds (rule >>= fun _ => pure b) := h

theorem behind (first : Rule ν α) {next : α → Rule ν β}
    (h : ∀ a, Encloses setting enter kinds (next a)) :
    Encloses setting enter kinds (first >>= next) :=
  fun s => h (first.run setting enter s).1 (first.run setting enter s).2

theorem ite {c : Prop} [Decidable c] {yes no : Rule ν α}
    (hyes : Encloses setting enter kinds yes) (hno : Encloses setting enter kinds no) :
    Encloses setting enter kinds (if c then yes else no) := by
  split
  · exact hyes
  · exact hno

end Encloses

namespace Builds

theorem node {kind : NodeKind} (h : kinds kind = true) (body : Rule ν α) :
    Builds setting enter kinds (.node kind body) :=
  fun _ => ⟨kind, _, h, rfl⟩

theorem group {body : Rule ν α} (h : Encloses setting enter kinds body) :
    Builds setting enter kinds (.group body) := by
  intro s
  obtain ⟨kind, children, hkind, hbody⟩ := h { s.attachPending with siblings := [] }
  exact ⟨kind, children, hkind, congrArg (· ++ s.attachPending.siblings) hbody⟩

theorem ignore {rule : Rule ν α} (h : Builds setting enter kinds rule) :
    Builds setting enter kinds (Rule.ignore rule) := h

end Builds

end RelLang.Rule
