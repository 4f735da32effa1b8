import RelLang.Proofs.Rule.Invariant
import RelLang.Proofs.Tree.Depth

/-!
# How deep a rule nests

A rule is *flat* if it makes no node that stands for a level of nesting. What a flat rule puts
into the tree is no deeper than what its calls put there. A node for a level, around what a
flat rule reads, adds one.
-/

namespace RelLang

/-- What has been read of the open node or group is no deeper than that. -/
def State.Within (n : Nat) (s : State) : Prop := Tree.depthAll s.siblings ≤ n

namespace State

variable {s t : State} {n : Nat}

theorem within_of_nil (h : s.siblings = []) : s.Within n := by
  rw [Within, h]
  exact Nat.zero_le _

theorem depth_skippedTree (t : Token) : t.skippedTree.depth = 0 := by
  unfold Token.skippedTree
  split <;> rfl

theorem Within.attachPending (h : s.Within n) : s.attachPending.Within n := by
  refine Tree.depthAll_append.mpr ⟨?_, h⟩
  rw [Tree.depthAll_reverse]
  apply Tree.depthAll_le.mpr
  intro t ht
  obtain ⟨u, -, rfl⟩ := List.mem_map.mp ht
  rw [depth_skippedTree]
  exact Nat.zero_le n

theorem Within.bump (h : s.Within n) : s.bump.Within n := by
  have hattach := h.attachPending
  cases hw : s.words with
  | nil =>
    rw [bump_of_words_eq_nil hw]
    exact hattach
  | cons w ws =>
    rw [bump_of_words_eq_cons hw]
    exact Nat.max_le.mpr ⟨Nat.zero_le n, hattach⟩

theorem Within.report (h : s.Within n) (setting : Setting) (problem : Problem) :
    (s.report setting problem).Within n := by
  obtain ⟨reports, heq⟩ := report_eq setting problem s
  rw [heq]
  exact h

/-- A node goes behind the trees in front of it. -/
theorem Within.node {kind : NodeKind} {children : List Tree} (hs : s.Within n)
    (hchildren : Tree.depthAll children + kind.nests.toNat ≤ n) :
    State.Within n { t with siblings := .node kind children.reverse :: s.siblings } := by
  rw [← Tree.depthAll_reverse children] at hchildren
  exact Nat.max_le.mpr ⟨hchildren, hs⟩

end State

namespace Rule

variable {ν α : Type} {setting : Setting} {enter : ν → State → Bool × State} {n : Nat}

/-- Makes no node that stands for a level of nesting, its calls apart. -/
abbrev Flat (rule : Rule ν α) : Prop := rule.Every (fun kind => kind.nests = false) fun _ _ => True

theorem maintains_group {body : Rule ν α}
    (hbody : Maintains (State.Within n) (body.run setting enter)) :
    Maintains (State.Within n) ((Rule.group body).run setting enter) := by
  intro s hs h
  have hread := hbody { s.attachPending with siblings := [] } hs.opened (State.within_of_nil rfl)
  exact Tree.depthAll_append.mpr ⟨hread, h.attachPending⟩

/-- A node adds a level to what its body reads, if it stands for one. -/
theorem maintains_node {kind : NodeKind} {body : Rule ν α} {m : Nat}
    (hbody : Maintains (State.Within n) (body.run setting enter)) (hm : n + kind.nests.toNat ≤ m) :
    Maintains (State.Within m) ((Rule.node kind body).run setting enter) := by
  intro s hs h
  have hread := hbody { s.attachPending with siblings := [] } hs.opened (State.within_of_nil rfl)
  rw [run_node]
  exact h.attachPending.node (Nat.le_trans (Nat.add_le_add_right hread _) hm)

/-- What is read behind the trees in front is put into one node with them. -/
theorem maintains_enclose {kind : NodeKind} {body : Rule ν α} (hkind : kind.nests = false)
    (hbody : Maintains (State.Within n) (body.run setting enter)) :
    Maintains (State.Within n) ((Rule.enclose kind body).run setting enter) := by
  intro s hs h
  rw [run_enclose]
  refine State.Within.node (s := { s with siblings := [] }) (State.within_of_nil rfl) ?_
  rw [hkind]
  exact hbody s hs h

/-- A flat rule goes no deeper than its calls. -/
theorem Flat.maintains (henter : Steady enter)
    (hcalls : ∀ symbol, Maintains (State.Within n) (enter symbol)) {rule : Rule ν α}
    (hrule : rule.Flat) : Maintains (State.Within n) (rule.run setting enter) := by
  induction rule with
  | done | peek | ahead | currentText | currentRange | atRecoveryPoint =>
    exact .ofLooking fun _ => rfl
  | andThen first next ihfirst ihnext =>
    exact .bind henter (ihfirst hrule.1) fun a => ihnext a (hrule.2 a)
  | bump => exact fun _ _ h => h.bump
  | node kind body ih =>
    apply maintains_node (ih hrule.2)
    rw [hrule.1]
    exact Nat.le_refl n
  | group body ih => exact maintains_group (ih hrule)
  | enclose kind body ih => exact maintains_enclose hrule.1 (ih hrule.2)
  | within context body ih =>
    exact fun s hs h => ih hrule { s with contexts := context :: s.contexts }
      (hs.of_eq rfl rfl rfl) h
  | report problem => exact fun _ _ h => h.report setting problem
  | requireTemporal =>
    intro s _ h
    rw [Rule.run]
    split
    · exact h
    · exact h.report setting _
  | admitTemporal =>
    intro s _ h
    rw [Rule.run]
    split
    · exact h
    · exact h
  | progress body ih => exact .progress (ih hrule)
  | loop a body ih =>
    exact .loop henter (fun _ h => h) a fun b => ih b (hrule.2 b)
  | call symbol => exact hcalls symbol

end Rule
end RelLang
