import RelLang.Tree

/-!
# How deep trees are nested

Some nodes stand for one more level of nesting in the text. The depth of a tree is the
largest number of such nodes on a way down from its root.
-/

namespace RelLang

/-- The node stands for a level of nesting: parentheses, an operator in front of its operand,
bindings or a comprehension. -/
def NodeKind.nests : NodeKind → Bool
  | .parenExpr | .unaryExpr | .multExpr | .cardExpr | .closureExpr | .letExpr | .bindExpr
  | .comprehensionExpr => true
  | _ => false

namespace Tree

mutual

/-- The largest number of levels of nesting on a way down. -/
def depth : Tree → Nat
  | .token _ _ => 0
  | .node kind children => depthAll children + kind.nests.toNat

/-- The depth of the deepest tree of a list. -/
def depthAll : List Tree → Nat
  | [] => 0
  | t :: ts => max t.depth (depthAll ts)

end

/-- The kinds of the nodes on a way down a tree from its root, to a leaf or to where a node is
left off. -/
inductive Path : Tree → List NodeKind → Prop where
  | leaf (kind : TokenKind) (text : String) : Path (.token kind text) []
  | stop (kind : NodeKind) (children : List Tree) : Path (.node kind children) [kind]
  | step (kind : NodeKind) {children : List Tree} {t : Tree} {kinds : List NodeKind}
    (ht : t ∈ children) (h : Path t kinds) : Path (.node kind children) (kind :: kinds)

variable {t : Tree} {ts us : List Tree} {n : Nat}

theorem depthAll_le : depthAll ts ≤ n ↔ ∀ t ∈ ts, t.depth ≤ n := by
  induction ts with
  | nil => simp [depthAll]
  | cons t ts ih => rw [depthAll, Nat.max_le, ih, List.forall_mem_cons]

theorem depthAll_append : depthAll (ts ++ us) ≤ n ↔ depthAll ts ≤ n ∧ depthAll us ≤ n := by
  simp only [depthAll_le, List.forall_mem_append]

theorem depthAll_reverse (ts : List Tree) : depthAll ts.reverse = depthAll ts := by
  have hle : ∀ n, depthAll ts.reverse ≤ n ↔ depthAll ts ≤ n := by
    simp only [depthAll_le, List.mem_reverse, implies_true]
  exact Nat.le_antisymm ((hle _).mpr (Nat.le_refl _)) ((hle _).mp (Nat.le_refl _))

/-- The depth is that of the way down with the most levels on it. -/
theorem Path.countP_le {kinds : List NodeKind} (h : t.Path kinds) :
    kinds.countP (·.nests) ≤ t.depth := by
  induction h with
  | leaf kind text => exact Nat.zero_le _
  | stop kind children =>
    rw [depth, List.countP_cons, List.countP_nil]
    cases kind.nests with
    | true => exact Nat.le_add_left 1 _
    | false => exact Nat.zero_le _
  | @step kind children t kinds ht _ ih =>
    have hchild : t.depth ≤ depthAll children := depthAll_le.mp (Nat.le_refl _) t ht
    rw [depth, List.countP_cons]
    cases kind.nests with
    | true => exact Nat.succ_le_succ (Nat.le_trans ih hchild)
    | false => exact Nat.le_trans ih hchild

end Tree
end RelLang
