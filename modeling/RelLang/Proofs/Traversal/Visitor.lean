import Mathlib.Data.List.Infix
import RelLang.Proofs.Traversal.Walk
import RelLang.Traversal.Visitor

/-!
# What a visit sees

A visit goes over the children of a node from left to right and keeps the value of the
last one. At each node it calls one hook, that of the sort of the node. So a visitor that
writes down the nodes it is called at, and visits the children of all but the error
nodes, writes down what a walk enters outside of error nodes, in the same order.
-/

namespace RelLang

namespace Located

/-- The path leads through an error node to what is below it. -/
def insideError (n : Located) (path : List Nat) : Bool :=
  path.inits.dropLast.any fun front => (n.follow? front).any (·.kind == .error)

@[simp] theorem insideError_nil (n : Located) : n.insideError [] = false := rfl

theorem insideError_cons (n : Located) (i : Nat) (path : List Nat) :
    n.insideError (i :: path)
      = (n.kind == .error || n.childNodes[i]?.any (·.insideError path)) := by
  have hinits : (i :: path).inits.dropLast = [] :: path.inits.dropLast.map (i :: ·) := by
    rw [List.inits_cons, List.map_dropLast]
    exact List.dropLast_cons_of_ne_nil (by cases path <;> simp)
  rw [insideError, hinits, List.any_cons, List.any_map]
  congr 1
  cases hc : n.childNodes[i]? with
  | none => exact List.any_eq_false.mpr fun front _ => by simp [follow?, hc]
  | some c =>
    rw [Option.any_some, insideError]
    congr 1
    funext front
    simp [follow?, hc]

end Located

namespace Visitor

variable {m : Type → Type} {β : Type} [Monad m] [LawfulMonad m]

/-- A visit of trees visits the nodes among them, and keeps the value of the last one. -/
theorem visitTrees_eq (v : Visitor m β) (start : Nat) (before ts : List Tree) (last : β) :
    v.visitTrees start before last ts
      = (Located.nodesIn start before ts).foldlM (fun _ c => v.visit c) last := by
  induction ts generalizing start before last with
  | nil => rfl
  | cons t ts ih =>
    rw [visitTrees]
    cases t with
    | token kind text =>
      rw [visitTree, pure_bind, ih, Located.nodesIn]
    | node kind children =>
      rw [Located.nodesIn, List.foldlM_cons]
      exact bind_congr fun value => ih ..

/-- A visit of a node is what is done at it, given the visits of its children. -/
theorem visit_eq (v : Visitor m β) (n : Located) :
    v.visit n = v.atNode (n.childNodes.foldlM (fun _ c => v.visit c) v.fallback) n := by
  rw [Located.childNodes, ← visitTrees_eq]
  rfl

/-! ### Hooks -/

/-- The hooks of a visitor. -/
inductive Hook where
  | error | paragraph | expr | children
  deriving DecidableEq, Repr

/-- The hook that is called at the nodes of a kind. -/
def hookOf (kind : NodeKind) : Hook :=
  if kind = .error then .error
  else if Category.admits .paragraph kind then .paragraph
  else if Category.admits .expr kind then .expr
  else .children

/-- No node is of two sorts. -/
theorem hookOf_iff (kind : NodeKind) :
    (hookOf kind = .error ↔ kind = .error) ∧
      (hookOf kind = .paragraph ↔ (ParagraphForm.ofKind? kind).isSome = true) ∧
      (hookOf kind = .expr ↔ (ExprForm.ofKind? kind).isSome = true) := by
  cases kind <;> decide

/-- The hooks that are called at a node of a kind, one behind the other, by a visitor whose hooks
for paragraphs and expressions do what is done at other nodes. -/
def hooksOf (kind : NodeKind) : List Hook :=
  match hookOf kind with
  | .paragraph => [.paragraph, .children]
  | .expr => [.expr, .children]
  | hook => [hook]

/-- Writes down the hooks that are called, and at which nodes. -/
def recorder : Visitor (StateM (List (Hook × Located))) Unit where
  fallback := ()
  onChildren visitChildren n := do
    modify (· ++ [(.children, n)])
    visitChildren
  onParagraph otherwise p := do
    modify (· ++ [(.paragraph, p.node)])
    otherwise
  onExpr otherwise e := do
    modify (· ++ [(.expr, e.node)])
    otherwise
  onError n := modify (· ++ [(.error, n)])

/-- At a node its hooks are written down, and then the children are visited if it is no error. -/
theorem run_recorder_atNode (visitChildren : StateM (List (Hook × Located)) Unit) (n : Located)
    (log : List (Hook × Located)) :
    (recorder.atNode visitChildren n).run log
      = if n.kind = .error then ((), log ++ (hooksOf n.kind).map (·, n))
        else visitChildren.run (log ++ (hooksOf n.kind).map (·, n)) := by
  by_cases herror : n.kind = .error
  · rw [if_pos herror, atNode, if_pos herror, hooksOf, hookOf, if_pos herror]
    rfl
  rw [if_neg herror, atNode, if_neg herror, hooksOf, hookOf, if_neg herror]
  by_cases hparagraph : Category.admits .paragraph n.kind = true
  · rw [if_pos hparagraph, Located.as?, dif_pos hparagraph]
    exact congrArg visitChildren.run (List.append_assoc log [(.paragraph, n)] [(.children, n)])
  rw [if_neg hparagraph, Located.as?, dif_neg hparagraph]
  by_cases hexpr : Category.admits .expr n.kind = true
  · rw [if_pos hexpr, Located.as?, dif_pos hexpr]
    exact congrArg visitChildren.run (List.append_assoc log [(.expr, n)] [(.children, n)])
  · rw [if_neg hexpr, Located.as?, dif_neg hexpr]
    rfl

/-- What is written down at nodes that are told, those inside of error nodes left out. -/
def hooksAt (n : Located) (told : List (List Nat × Located)) : List (Hook × Located) :=
  (told.filter fun p => !n.insideError p.1).flatMap fun p => (hooksOf p.2.kind).map (·, p.2)

/-- Inside of an error node nothing is written down, elsewhere what is at the children. -/
theorem hooksAt_transcript (n : Located) :
    hooksAt n (WalkEvent.nodesTold (WalkEvent.transcript n))
      = (hooksOf n.kind).map (·, n) ++ if n.kind = .error then []
        else n.childNodes.flatMap fun c =>
          hooksAt c (WalkEvent.nodesTold (WalkEvent.transcript c)) := by
  have hsplit : WalkEvent.nodesTold (WalkEvent.transcript n)
      = ([], n) :: WalkEvent.nodesTold (WalkEvent.allNotesOf 0 n.start [] n.children) := rfl
  rw [hsplit, hooksAt, List.filter_cons_of_pos (by simp), List.flatMap_cons]
  congr 1
  rw [WalkEvent.nodesTold_allNotesOf, ← Located.childNodes]
  split
  · next herror =>
    rw [List.filter_eq_nil_iff.mpr, List.flatMap_nil]
    intro p hp
    obtain ⟨⟨c, j⟩, -, hp⟩ := List.mem_flatMap.mp hp
    obtain ⟨q, -, rfl⟩ := List.mem_map.mp hp
    simp [Located.insideError_cons, herror]
  · next herror =>
    have hchild : ∀ c ∈ n.childNodes.zipIdx,
        (((WalkEvent.nodesTold (WalkEvent.transcript c.1)).map fun p => (c.2 :: p.1, p.2)).filter
          fun p => !n.insideError p.1).flatMap (fun p => (hooksOf p.2.kind).map (·, p.2))
        = hooksAt c.1 (WalkEvent.nodesTold (WalkEvent.transcript c.1)) := by
      intro c hc
      have hc := List.mem_zipIdx_iff_getElem?.mp hc
      rw [List.filter_map, List.flatMap_map, hooksAt]
      congr 2
      funext p
      simp [Located.insideError_cons, herror, hc]
    rw [List.filter_flatMap, List.flatMap_assoc, List.flatMap_congr hchild,
      ← List.flatMap_map Prod.fst fun c =>
        hooksAt c (WalkEvent.nodesTold (WalkEvent.transcript c)), List.zipIdx_map_fst]

/-- Visiting nodes one after the other, what is written down at them is put one behind the other. -/
theorem run_recorder_foldlM {cs : List Located} {written : Located → List (Hook × Located)}
    (h : ∀ c ∈ cs, ∀ log, (recorder.visit c).run log = ((), log ++ written c))
    (log : List (Hook × Located)) :
    (cs.foldlM (fun _ c => recorder.visit c) ()).run log = ((), log ++ cs.flatMap written) := by
  induction cs generalizing log with
  | nil => exact congrArg _ (List.append_nil log).symm
  | cons c cs ih =>
    have hfirst := h c List.mem_cons_self log
    have hrest := ih (fun d hd => h d (List.mem_cons_of_mem _ hd)) (log ++ written c)
    rw [List.foldlM_cons, StateT.run_bind, hfirst, List.flatMap_cons, ← List.append_assoc]
    exact hrest

/-- A visit writes down the hooks at what a walk enters outside of error nodes. -/
theorem run_recorder_visit (n : Located) (log : List (Hook × Located)) :
    (recorder.visit n).run log
      = ((), log ++ hooksAt n (WalkEvent.nodesTold (WalkEvent.transcript n))) := by
  have hchildren := run_recorder_foldlM fun c (hc : c ∈ n.childNodes) =>
    have := Located.sizeOf_children_lt hc
    run_recorder_visit c
  rw [visit_eq, run_recorder_atNode, hooksAt_transcript]
  split
  · rw [List.append_nil]
  · rw [← List.append_assoc]
    exact hchildren _
termination_by sizeOf n.children

/-! ### Values -/

/-- A visitor with some of the hooks for error nodes, paragraphs and expressions of its own. -/
def overriding (fallback : β) (onParagraph? : Option (m β → View .paragraph → m β))
    (onExpr? : Option (m β → View .expr → m β)) (onError? : Option (Located → m β)) :
    Visitor m β where
  fallback
  onChildren := (plain fallback).onChildren
  onParagraph := onParagraph?.getD (plain fallback).onParagraph
  onExpr := onExpr?.getD (plain fallback).onExpr
  onError := onError?.getD (plain fallback).onError

/-- Goes over a list and keeps what the last entry gives, or a given value if there is none. -/
def keepLast {α : Type} (f : α → m β) (b : β) (as : List α) : m β :=
  match as.getLast? with
  | none => pure b
  | some last => do
    forM as.dropLast fun a => discard (f a)
    f last

theorem discard_bind {α γ : Type} (x : m α) (k : m γ) :
    (discard x >>= fun _ => k) = x >>= fun _ => k := by
  rw [discard, map_const, Function.comp_apply, bind_map_left]

theorem foldlM_bind_const {α γ : Type} (f : α → m β) (b : β) (as : List α) (k : m γ) :
    (as.foldlM (fun _ a => f a) b >>= fun _ => k)
      = forM as (fun a => discard (f a)) >>= fun _ => k := by
  induction as generalizing b with
  | nil => rw [List.foldlM_nil, List.forM_nil, pure_bind, pure_bind]
  | cons a as ih =>
    rw [List.foldlM_cons, List.forM_cons, bind_assoc, bind_assoc, discard_bind]
    exact bind_congr fun b => ih b

theorem foldlM_eq_keepLast {α : Type} (f : α → m β) (b : β) (as : List α) :
    as.foldlM (fun _ a => f a) b = keepLast f b as := by
  induction as using List.reverseRecOn with
  | nil => rfl
  | append_singleton as a _ =>
    rw [List.foldlM_append, keepLast, List.getLast?_concat, List.dropLast_concat]
    simp only [List.foldlM_cons, List.foldlM_nil, bind_pure, foldlM_bind_const]

/-- Where a visitor calls none of its own hooks, the value is that of the last child. -/
theorem visit_overriding (fallback : β) (onParagraph? : Option (m β → View .paragraph → m β))
    (onExpr? : Option (m β → View .expr → m β)) (onError? : Option (Located → m β)) (n : Located)
    (herror : n.kind ≠ .error)
    (hparagraph : onParagraph? = none ∨ (ParagraphForm.ofKind? n.kind).isSome = false)
    (hexpr : onExpr? = none ∨ (ExprForm.ofKind? n.kind).isSome = false) :
    (overriding fallback onParagraph? onExpr? onError?).visit n
      = keepLast (overriding fallback onParagraph? onExpr? onError?).visit fallback
        n.childNodes := by
  rw [visit_eq, foldlM_eq_keepLast, atNode, if_neg herror]
  cases hp : n.as? .paragraph with
  | some p =>
    have hform : (ParagraphForm.ofKind? n.kind).isSome = true :=
      Located.node_of_as? hp ▸ p.admitted
    obtain rfl := hparagraph.resolve_right fun h => Bool.false_ne_true (h.symm.trans hform)
    rfl
  | none =>
    cases he : n.as? .expr with
    | some e =>
      have hform : (ExprForm.ofKind? n.kind).isSome = true := Located.node_of_as? he ▸ e.admitted
      obtain rfl := hexpr.resolve_right fun h => Bool.false_ne_true (h.symm.trans hform)
      rfl
    | none => rfl

/-- A visit and a walk see the same nodes. The hooks are called at the nodes that the walk enters
outside of error nodes, in the same order and at each node once: the hook of its sort, and from
those for paragraphs and expressions the one for the children. Where none of a visitor's own hooks
is called, the value is that of the last child. -/
theorem visit_follows_walk :
    (∀ n : Located, ∃ notes, WalkEvent.replay [] n.walk = some ([], notes) ∧
      ((WalkEvent.nodesTold notes).map Prod.fst).Nodup ∧
      ∀ log, (recorder.visit n).run log = ((), log ++ hooksAt n (WalkEvent.nodesTold notes))) ∧
    (∀ kind, (hookOf kind = .error ↔ kind = .error) ∧
      (hookOf kind = .paragraph ↔ (ParagraphForm.ofKind? kind).isSome = true) ∧
      (hookOf kind = .expr ↔ (ExprForm.ofKind? kind).isSome = true)) ∧
    ∀ (fallback : β) (onParagraph? : Option (m β → View .paragraph → m β))
      (onExpr? : Option (m β → View .expr → m β)) (onError? : Option (Located → m β)) (n : Located),
      n.kind ≠ .error →
      onParagraph? = none ∨ (ParagraphForm.ofKind? n.kind).isSome = false →
      onExpr? = none ∨ (ExprForm.ofKind? n.kind).isSome = false →
      (overriding fallback onParagraph? onExpr? onError?).visit n
        = keepLast (overriding fallback onParagraph? onExpr? onError?).visit fallback
          n.childNodes :=
  ⟨fun n => ⟨_, WalkEvent.replay_walk n, WalkEvent.nodup_transcript n, run_recorder_visit n⟩,
    hookOf_iff, visit_overriding⟩

/-- The value at two paragraphs is that of the second one. -/
theorem visit_two_paragraphs :
    NodeKind.sourceFile ≠ .error ∧ (ParagraphForm.ofKind? .sourceFile).isSome = false ∧
      (overriding 0 (some fun _ p => if p.node.kind = .predDecl then 1 else 2) none none :
        Visitor Id Nat).visit ⟨.sourceFile, [.node .factDecl [], .node .predDecl []], 0, []⟩ = 1 :=
  ⟨by decide, rfl, (visit_follows_walk.2.2 0 _ none none ⟨.sourceFile, _, 0, []⟩ (by decide)
    (.inr rfl) (.inl rfl)).trans rfl⟩

end Visitor
end RelLang
