import RelLang.Proofs.Term.Forms
import RelLang.Proofs.Term.Operators

/-!
# Expressions are read back

Whatever the form of an expression is, it is read back from its tree if its parts are.
With the parentheses stripped, an expression of any height is read back from the tree
that it is written as.
-/

namespace RelLang

open Form (parenTree)

namespace Term

theorem form_of_bare {v : Expr} {kind : NodeKind} {ts : List Tree} {form : ExprForm}
    (h : v.bare = .node kind ts) (hkind : ExprForm.ofKind? kind = some form) : v.form = form := by
  obtain ⟨rfl, -⟩ := View.kind_of_bare h
  simp [Expr.form, hkind]
/-- What is read of a node is read of the node in its category. -/
theorem read_as {d : Category} {v : Expr} {kind : NodeKind} {ts : List Tree} {γ : Type}
    {read : View d → Option γ} {x : γ} (h : v.bare = .node kind ts) (hd : d.admits kind = true)
    (hread : ∀ w : View d, w.bare = .node kind ts → read w = some x) :
    (v.node.as? d).bind read = some x := by
  obtain ⟨w, hw, hbare⟩ := View.as?_of_bare h hd
  rw [hw]
  exact hread w hbare

section

variable {β : Type} {f : Expr → Option β} {g : β → Tree} (hf : Inverts f g)
  (hg : ∀ b, (g b).isOf .expr = true)

include hf hg

/-- If the parts of expressions are read back, so are the expressions. -/
theorem inverts_shape : Inverts (Shape.read f) fun s => (s.map g).tree := by
  intro v s h
  have h : v.bare = (s.map g).tree := h
  rw [Shape.read]
  cases s with
  | binary operator lhs rhs =>
    have hnode := operator.form_node
    rw [form_of_bare h hnode]
    exact read_as h (beq_iff_eq.mpr hnode) fun _ hbare => read_binary hf hg hbare
  | implies operator lhs rhs otherwise =>
    rw [form_of_bare h rfl]
    exact read_as h rfl fun _ hbare => read_implies hf hg hbare
  | unary operator operand =>
    have hnode := form_frontRow operator
    rw [form_of_bare h hnode]
    exact read_as h (beq_iff_eq.mpr hnode) fun _ hbare => read_unary hf hg hbare
  | quantified quantifier decls body =>
    rw [form_of_bare h rfl]
    exact read_as h rfl fun _ hbare => read_quantified hf hg hbare
  | letIn isBind bindings body =>
    have hform : Expr.form v = .letIn := by
      cases isBind with
      | true => exact form_of_bare h rfl
      | false => exact form_of_bare h rfl
    rw [hform]
    exact read_as h (by cases isBind <;> rfl) fun _ hbare => read_letIn hf hg hbare
  | comprehension decls body =>
    rw [form_of_bare h rfl]
    exact read_as h rfl fun _ hbare => read_comprehension hf hg hbare
  | boxJoin target arguments =>
    rw [form_of_bare h rfl]
    exact read_as h rfl fun _ hbare => read_boxJoin hf hg hbare
  | prime operand =>
    rw [form_of_bare h rfl]
    refine read_as h rfl fun w hbare => ?_
    have hexprs : w.parts.filter (Tree.isOf .expr) = [g operand] := by
      rw [(View.kind_of_bare hbare).2]
      simp [hg]
    have hoperand : (PrimeExpr.operand w).bind f = some operand := hf.first hexprs
    rw [hoperand]
    rfl
  | const value =>
    rw [form_of_bare h rfl]
    exact read_as h rfl fun _ hbare => read_const hbare
  | nameRef name =>
    rw [form_of_bare h rfl]
    exact read_as h rfl fun _ hbare => read_name hbare
  | atName name =>
    rw [form_of_bare h rfl]
    exact read_as h rfl fun _ hbare => read_atName hbare
  | atom name =>
    rw [form_of_bare h rfl]
    exact read_as h rfl fun _ hbare => read_atom hbare
  | this => rw [form_of_bare h rfl]
  | sexpr text =>
    rw [form_of_bare h rfl]
    refine read_as h rfl fun w hbare => ?_
    rw [text_of_sexpr hbare]
    rfl
  | block items =>
    rw [form_of_bare h rfl]
    refine read_as h rfl fun w hbare => ?_
    have hexprs : w.parts.filter (Tree.isOf .expr) = items.map g := by
      have hitems : (items.map g).filter (Tree.isOf .expr) = items.map g := by
        refine List.filter_eq_self.mpr fun t ht => ?_
        obtain ⟨b, -, rfl⟩ := List.mem_map.mp ht
        exact hg b
      rw [(View.kind_of_bare hbare).2]
      simp [hitems]
    have hlist : w.exprs.mapM f = some items := hf.mapM hexprs
    rw [hlist]
    rfl

end

/-- An expression in parentheses is the expression. -/
theorem unparenthesized_of_bare {v : Expr} {t : Tree} (ht : t.isOf .expr = true)
    (hparen : t.isOf (.only .parenExpr) = false) (h : v.bare = t ∨ v.bare = parenTree t) :
    ∃ w : Expr, v.unparenthesized = some w ∧ w.bare = t := by
  have hplain : ∀ w : Expr, w.bare = t → w.unparenthesized = some w := by
    intro w hw
    have hkind : w.node.kind ≠ .parenExpr := by
      intro heq
      rw [← hw, View.bare_eq, heq] at hparen
      cases hparen
    rw [Expr.unparenthesized, if_neg hkind]
  rcases h with h | h
  · exact ⟨v, hplain v h, h⟩
  · obtain ⟨hkind, hparts⟩ := View.kind_of_bare h
    have hexprs : v.parts.filter (Tree.isOf .expr) = [t] := by
      rw [hparts, List.filter_cons_of_neg (by simp [Tree.isOf]), List.filter_cons_of_pos ht,
        List.filter_cons_of_neg (by simp [Tree.isOf]), List.filter_nil]
    obtain ⟨w, hw, hbare⟩ := View.first_of_parts hexprs
    refine ⟨w, ?_, hbare⟩
    rw [Expr.unparenthesized, if_pos hkind]
    split
    · next w' hw' =>
      obtain rfl := Option.some.inj (hw.symm.trans hw')
      exact hplain w hbare
    · next hnone => cases hw.symm.trans hnone

/-- The tree of an expression is a node of a form, and not one for parentheses. -/
theorem Shape.form_tree (s : Shape Tree) : ∃ kind ts form, s.tree = .node kind ts ∧
    ExprForm.ofKind? kind = some form ∧ form ≠ .paren := by
  cases s with
  | binary operator lhs rhs => exact ⟨_, _, _, rfl, operator.form_node, nofun⟩
  | unary operator operand => exact ⟨_, _, _, rfl, form_frontRow operator, nofun⟩
  | letIn isBind bindings body =>
    cases isBind with
    | true => exact ⟨_, _, _, rfl, rfl, nofun⟩
    | false => exact ⟨_, _, _, rfl, rfl, nofun⟩
  | _ => exact ⟨_, _, _, rfl, rfl, nofun⟩

theorem Shape.isOf_tree (s : Shape Tree) :
    s.tree.isOf .expr = true ∧ s.tree.isOf (.only .parenExpr) = false := by
  obtain ⟨kind, ts, form, htree, hkind, hform⟩ := s.form_tree
  rw [htree, isOf_node, isOf_node]
  refine ⟨congrArg Option.isSome hkind, beq_false_of_ne ?_⟩
  rintro rfl
  exact hform (Option.some.inj hkind).symm

theorem Shape.writtenTree_cases (s : Shape Tree) :
    s.writtenTree = s.tree ∨ s.writtenTree = parenTree s.tree := by
  by_cases hs : s.isNegative = true
  · exact .inr (if_pos hs)
  · exact .inl (if_neg hs)

/-- There is at most one pair of parentheses around the tree of a part. -/
theorem partTree_cases {n : Nat} (s : Shape (Term n)) :
    partTree (n := n + 1) s = (s.map partTree).tree ∨
      partTree (n := n + 1) s = parenTree (s.map partTree).tree := by
  by_cases hs : s.isAtomic = true
  · have hpart : partTree (n := n + 1) s = (s.map partTree).writtenTree := if_pos hs
    rw [hpart]
    exact (s.map partTree).writtenTree_cases
  · have hpart : partTree (n := n + 1) s = parenTree (s.map partTree).writtenTree := if_neg hs
    have hnegative : (s.map partTree).isNegative = false := by
      cases s with
      | const => exact absurd rfl hs
      | _ => rfl
    rw [hpart, Shape.writtenTree, hnegative]
    exact .inr rfl

theorem isOf_partTree : {n : Nat} → (e : Term n) → e.partTree.isOf .expr = true
  | n + 1, (s : Shape (Term n)) => by
    rcases partTree_cases s with h | h
    · rw [h]
      exact (s.map partTree).isOf_tree.1
    · rw [h]
      rfl

theorem isOf_tree : {n : Nat} → (e : Term n) → e.tree.isOf .expr = true
  | n + 1, (s : Shape (Term n)) => by
    rw [tree_succ]
    rcases (s.map partTree).writtenTree_cases with h | h
    · rw [h]
      exact (s.map partTree).isOf_tree.1
    · rw [h]
      rfl

/-- An expression is read back from its tree, by itself and as a part of another one. -/
theorem read_of_bare : {n : Nat} → (v : Expr) → (e : Term n) →
    v.bare = e.tree ∨ v.bare = e.partTree → read n v = some e
  | n + 1, v, (s : Shape (Term n)), h => by
    have hparts : Inverts (read n) partTree := fun w part hw => read_of_bare w part (.inr hw)
    have hcases : v.bare = (s.map partTree).tree ∨ v.bare = parenTree (s.map partTree).tree := by
      rcases h with h | h
      · rw [h, tree_succ]
        exact (s.map partTree).writtenTree_cases
      · rw [h]
        exact partTree_cases s
    obtain ⟨hexpr, hparen⟩ := (s.map partTree).isOf_tree
    obtain ⟨w, hw, hbare⟩ := unparenthesized_of_bare hexpr hparen hcases
    have hread : Shape.read (read n) w = some s := inverts_shape hparts isOf_partTree w s hbare
    rw [read, hw]
    exact hread

end Term
end RelLang
