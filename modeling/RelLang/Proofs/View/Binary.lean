import RelLang.Proofs.Grammar.Fits
import RelLang.View.Expression

/-!
# Operators and operands in views

What the views of a node find, if the node has its parts in place: the operator of
the table row, and the operands.
-/

namespace RelLang

/-- The tree is a node of a category. -/
def Tree.isOf (d : Category) : Tree → Bool
  | .token .. => false
  | .node kind _ => d.admits kind

/-- An expression is no node of a kind that no expression is of. -/
theorem Tree.not_isOf_only {t : Tree} {kind : NodeKind} (ht : t.isOf .expr = true)
    (hkind : ExprForm.ofKind? kind = none) : t.isOf (.only kind) = false := by
  cases t with
  | token k text => cases ht
  | node k children =>
    refine Bool.eq_false_iff.mpr fun h => ?_
    obtain rfl : kind = k := by simpa [Tree.isOf, Category.admits] using h
    rw [Tree.isOf, Category.admits, hkind] at ht
    cases ht

theorem Tree.filter_isOf_solid {d : Category} (hd : d.admits .error = false) (ts : List Tree) :
    (solid ts).filter (isOf d) = ts.filter (isOf d) := by
  rw [solid, List.filter_filter]
  refine List.filter_congr fun t _ => ?_
  cases t with
  | token kind text => rfl
  | node kind children =>
    cases hkind : kind == .error with
    | true =>
      rw [eq_of_beq hkind]
      simp [isOf, hd]
    | false => simp [isOf, isSkipped, hkind]

namespace View

variable {c : Category}

/-- The nodes of a category in a list of trees, as trees. -/
theorem map_tree_filterMap (d : Category) (start : Nat) (before ts : List Tree) :
    ((Located.nodesIn start before ts).filterMap (·.as? d)).map (·.node.tree)
      = ts.filter (Tree.isOf d) := by
  induction ts generalizing start before with
  | nil => rfl
  | cons t ts ih =>
    cases t with
    | token kind text => exact ih _ _
    | node kind children =>
      have hi := ih (start + (Tree.node kind children).width) (.node kind children :: before)
      rw [Located.nodesIn]
      cases hkind : d.admits kind with
      | true =>
        rw [List.filterMap_cons_some (dif_pos hkind), List.map_cons, hi,
          List.filter_cons_of_pos (by exact hkind)]
        rfl
      | false =>
        rw [List.filterMap_cons_none (dif_neg (by simp [hkind])), hi,
          List.filter_cons_of_neg (by simp [Tree.isOf, hkind])]

/-- The children of a category, as trees. -/
theorem map_tree_all (d : Category) (v : View c) :
    (v.all d).map (·.node.tree) = v.node.children.filter (Tree.isOf d) :=
  map_tree_filterMap d v.node.start [] v.node.children

theorem tokenKinds_eq (v : View c) : v.tokenKinds = Tree.tokenKinds v.node.children := by
  rw [tokenKinds, Located.childTokens, List.map_filterMap, Tree.tokenKinds]
  congr 1
  funext t
  cases t <;> rfl

/-- A child that a view finds is a child of the node. -/
theorem node_mem_childNodes_of_mem_all {d : Category} {v : View c} {w : View d}
    (h : w ∈ v.all d) : w.node ∈ v.node.childNodes := by
  obtain ⟨n, hn, ha⟩ := List.mem_filterMap.mp h
  exact Located.node_of_as? ha ▸ hn

end View

/-- The row of the operator of a binary node. -/
def BinaryExpr.row? (v : BinaryExpr) : Option OperatorRow := v.operator.bind Operator.infixRow?

/-- The row of the operator of a unary node. -/
def UnaryExpr.row? (v : UnaryExpr) : Option OperatorRow := v.operator.bind Operator.frontRow?

theorem Tree.AtLeast.isOf {level : Nat} {t : Tree} (h : t.AtLeast level) :
    t.isOf .expr = true := by
  cases t with
  | token kind text => cases h
  | node kind children => exact h.1

theorem Tree.Before.isOf {level : Nat} {t : Tree} (h : t.Before level) : t.isOf .expr = true := by
  cases t with
  | token kind text => cases h
  | node kind children => exact h.1

/-- An operator is one token, or the node of a comparison or of an arrow. -/
theorem Tree.operator?_cases {t : Tree} {k : TokenKind} (h : t.operator? = some k) :
    (∃ text, t = .token k text) ∨ (∃ children, t = .node .compareOp children) ∨
      ∃ children, t = .node .arrowOp children := by
  unfold operator? at h
  split at h
  · obtain rfl := Option.some.inj h
    exact .inl ⟨_, rfl⟩
  · exact .inr (.inl ⟨_, rfl⟩)
  · exact .inr (.inr ⟨_, rfl⟩)
  · cases h

namespace BinaryParts

variable {v : BinaryExpr} {behind : List (TokenKind × String)}

/-- The operands in their order. -/
theorem map_tree_exprs (p : BinaryParts v.node.kind v.node.children behind) :
    v.exprs.map (·.node.tree) = p.lhs :: p.rhs :: p.tail.filter (Tree.isOf .expr) := by
  obtain ⟨k, hk, -⟩ := Option.bind_eq_some_iff.mp p.row_eq
  have hop : p.op.isOf .expr = false := by
    obtain ⟨_, h⟩ | ⟨_, h⟩ | ⟨_, h⟩ := Tree.operator?_cases hk <;> rw [h] <;> rfl
  rw [View.exprs, View.map_tree_all, ← Tree.filter_isOf_solid rfl, p.solid_eq,
    List.filter_cons_of_pos p.lhs_fits.isOf, List.filter_cons_of_neg (by simp [hop]),
    List.filter_cons_of_pos p.rhs_fits.isOf]

theorem lhs_eq (p : BinaryParts v.node.kind v.node.children behind) :
    v.lhs.map (·.node.tree) = some p.lhs := by
  rw [BinaryExpr.lhs, View.expr, View.first_eq_head?, ← List.head?_map]
  exact congrArg List.head? p.map_tree_exprs

theorem rhs_eq (p : BinaryParts v.node.kind v.node.children behind) :
    v.rhs.map (·.node.tree) = some p.rhs := by
  rw [BinaryExpr.rhs, ← List.getElem?_map, p.map_tree_exprs]
  rfl

/-- What stands behind the `else`, if there is one. -/
theorem elseBranch_eq (p : BinaryParts v.node.kind v.node.children behind) :
    (p.tail = [] ∧ v.elseBranch = none) ∨
      ∃ text branch, p.tail = [.token (.keyword .elseKw) text, branch] ∧
        branch.AtLeast p.row.operandLevel ∧ v.elseBranch.map (·.node.tree) = some branch := by
  have hexprs : (v.exprs[2]?).map (·.node.tree) = (p.tail.filter (Tree.isOf .expr)).head? := by
    rw [← List.getElem?_map, p.map_tree_exprs, List.head?_eq_getElem?]
    rfl
  obtain ⟨htail, -⟩ | ⟨text, branch, htail, hbranch⟩ := p.tail_fits
  · refine .inl ⟨htail, ?_⟩
    rw [htail] at hexprs
    have hnone : v.exprs[2]? = none := Option.map_eq_none_iff.mp hexprs
    rw [BinaryExpr.elseBranch, hnone, ite_self]
  · refine .inr ⟨text, branch, htail, hbranch, ?_⟩
    have helse : v.hasToken (.keyword .elseKw) = true := by
      have hmem : Tree.token (.keyword .elseKw) text ∈ Tree.solid v.node.children := by
        rw [p.solid_eq, htail]
        simp
      rw [View.hasToken, View.tokenKinds_eq, List.contains_iff_mem]
      exact List.mem_filterMap.mpr ⟨_, (List.mem_filter.mp hmem).1, rfl⟩
    rw [BinaryExpr.elseBranch, if_pos helse, hexprs, htail]
    rw [List.filter_cons_of_neg (by simp [Tree.isOf]), List.filter_cons_of_pos hbranch.isOf]
    rfl

/-- Only the operator can be a node that no expression is. -/
theorem map_tree_first (p : BinaryParts v.node.kind v.node.children behind) (kind : NodeKind)
    (hexpr : ExprForm.ofKind? kind = none) (herror : kind ≠ .error) :
    (v.first (.only kind)).map (·.node.tree)
      = if p.op.isOf (.only kind) then some p.op else none := by
  have hno : ∀ {t : Tree}, t.isOf .expr = true → t.isOf (.only kind) = false :=
    fun ht => Tree.not_isOf_only ht hexpr
  have htail : p.tail.filter (Tree.isOf (.only kind)) = [] := by
    obtain ⟨h, -⟩ | ⟨text, branch, h, hbranch⟩ := p.tail_fits
    · rw [h]
      rfl
    · rw [h, List.filter_cons_of_neg (by simp [Tree.isOf]),
        List.filter_cons_of_neg (by simp [hno hbranch.isOf])]
      rfl
  have hsolid : (Category.only kind).admits .error = false := by
    simpa [Category.admits] using herror
  rw [View.first_eq_head?, ← List.head?_map, View.map_tree_all, ← Tree.filter_isOf_solid hsolid,
    p.solid_eq, List.filter_cons_of_neg (by simp [hno p.lhs_fits.isOf]), List.filter_cons]
  rw [List.filter_cons_of_neg (by simp [hno p.rhs_fits.isOf]), htail]
  split <;> rfl

/-- The operator that the view finds is that of the row. -/
theorem operator_eq (p : BinaryParts v.node.kind v.node.children behind) :
    v.operator = p.op.operator? := by
  obtain ⟨k, hk, hrow⟩ := Option.bind_eq_some_iff.mp p.row_eq
  have hcompare := p.map_tree_first .compareOp rfl (by decide)
  have harrow := p.map_tree_first .arrowOp rfl (by decide)
  obtain ⟨text, hop⟩ | ⟨children, hop⟩ | ⟨children, hop⟩ := Tree.operator?_cases hk
  · -- One token: it is the first that is no trivia, as the left operand is a node.
    rw [hop] at hcompare harrow
    have hnocompare : v.compareOp = none := Option.map_eq_none_iff.mp hcompare
    have hnoarrow : v.arrowOp = none := Option.map_eq_none_iff.mp harrow
    have htrivia := Operator.isTrivia_of_infixRow? hrow
    have hlhs : ∃ kind children, p.lhs = .node kind children := by
      have hfits := p.lhs_fits
      cases hl : p.lhs with
      | token kind text =>
        rw [hl] at hfits
        cases hfits
      | node kind children => exact ⟨kind, children, rfl⟩
    obtain ⟨kind, children, hlhs⟩ := hlhs
    have hfirst : v.firstOperator = some k := by
      rw [View.firstOperator, View.tokenKinds_eq,
        ← Tree.find?_tokenKinds_solid (by simp), p.solid_eq, hlhs, hop]
      exact List.find?_cons_of_pos (by simp [htrivia])
    rw [BinaryExpr.operator, hnocompare, hnoarrow, hop]
    exact hfirst
  · rw [hop] at hcompare
    obtain ⟨w, hw, hnode⟩ := Option.map_eq_some_iff.mp hcompare
    have hcompareOp : v.compareOp = some w := hw
    have hchildren : w.node.children = children := (Tree.node.inj hnode).2
    rw [BinaryExpr.operator, hcompareOp, hop, ← hchildren]
    exact congrArg (List.find? _) (View.tokenKinds_eq w)
  · rw [hop] at hcompare harrow
    have hnocompare : v.compareOp = none := Option.map_eq_none_iff.mp hcompare
    obtain ⟨w, hw, hnode⟩ := Option.map_eq_some_iff.mp harrow
    have harrowOp : v.arrowOp = some w := hw
    have hchildren : w.node.children = children := (Tree.node.inj hnode).2
    rw [BinaryExpr.operator, hnocompare, harrowOp, hop, ← hchildren]
    exact congrArg (List.find? _) (View.tokenKinds_eq w)

theorem row?_eq (p : BinaryParts v.node.kind v.node.children behind) : v.row? = some p.row := by
  rw [BinaryExpr.row?, p.operator_eq]
  exact p.row_eq

end BinaryParts

/-- The operator in front is the first token that is no trivia. -/
theorem UnaryParts.row?_eq {v : UnaryExpr} (p : UnaryParts v.node.kind v.node.children) :
    v.row? = some p.row := by
  have htrivia := Operator.isTrivia_of_frontRow? p.row_eq
  have hfirst : v.operator = some p.operator := by
    rw [UnaryExpr.operator, View.firstOperator, View.tokenKinds_eq,
      ← Tree.find?_tokenKinds_solid (by simp), p.solid_eq]
    exact List.find?_cons_of_pos (by simp [htrivia])
  rw [UnaryExpr.row?, hfirst]
  exact p.row_eq

end RelLang
