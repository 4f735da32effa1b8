import RelLang.Proofs.Term.Reads

/-!
# Operators are read back

An operator between two operands has a tree of its own if it is a comparison or an
arrow, and is a token otherwise. The readers find the operator in both, with the
negation or the multiplicities that belong to it.
-/

namespace RelLang
namespace Term

/-! ### The trees of operators -/

namespace BinaryOperator

theorem trees_plain (operator : Spelled isPlain) :
    (BinaryOperator.plain operator).link.trees = [leaf operator.token] := by
  have hrow := passes_get operator.passes
  simp only [Bool.and_eq_true, bne_iff_ne] at hrow
  have hcompare : (BinaryOperator.plain operator).link.row.node ≠ .compareExpr := hrow.1.1.2
  have harrow : (BinaryOperator.plain operator).link.row.node ≠ .arrowExpr := hrow.1.2
  rw [Chain.Link.trees, if_neg hcompare, if_neg harrow, tokens_link]
  rfl

theorem trees_compare (negation : Option (Spelled Operator.isNegation))
    (relation : Spelled Operator.isComparison) :
    (BinaryOperator.compare negation relation).link.trees
      = [.node .compareOp ((BinaryOperator.compare negation relation).tokens.map leaf)] := by
  have hrow : (BinaryOperator.compare negation relation).link.row.node = .compareExpr :=
    node_of_isComparison relation.passes
  rw [Chain.Link.trees, if_pos hrow, tokens_link]
  rfl

theorem trees_arrow (left right : Option SideMult) : (BinaryOperator.arrow left right).link.trees
    = [.node .arrowOp ((BinaryOperator.arrow left right).tokens.map leaf)] := by
  have hrow : (BinaryOperator.arrow left right).link.row.node = .arrowExpr := rfl
  rw [Chain.Link.trees, hrow, if_neg nofun, if_pos rfl, tokens_link]
  rfl

/-- The tree of an operator is no expression. -/
theorem filter_trees (operator : BinaryOperator) :
    operator.link.trees.filter (Tree.isOf .expr) = [] := by
  cases operator with
  | plain operator => rw [trees_plain]; rfl
  | compare negation relation => rw [trees_compare]; rfl
  | arrow left right => rw [trees_arrow]; rfl

end BinaryOperator

theorem isNegation_of_isComparison {k : TokenKind} (h : Operator.isComparison k = true) :
    Operator.isNegation k = false := by
  obtain ⟨row, hrow, -⟩ := (Option.any_eq_true _ _).mp h
  exact Operator.isNegation_of_infixRow? hrow

theorem isNegation_of_isTrivia (k : TokenKind) (h : k.isTrivia = true) :
    Operator.isNegation k = false := by
  cases k with
  | keyword | punct => cases h
  | _ => rfl

/-! ### The readers of operators -/

section

variable {v : BinaryExpr} {op : CompareOp} {negation : Option (Spelled Operator.isNegation)}
  {relation : Spelled Operator.isComparison}

/-- The operator of a comparison is its relation, whether or not it is negated. -/
theorem operator_of_words (h : op.words = negation.toList.map (·.token) ++ [relation.token]) :
    CompareOp.operator op = some relation.kind := by
  have htest : (fun k : TokenKind => !k.isTrivia && k != .punct .bang && k != .keyword .notKw)
      = fun k => !k.isTrivia && !Operator.isNegation k := by
    funext k
    rw [Operator.isNegation_eq, Bool.not_or, Bool.and_assoc]
    rfl
  have hrelation : (!relation.token.1.isTrivia && !Operator.isNegation relation.token.1) = true := by
    have hnegation : Operator.isNegation relation.token.1 = false :=
      isNegation_of_isComparison relation.passes
    have htrivia : relation.token.1.isTrivia = false :=
      isTrivia_of_isSignificant relation.significant
    rw [hnegation, htrivia]
    rfl
  have hskip : (negation.toList.map (·.token)).find?
      (fun t => !t.1.isTrivia && !Operator.isNegation t.1) = none := by
    refine List.find?_eq_none.mpr fun t ht => ?_
    obtain ⟨w, -, rfl⟩ := List.mem_map.mp ht
    have hnegation : Operator.isNegation w.token.1 = true := w.passes
    simp [hnegation]
  rw [CompareOp.operator, htest, View.find?_tokenKinds op fun k hk => by rw [hk]; rfl, h,
    List.find?_append, hskip, Option.none_or, List.find?_cons, hrelation]
  rfl

theorem isNegated_of_words (h : op.words = negation.toList.map (·.token) ++ [relation.token]) :
    CompareOp.isNegated op = negation.isSome := by
  have hany : CompareOp.isNegated op = op.words.any fun t => Operator.isNegation t.1 := by
    rw [CompareOp.isNegated, View.hasToken_eq op rfl, View.hasToken_eq op rfl, Bool.eq_iff_iff]
    simp only [Operator.isNegation_eq, Bool.or_eq_true, List.any_eq_true, and_or_left, exists_or]
  have hrelation : Operator.isNegation relation.token.1 = false :=
    isNegation_of_isComparison relation.passes
  rw [hany, h]
  cases negation with
  | none => simp [hrelation]
  | some w =>
    have hnegation : Operator.isNegation w.token.1 = true := w.passes
    simp [hnegation]

theorem read_compare (hop : BinaryExpr.compareOp v = some op)
    (h : op.bare = .node .compareOp ((BinaryOperator.compare negation relation).tokens.map leaf)) :
    BinaryExpr.operator v = some relation.kind ∧
      readCompare v op = some (.compare negation relation) := by
  have hwords : op.words = negation.toList.map (·.token) ++ [relation.token] := by
    rw [View.words, (View.kind_of_bare h).2, words_leaf]
    rfl
  have hoperator : BinaryExpr.operator v = some relation.kind := by
    rw [BinaryExpr.operator, hop]
    exact operator_of_words hwords
  have hnegated : BinaryExpr.isNegated v = negation.isSome := by
    rw [BinaryExpr.isNegated, hop]
    exact isNegated_of_words hwords
  have hne : ∀ t ∈ negation.toList.map (·.token), t.1 ≠ relation.kind := by
    intro t ht heq
    obtain ⟨w, -, rfl⟩ := List.mem_map.mp ht
    have hnegation : Operator.isNegation w.token.1 = true := w.passes
    rw [heq, isNegation_of_isComparison relation.passes] at hnegation
    cases hnegation
  have hrelation : spelled? Operator.isComparison relation.kind op = some relation :=
    spelled?_of_words relation hwords hne
  refine ⟨hoperator, ?_⟩
  rw [readCompare, hoperator, Option.bind_eq_bind, Option.bind_some, hrelation, hnegated]
  cases negation with
  | none => rfl
  | some w =>
    have hfind : op.tokenKinds.find? Operator.isNegation = some w.kind := by
      have hw : Operator.isNegation w.token.1 = true := w.passes
      rw [View.find?_tokenKinds op isNegation_of_isTrivia, hwords]
      simp [hw]
      rfl
    have hnegation : spelled? Operator.isNegation w.kind op = some w := spelled?_first w hwords
    simp [hfind, hnegation]

end

theorem sideMultiplicity?_keyword (m : SideMult) :
    ArrowOp.sideMultiplicity? (.keyword m.val.keyword) = some m.val := by
  obtain ⟨m, hm⟩ := m
  cases m with
  | func | pfunc => exact absurd hm (by decide)
  | lone | some | one | two | set => rfl

/-- Trivia is no multiplicity, on either side of an arrow. -/
theorem sides_filter (ks : List TokenKind) :
    (ks.takeWhile (· != .punct .arrow)).filterMap ArrowOp.sideMultiplicity?
        = ((ks.filter (!·.isTrivia)).takeWhile (· != .punct .arrow)).filterMap
          ArrowOp.sideMultiplicity? ∧
      (ks.dropWhile (· != .punct .arrow)).filterMap ArrowOp.sideMultiplicity?
        = ((ks.filter (!·.isTrivia)).dropWhile (· != .punct .arrow)).filterMap
          ArrowOp.sideMultiplicity? := by
  have htrivia : ∀ k : TokenKind, k.isTrivia = true →
      ArrowOp.sideMultiplicity? k = none ∧ (k != .punct .arrow) = true := by
    intro k hk
    cases k with
    | keyword | punct => cases hk
    | _ => exact ⟨rfl, rfl⟩
  have hall : ∀ ks : List TokenKind, ks.filterMap ArrowOp.sideMultiplicity?
      = (ks.filter (!·.isTrivia)).filterMap ArrowOp.sideMultiplicity? := by
    intro ks
    rw [List.filterMap_filter]
    congr 1
    funext k
    cases hk : k.isTrivia with
    | true => rw [(htrivia k hk).1]; rfl
    | false => rfl
  induction ks with
  | nil => exact ⟨rfl, rfl⟩
  | cons k ks ih =>
    by_cases hk : k.isTrivia = true
    · obtain ⟨hnone, hne⟩ := htrivia k hk
      rw [List.takeWhile_cons, List.dropWhile_cons, if_pos hne, if_pos hne,
        List.filterMap_cons_none hnone, List.filter_cons_of_neg (by simp [hk])]
      exact ih
    · rw [List.filter_cons_of_pos (by simp [hk])]
      by_cases harrow : k = .punct .arrow
      · subst harrow
        exact ⟨rfl, hall ks⟩
      · have hne : (k != .punct .arrow) = true := bne_iff_ne.mpr harrow
        simp only [List.takeWhile_cons, List.dropWhile_cons, hne, if_pos, List.filterMap_cons, ih,
          and_self]

theorem read_arrow {op : ArrowOp} {left right : Option SideMult}
    (h : op.bare = .node .arrowOp ((BinaryOperator.arrow left right).tokens.map leaf)) :
    ArrowOp.operator op = some (.punct .arrow) ∧ readArrow op = some (.arrow left right) := by
  have hwords : op.words = left.toList.map (word ·.val.keyword)
      ++ mark .arrow :: right.toList.map (word ·.val.keyword) := by
    rw [View.words, (View.kind_of_bare h).2, words_leaf]
    rfl
  have hkinds : op.tokenKinds.filter (!·.isTrivia) = op.words.map (·.1) := by
    rw [← View.filter_childTokens, View.tokenKinds, List.filter_map]
    rfl
  have hmults : op.multiplicities = (left.map (·.val), right.map (·.val)) := by
    rw [ArrowOp.multiplicities, (sides_filter _).1, (sides_filter _).2, hkinds, hwords]
    have harrow : ArrowOp.sideMultiplicity? (.punct .arrow) = none := rfl
    cases left <;> cases right <;> simp [word, mark, sideMultiplicity?_keyword, harrow]
  have hside : ∀ m : SideMult, sideMult? m.val = some m := fun m => dif_pos m.property
  constructor
  · rw [ArrowOp.operator, View.find?_tokenKinds op, hwords]
    · cases left <;> rfl
    · intro k hk
      cases k with
      | punct => cases hk
      | _ => rfl
  · rw [readArrow, hmults]
    cases left <;> cases right <;> simp [optional?, hside]

theorem not_isImplication_of_isPlain {k : TokenKind} (h : isPlain k = true) :
    isImplication k = false := by
  obtain ⟨row, hrow, hplain⟩ := (Option.any_eq_true _ _).mp h
  simp only [Bool.and_eq_true, bne_iff_ne] at hplain
  rw [isImplication, hrow, Option.any_some]
  exact beq_false_of_ne hplain.2

theorem BinaryOperator.form_node (operator : BinaryOperator) :
    ExprForm.ofKind? operator.link.row.node = some .binary :=
  (Operator.form_of_row _ (Operator.mem_table_of_infixRow? operator.link.row_eq)).1.mp
    operator.link.binary

theorem form_frontRow (operator : Spelled isFront) :
    ExprForm.ofKind? (frontRow operator).node = some .unary :=
  (Operator.form_of_row _ (Operator.mem_table_of_frontRow? (frontRow_eq operator))).2.1.mp
    (Operator.isFront_of_frontRow? (frontRow_eq operator))

/-! ### Expressions with operators -/

section

variable {β : Type} {f : Expr → Option β} {g : β → Tree} (hf : Inverts f g)
  (hg : ∀ b, (g b).isOf .expr = true)

include hf hg

theorem read_binary {v : BinaryExpr} {operator : BinaryOperator} {lhs rhs : β}
    (h : v.bare = (Shape.binary operator (g lhs) (g rhs)).tree) :
    readBinary f v = some (.binary operator lhs rhs) := by
  have hparts : v.parts = g lhs :: operator.link.trees ++ [g rhs] := (View.kind_of_bare h).2
  have hexprs : v.parts.filter (Tree.isOf .expr) = [g lhs, g rhs] := by
    rw [hparts]
    simp [operator.filter_trees, hg]
  have honly : ∀ kind : NodeKind, ExprForm.ofKind? kind = none →
      v.parts.filter (Tree.isOf (.only kind)) = operator.link.trees.filter (Tree.isOf (.only kind)) := by
    intro kind hkind
    rw [hparts]
    simp [Tree.not_isOf_only (hg _) hkind]
  have hcompare := honly .compareOp rfl
  have harrow := honly .arrowOp rfl
  have hlhs : (BinaryExpr.lhs v).bind f = some lhs := hf.first hexprs
  have hrhs : (BinaryExpr.rhs v).bind f = some rhs := hf.getElem? (by rw [hexprs]; rfl)
  cases operator with
  | plain operator =>
    rw [BinaryOperator.trees_plain] at hcompare harrow hparts
    have hwords : v.words = operator.token :: [] := by
      rw [View.words, hparts, List.cons_append, Tree.words_cons_of_isOf (hg lhs)]
      exact congrArg (operator.token :: ·) (Tree.words_cons_of_isOf (hg rhs) [])
    have hnocompare : BinaryExpr.compareOp v = none := View.first_eq_none hcompare
    have hnoarrow : BinaryExpr.arrowOp v = none := View.first_eq_none harrow
    have hoperator : BinaryExpr.operator v = some operator.kind := by
      rw [BinaryExpr.operator, hnocompare, hnoarrow]
      exact firstOperator_of_words operator hwords
    have hno : isImplication operator.kind = false := not_isImplication_of_isPlain operator.passes
    have hspelled := spelled?_first operator hwords
    simp [readBinary, hlhs, hrhs, hoperator, hnocompare, hnoarrow, hno, hspelled]
  | compare negation relation =>
    rw [BinaryOperator.trees_compare] at hcompare
    obtain ⟨op, hop, hbare⟩ := View.first_of_parts hcompare
    have hop : BinaryExpr.compareOp v = some op := hop
    obtain ⟨hkind, hread⟩ := read_compare hop hbare
    simp [readBinary, hlhs, hrhs, hop, hkind, hread]
  | arrow left right =>
    rw [BinaryOperator.trees_arrow] at hcompare harrow
    obtain ⟨op, hop, hbare⟩ := View.first_of_parts harrow
    have hop : BinaryExpr.arrowOp v = some op := hop
    have hnocompare : BinaryExpr.compareOp v = none := View.first_eq_none hcompare
    obtain ⟨hkind, hread⟩ := read_arrow hbare
    have hoperator : BinaryExpr.operator v = some (.punct .arrow) := by
      rw [BinaryExpr.operator, hnocompare, hop]
      exact hkind
    simp [readBinary, hlhs, hrhs, hop, hnocompare, hoperator, hread]

theorem read_implies {v : BinaryExpr} {operator : Spelled isImplication} {lhs rhs : β}
    {otherwise : Option β}
    (h : v.bare = (Shape.implies operator (g lhs) (g rhs) (otherwise.map g)).tree) :
    readBinary f v = some (.implies operator lhs rhs otherwise) := by
  have hparts := (View.kind_of_bare h).2
  have hexprs : v.parts.filter (Tree.isOf .expr) = g lhs :: g rhs :: otherwise.toList.map g := by
    rw [hparts]
    cases otherwise <;> simp [hg]
  have honly : ∀ kind : NodeKind, ExprForm.ofKind? kind = none →
      v.parts.filter (Tree.isOf (.only kind)) = [] := by
    intro kind hkind
    rw [hparts]
    cases otherwise <;> simp [Tree.not_isOf_only (hg _) hkind]
  have hwords : v.words = operator.token :: (otherwise.map fun _ => word .elseKw).toList := by
    rw [View.words, hparts]
    cases otherwise <;> simp [Tree.words_cons_of_isOf (hg _)]
  have hnocompare : BinaryExpr.compareOp v = none := View.first_eq_none (honly .compareOp rfl)
  have hnoarrow : BinaryExpr.arrowOp v = none := View.first_eq_none (honly .arrowOp rfl)
  have hoperator : BinaryExpr.operator v = some operator.kind := by
    rw [BinaryExpr.operator, hnocompare, hnoarrow]
    exact firstOperator_of_words operator hwords
  have hlhs : (BinaryExpr.lhs v).bind f = some lhs := hf.first hexprs
  have hrhs : (BinaryExpr.rhs v).bind f = some rhs := hf.getElem? (by rw [hexprs]; rfl)
  have hspelled := spelled?_first operator hwords
  have helse : optional? f (BinaryExpr.elseBranch v) = some otherwise := by
    have hkind : (operator.token.1 == TokenKind.keyword .elseKw) = false := by
      refine beq_false_of_ne fun heq => ?_
      rcases kind_of_isImplication operator.passes with hkind | hkind
      · cases hkind.symm.trans heq
      · cases hkind.symm.trans heq
    have hhas : v.hasToken (.keyword .elseKw) = otherwise.isSome := by
      rw [View.hasToken_eq v rfl, hwords]
      cases otherwise <;> simp [hkind, word]
    rw [BinaryExpr.elseBranch, hhas]
    cases otherwise with
    | none => rfl
    | some b => exact optional?_of_bind (hf.getElem? (by rw [hexprs]; rfl))
  simp [readBinary, hlhs, hrhs, hoperator, hnocompare, hnoarrow, operator.passes, hspelled, helse]

theorem read_unary {v : UnaryExpr} {operator : Spelled isFront} {operand : β}
    (h : v.bare = (Shape.unary operator (g operand)).tree) :
    readUnary f v = some (.unary operator operand) := by
  have hparts := (View.kind_of_bare h).2
  have hexprs : v.parts.filter (Tree.isOf .expr) = [g operand] := by
    rw [hparts]
    simp [hg]
  have hwords : v.words = operator.token :: [] := by
    rw [View.words, hparts]
    simp [Tree.words_cons_of_isOf (hg operand)]
  have hoperator : UnaryExpr.operator v = some operator.kind := firstOperator_of_words operator hwords
  have hspelled := spelled?_first operator hwords
  have hoperand : (UnaryExpr.operand v).bind f = some operand := hf.first hexprs
  simp [readUnary, hoperator, hspelled, hoperand]
end

end Term
end RelLang
