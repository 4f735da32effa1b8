import Mathlib
import RelLang.Proofs.Chain.Expression

/-!
# Chains are split at their loosest operators

The operators between operands are read from left to right, each with a level that its
operand must not fall below. The tree is that of the chain, which does not speak of
readings: the loosest operator is its root, and what is in front of that and behind it
are chains again.
-/

namespace RelLang

namespace Chain

/-! ### The tokens of a chain are tokens of the grammar -/

theorem ne_invalid_of_mem_operators : ∀ row ∈ Operator.table, .invalid ∉ row.operators := by
  decide

theorem Link.ne_invalid (l : Link) : ∀ t ∈ l.tokens, t.1 ≠ .invalid := by
  intro t ht hinvalid
  obtain ht | ht := List.mem_append.mp ht
  · obtain ⟨-, h⟩ | ⟨-, h⟩ := l.before_mem t (Option.mem_toList.mp ht)
    · rw [hinvalid] at h
      cases h
    · rw [hinvalid] at h
      revert h
      decide
  obtain rfl | ht := List.mem_cons.mp ht
  · exact ne_invalid_of_mem_operators _ l.mem_table (hinvalid ▸ l.mem_operators)
  · have h := (l.after_mem t (Option.mem_toList.mp ht)).2
    rw [hinvalid] at h
    revert h
    decide

theorem Operand.ne_invalid (x : Operand) : ∀ t ∈ x.tokens, t.1 ≠ .invalid := by
  cases x with
  | name text => simp [tokens]
  | number text => simp [tokens]
  | parenthesized text accepted =>
    have hwhole : ∀ t ∈ tokenize text, t.kind ≠ .invalid := Parse.whole_of_ok rfl accepted
    intro t ht
    obtain rfl | ht := List.mem_cons.mp ht
    · simp
    obtain ht | ht := List.mem_append.mp ht
    · obtain ⟨u, hu, rfl⟩ := List.mem_map.mp ht
      exact hwhole u (List.mem_filter.mp hu).1
    · rw [List.mem_singleton.mp ht]
      simp

theorem ne_invalid (c : Chain) : ∀ t ∈ c.tokens, t.1 ≠ .invalid := by
  intro t ht
  obtain ht | ht := List.mem_append.mp ht
  · exact c.first.ne_invalid t ht
  obtain ⟨s, -, ht⟩ := List.mem_flatMap.mp ht
  obtain ht | ht := List.mem_append.mp ht
  · exact s.1.ne_invalid t ht
  · exact s.2.ne_invalid t ht

end Chain

namespace Parse

open Grammar

/-- A chain is an expression by itself. -/
theorem derives_chain (c : Chain) {d : Nat} (hdepth : ∀ x ∈ c.operands, x.depth ≤ d) :
    (Form.ofEntry .oneExpression).Derives (d + Chain.rights c.rest + Chain.leftLevels 0 + 1)
      [c.tree] [] := by
  have hexpr : (Form.expression 0).Derives (d + Chain.rights c.rest + Chain.leftLevels 0)
      [c.tree] [] :=
    .then_look (c.derives_tree hdepth (fun _ _ => Nat.zero_le _) nofun fun _ _ => rfl) rfl
  exact .then_look (.part hexpr) rfl

/-- Every text whose tokens are those of a chain, trivia apart, is read without a report, and its
tree is that of the chain: unless there are too many operators that group to the right, or an
operand in parentheses is nested too deeply there. -/
theorem chain_tree (c : Chain) (text : String)
    (htext : (significantTokens text).map Token.toPair = c.tokens)
    (hrights : c.rest.countP (·.1.groupsRight) ≤ 240)
    (hdeep : (∃ x ∈ c.operands, x.isParenthesized = true) →
      ∀ d ∈ (ofText {} .oneExpression text).errors, d.code ≠ .tooDeep) :
    (ofText {} .oneExpression text).ok = true ∧
      (ofText {} .oneExpression text).tree.bare = .node .exprRoot [c.tree] := by
  have hleaves : (significantTokens text).map Token.toPair = Tree.leavesAll [c.tree] := by
    rw [htext, Tree.leavesAll_singleton, c.leaves_tree]
  have hvalid : ∀ w ∈ Tree.leavesAll [c.tree], w.1 ≠ .invalid := by
    rw [Tree.leavesAll_singleton, c.leaves_tree]
    exact c.ne_invalid
  have hread : ∀ d, (∀ x ∈ c.operands, x.depth ≤ d) →
      (d + Chain.rights c.rest + Chain.leftLevels 0 + 1 ≤ nestingLimit ∨
        ∀ d ∈ (ofText {} .oneExpression text).errors, d.code ≠ .tooDeep) →
      (ofText {} .oneExpression text).ok = true ∧
        (ofText {} .oneExpression text).tree.bare = .node .exprRoot [c.tree] :=
    fun d hdepth => ok_of_leaves hleaves hvalid (derives_chain c hdepth)
  by_cases hparen : ∃ x ∈ c.operands, x.isParenthesized = true
  · refine hread nestingLimit (fun x _ => ?_) (.inr (hdeep hparen))
    unfold Chain.Operand.depth
    split
    · exact Nat.le_refl _
    · exact Nat.zero_le _
  · refine hread 0 (fun x hx => ?_) (.inl ?_)
    · exact Nat.le_of_eq (if_neg fun h => hparen ⟨x, hx, h⟩)
    · have hlevels : Chain.leftLevels 0 = 11 := by decide
      rw [hlevels, Chain.rights, nestingLimit]
      omega

/-- `a -> one (b) !in 3` -/
def membership : Chain where
  first := .name "a"
  rest :=
    [({ operator := (.punct .arrow, "->"), after := some (.keyword .oneKw, "one")
        row := _, row_eq := rfl, binary := by decide, before_mem := by decide, after_mem := by decide },
      .parenthesized "b" (by rw [ofText_eq]; rfl)),
     ({ before := some (.punct .bang, "!"), operator := (.keyword .inKw, "in")
        row := _, row_eq := rfl, binary := rfl, before_mem := by decide, after_mem := by decide },
      .number "3")]

theorem chain_tree_membership :
    (ofText {} .oneExpression "a -> one (b) !in 3").ok = true ∧
      (ofText {} .oneExpression "a -> one (b) !in 3").tree.bare
        = .node .exprRoot [membership.tree] := by
  have htext : (significantTokens "a -> one (b) !in 3").map Token.toPair = membership.tokens := by
    cbv
  have hrights : membership.rest.countP (·.1.groupsRight) ≤ 240 := by decide
  have herrors : (ofText {} .oneExpression "a -> one (b) !in 3").errors = [] :=
    errors_eq_nil_iff.mpr (by rw [ofText_eq]; rfl)
  exact chain_tree membership _ htext hrights fun _ d hd => by simp [herrors] at hd

end Parse
end RelLang
