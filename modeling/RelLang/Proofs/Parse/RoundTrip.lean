import RelLang.Proofs.Term.Derives
import RelLang.Proofs.Term.ReadBack

/-!
# Written expressions are read as what they are

An abstract expression that is written with parentheses around all parts that have
parts, and with one blank between its tokens, is accepted, and the views find all of
it in the tree. The limit for nested expressions leaves room for a height of 128.
-/

namespace RelLang.Term

/-- The tokens of the text of an expression are valid. -/
theorem valid_tokens {n : Nat} (e : Term n) : ∀ w ∈ e.tokens, w.1 ≠ .invalid := by
  intro w hw hinvalid
  have hsignificant := (allWords_tokens e w hw).2
  rw [hinvalid] at hsignificant
  cases hsignificant

/-- The text of an expression that is not too high is read as the tree of the expression. -/
theorem ok_print {n : Nat} (e : Term n) (hn : 2 * n ≤ nestingLimit) :
    (Parse.ofText {} .oneExpression e.print).ok = true ∧
      (Parse.ofText {} .oneExpression e.print).tree.bare = .node .exprRoot [e.tree] := by
  have hleaves : Tree.leavesAll [e.tree] = e.tokens := by
    rw [Tree.leavesAll_singleton, leaves_tree]
  have htokens : (significantTokens e.print).map Token.toPair = Tree.leavesAll [e.tree] := by
    rw [map_toPair_significantTokens, words_print, hleaves]
  have hvalid : ∀ w ∈ Tree.leavesAll [e.tree], w.1 ≠ .invalid := hleaves ▸ valid_tokens e
  have hderives : (Form.ofEntry .oneExpression).Derives (2 * n) [e.tree] [] :=
    (derives_tree e).1.then_look rfl
  exact Parse.ok_of_leaves htokens hvalid hderives (.inl hn)

/-- The text of an expression of no more than the height 128 is accepted, and the expression is
read back from the tree, of which all parentheses are stripped. -/
theorem read_print {n : Nat} (e : Term n) (hn : n ≤ 128) :
    (Parse.ofText {} .oneExpression e.print).ok = true ∧
      (Parse.ofText {} .oneExpression e.print).expression?.bind (read n) = some e := by
  have hlimit : 2 * n ≤ nestingLimit := by
    show 2 * n ≤ 256
    omega
  obtain ⟨hok, hbare⟩ := ok_print e hlimit
  obtain ⟨v, hv, htree⟩ := Parse.expression?_of_bare hbare (isOf_tree e)
  refine ⟨hok, ?_⟩
  rw [hv, Option.bind_some]
  exact read_of_bare v e (.inl htree)

/-- `all disj x, y: lone this/A | x != -3` -/
def distinct : Term 3 :=
  let x : Ident := ⟨.ident, "x", rfl, rfl, Lexer.lexemes_eq _⟩
  let y : Ident := ⟨.ident, "y", rfl, rfl, Lexer.lexemes_eq _⟩
  let sort : Term 2 := .nameRef ⟨true, ⟨⟨.ident, "A", rfl, rfl, Lexer.lexemes_eq _⟩, []⟩⟩
  let name : Term 1 := .nameRef ⟨false, ⟨⟨.ident, "x", rfl, rfl, Lexer.lexemes_eq _⟩, []⟩⟩
  let number : Term 1 := .const ⟨.number (-3), by decide⟩
  let body : Term 2 := .binary (.compare (some ⟨.punct .bang, "!", rfl, rfl, Lexer.lexemes_eq _⟩)
    ⟨.punct .eq, "=", rfl, rfl, Lexer.lexemes_eq _⟩) name number
  .quantified .all ⟨⟨true, ⟨x, [y]⟩, some ⟨.lone, by decide⟩, sort⟩, []⟩ body

/-- The declaration has its multiplicity, and the name its `this/`. -/
theorem read_print_distinct :
    distinct.print = "all disj x , y : lone this / A | ( x ! = ( - 3 ) )" ∧
    (Parse.ofText {} .oneExpression distinct.print).ok = true ∧
      (Parse.ofText {} .oneExpression distinct.print).expression?.bind (read 3) = some distinct :=
  ⟨by cbv, read_print distinct (by decide)⟩

end RelLang.Term
