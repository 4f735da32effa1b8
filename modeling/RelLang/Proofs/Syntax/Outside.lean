import RelLang.Proofs.Syntax.Context

/-!
# What can stand behind an expression

A closing bracket ends an expression, and so does another expression, if it does not
begin with a minus: what begins an expression continues none. A comma ends an
expression too, unless names up to a colon are behind it.
-/

namespace RelLang

open Grammar
open Tree (kinds)

namespace Operator

/-- No operator that stands behind an operand begins an expression, except for the minus. -/
theorem infixRow?_eq_none_of_front : ∀ row ∈ table, row.fixity.isFront = true →
    ∀ k ∈ row.operators, infixRow? k = none ∧ k ≠ .keyword .isKw := by
  decide

theorem not_isComparison_of_startsExpr {k : TokenKind} (h : startsExpr k = true) :
    isComparison k = false ∧ k ≠ .punct .arrow := by
  have hcompare : ∀ row ∈ table, row.level = compareLevel →
      ∀ k ∈ row.operators, startsExpr k = false := by
    decide
  constructor
  · cases hrow : infixRow? k with
    | none => rw [isComparison, hrow, Option.any_none]
    | some row =>
      rw [isComparison, hrow, Option.any_some]
      refine beq_false_of_ne fun hlevel => ?_
      rw [hcompare row (mem_table_of_infixRow? hrow) hlevel k (mem_of_infixRow? hrow).2] at h
      cases h
  · rintro rfl
    cases h

/-- A token that neither compares nor is an arrow is no operator together with the one in front of
it. -/
theorem extension?_of_second {k second : TokenKind} (hrow : infixRow? k = none)
    (hcompare : isComparison second = false) (harrow : second ≠ .punct .arrow) :
    extension? k (some second) = none := by
  have harrow' : (some second == some (.punct .arrow)) = false :=
    beq_false_of_ne fun heq => harrow (Option.some.inj heq)
  rw [extension?, Option.any_some, hcompare, Bool.and_false, if_neg Bool.false_ne_true, harrow',
    Bool.and_false, if_neg Bool.false_ne_true, hrow]
  split <;> rfl

end Operator

namespace Form

theorem extension?_of_atom {k : TokenKind} {second : Option TokenKind} {form : AtomForm}
    (h : AtomForm.ofTokens? (some k) second = some form) (hminus : k ≠ .punct .minus)
    (next : Option TokenKind) : Operator.extension? k next = none := by
  have halone : Operator.decidedAlone k = true ∧ Operator.infixRow? k = none := by
    unfold AtomForm.ofTokens? at h
    split at h
    all_goals first
      | cases h
        done
      | rename_i hk
        obtain rfl := Option.some.inj hk
        first
          | exact absurd rfl hminus
          | decide
  rw [Operator.extension?_of_decidedAlone halone.1, halone.2, Option.map_none]

/-- What begins a binder is no operator. -/
theorem extension?_of_binderAhead {k : TokenKind} {ks : List TokenKind}
    (h : binderAhead (k :: ks) = true) : Operator.extension? k ks[0]? = none := by
  have hquantifiers : ∀ k ∈ Operator.quantifiers, Operator.infixRow? k = none := by decide
  obtain honly | hquantifier := Bool.or_eq_true_iff.mp h
  · have hk : isBinderOnly k = true := honly
    have halone : Operator.decidedAlone k = true ∧ Operator.infixRow? k = none := by
      unfold isBinderOnly at hk
      split at hk
      all_goals first
        | decide
        | cases hk
    rw [Operator.extension?_of_decidedAlone halone.1, halone.2, Option.map_none]
  · obtain ⟨hk, hbehind⟩ := Bool.and_eq_true_iff.mp hquantifier
    have hmem : k ∈ Operator.quantifiers := List.contains_iff_mem.mp hk
    have hnames : declarationAhead ks = true := hbehind
    have hnext : ks[0]? = some (.keyword .disjKw) ∨ ks[0]? = some .ident := by
      unfold declarationAhead at hnames
      split at hnames
      · exact .inl rfl
      · unfold namesAhead at hnames
        split at hnames
        · exact .inr rfl
        · cases hnames
    obtain hnext | hnext := hnext
    · rw [hnext, Operator.extension?_of_second (hquantifiers k hmem) (by decide) (by decide)]
    · rw [hnext, Operator.extension?_of_second (hquantifiers k hmem) (by decide) (by decide)]

/-- What begins an expression is no operator behind another one, except for the minus. -/
theorem extensionOf_operandHead {n : Nat} {ts : List Tree} {behind : List TokenKind}
    (h : Derives n operandHead ts behind)
    (hminus : at? (.punct .minus) (kinds ts ++ behind) = false) :
    Operator.extensionOf (kinds ts ++ behind) = none := by
  obtain ⟨k, ks, hkinds, -⟩ := begins_operandHead _ _ _ h
  have hne : k ≠ .punct .minus := by
    rintro rfl
    rw [hkinds] at hminus
    cases hminus
  have hextension : Operator.extension? k (ks ++ behind)[0]? = none := by
    have hahead := derives_ahead.mp h
    rw [hkinds, List.cons_append] at hahead
    simp only [List.getElem?_cons_zero, List.getElem?_cons_succ] at hahead
    split at hahead
    · next hbinder => exact extension?_of_binderAhead hbinder
    split at hahead
    · next row hrow =>
      obtain ⟨us, rfl, hus⟩ := derives_node.mp hahead
      obtain ⟨us, vs, rfl, htoken, hvs⟩ := derives_append.mp hus
      obtain ⟨k', text, -, rfl⟩ := derives_token.mp htoken
      obtain ⟨second, rest, hrest, hsecond⟩ := begins_exprAt _ _ _ _ hvs
      obtain ⟨hcompare, harrow⟩ := Operator.not_isComparison_of_startsExpr hsecond
      have hks : k = k' ∧ ks = second :: rest := by
        simpa [hrest, eq_comm] using hkinds
      have hfront := Operator.infixRow?_eq_none_of_front row (Operator.mem_table_of_frontRow? hrow)
        (Operator.isFront_of_frontRow? hrow) k (Operator.mem_of_frontRow? hrow)
      rw [hks.2]
      exact Operator.extension?_of_second hfront.1 hcompare harrow
    split at hahead
    · next hform => exact extension?_of_atom hform hne _
    · exact absurd hahead not_derives_never
  have hfirst : (k :: (ks ++ behind))[0]? = some k := rfl
  have hsecond : (k :: (ks ++ behind))[1]? = (ks ++ behind)[0]? := rfl
  rw [hkinds, List.cons_append, Operator.extensionOf, hfirst, hsecond, Option.bind_some, hextension,
    Option.map_none]

end Form

namespace Outside

open Form

variable {n level : Nat} {ts : List Tree} {after : List TokenKind}

/-- Behind an expression that does not begin with a minus. -/
theorem expression (hts : Derives n (exprAt level) ts after)
    (hminus : at? (.punct .minus) (kinds ts ++ after) = false) : Outside (kinds ts ++ after) := by
  obtain ⟨k, ks, hkinds, hk⟩ := begins_exprAt level _ _ _ hts
  have hother : ∀ {k'}, Operator.startsExpr k' = false → at? k' (kinds ts ++ after) = false :=
    fun hk' => (begins_exprAt_ne hk').not_at? hts
  refine ⟨⟨?_, ?_, ?_⟩, ?_⟩
  · obtain ⟨m, -, hts⟩ := derives_part.mp hts
    obtain ⟨ws, xs, hleaves, hhead, -⟩ := (derives_append_look.mp hts).1.extended_head
    have hsplit : kinds ts ++ after = kinds ws ++ (kinds xs ++ after) := by
      rw [kinds, hleaves, List.map_append, List.append_assoc]
      rfl
    rw [hsplit] at hminus ⊢
    exact extensionOf_operandHead hhead hminus
  · exact hother rfl
  · exact hother rfl
  · rw [hkinds, List.cons_append]
    unfold namesEndInColon
    split
    · next heq =>
      obtain ⟨rfl, -⟩ := List.cons.inj heq
      cases hk
    · next heq =>
      obtain ⟨rfl, -⟩ := List.cons.inj heq
      cases hk
    · rfl

/-- A comma with an expression behind it. -/
theorem comma (hts : Derives n (exprAt level) ts after) (hafter : Outside after) :
    Outside (.punct .comma :: (kinds ts ++ after)) := by
  refine ⟨⟨rfl, rfl, rfl⟩, Bool.eq_false_iff.mpr fun hnames => ?_⟩
  have hahead : declarationAhead (kinds ts ++ after) = true := by
    obtain ⟨k, ks, hkinds, -⟩ := begins_exprAt level _ _ _ hts
    rw [hkinds] at hnames ⊢
    cases k with
    | ident => exact hnames
    | _ => cases hnames
  have hbehind := (kinds_of_declarationAhead hts hahead).2
  rw [hafter.names] at hbehind
  cases hbehind

/-- A closing bracket. -/
theorem closer {k : TokenKind} (hk : k ∈ [.punct .rparen, .punct .rbracket, .punct .rbrace])
    (ks : List TokenKind) : Outside (k :: ks) := by
  simp only [List.mem_cons, List.not_mem_nil, or_false] at hk
  rcases hk with rfl | rfl | rfl
  · exact ⟨⟨rfl, rfl, rfl⟩, rfl⟩
  · exact ⟨⟨rfl, rfl, rfl⟩, rfl⟩
  · exact ⟨⟨rfl, rfl, rfl⟩, rfl⟩

end Outside
end RelLang
