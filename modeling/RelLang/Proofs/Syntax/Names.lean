import RelLang.Proofs.Syntax.Closes

/-!
# Names up to a colon

Whether a declaration is ahead is told by names, with commas between them, up to a colon.
Any other token ends them, so that what is behind it tells nothing. An expression is among
them only as a single name: then it is told by what is behind the expression.
-/

namespace RelLang

open Grammar
open Tree (kinds)

namespace Form

variable {n level : Nat} {ts : List Tree} {ks before after : List TokenKind}

/-! ### Tokens that end names -/

/-- Among the tokens is one that is a part of no names. -/
def Fenced (ks : List TokenKind) : Prop := ∃ k ∈ ks, k ∉ [.ident, .punct .comma, .keyword .disjKw]

theorem Fenced.ne_nil (h : Fenced ks) : ks ≠ [] := by
  rintro rfl
  obtain ⟨k, hk, -⟩ := h
  cases hk

theorem Fenced.append (h : Fenced ks) (ls : List TokenKind) : Fenced (ks ++ ls) := by
  obtain ⟨k, hk, hfence⟩ := h
  exact ⟨k, List.mem_append_left ls hk, hfence⟩

theorem Fenced.behind (h : Fenced ks) (ls : List TokenKind) : Fenced (ls ++ ks) := by
  obtain ⟨k, hk, hfence⟩ := h
  exact ⟨k, List.mem_append_right ls hk, hfence⟩

/-- What is part of names is not what ends them. -/
theorem Fenced.tail {k : TokenKind} (h : Fenced (k :: ks))
    (hk : k ∈ [.ident, .punct .comma, .keyword .disjKw]) : Fenced ks := by
  obtain ⟨l, hl, hfence⟩ := h
  obtain rfl | hl := List.mem_cons.mp hl
  · exact absurd hk hfence
  · exact ⟨l, hl, hfence⟩

theorem namesEndInColon_of_fenced (h : Fenced ks) (xs ys : List TokenKind) :
    namesEndInColon (ks ++ xs) = namesEndInColon (ks ++ ys) := by
  fun_induction namesEndInColon ks with
  | case1 ks ih => simpa [namesEndInColon] using ih ((h.tail (by decide)).tail (by decide))
  | case2 ks => rfl
  | case3 ks hcomma hcolon =>
    match ks with
    | [] => exact absurd rfl h.ne_nil
    | [k] =>
      have hne : k ≠ .punct .comma := by
        rintro rfl
        exact (h.tail (by decide)).ne_nil rfl
      cases k <;> simp_all [namesEndInColon]
    | k :: k' :: ks => cases k <;> simp_all [namesEndInColon]

theorem namesAhead_of_fenced (h : Fenced ks) (xs ys : List TokenKind) :
    namesAhead (ks ++ xs) = namesAhead (ks ++ ys) := by
  match ks, h with
  | [], h => exact absurd rfl h.ne_nil
  | k :: ks, h =>
    cases k with
    | ident => exact namesEndInColon_of_fenced (h.tail (by decide)) xs ys
    | _ => rfl

/-- Without a `disj`, a declaration begins with its names. -/
theorem declarationAhead_of_ne_disj {k : TokenKind} (hk : k ≠ .keyword .disjKw)
    (ks : List TokenKind) : declarationAhead (k :: ks) = namesAhead (k :: ks) := by
  unfold declarationAhead
  split
  · next heq => exact absurd (List.cons.inj heq).1 hk
  · rfl

theorem declarationAhead_of_fenced (h : Fenced ks) (xs ys : List TokenKind) :
    declarationAhead (ks ++ xs) = declarationAhead (ks ++ ys) := by
  match ks, h with
  | [], h => exact absurd rfl h.ne_nil
  | k :: ks, h =>
    by_cases hk : k = .keyword .disjKw
    · subst hk
      exact namesAhead_of_fenced (h.tail (by decide)) xs ys
    · rw [List.cons_append, List.cons_append, declarationAhead_of_ne_disj hk,
        declarationAhead_of_ne_disj hk]
      exact namesAhead_of_fenced h xs ys

/-! ### Names that are seen before the tokens end -/

section

variable (hbefore : namesEndInColon before = false)

include hbefore

/-- If other tokens end the names, those that are seen up to a colon are seen whatever is behind. -/
theorem namesEndInColon_of_settled (hks : Settled ks) (h : namesEndInColon (ks ++ before) = true) :
    namesEndInColon (ks ++ after) = true := by
  fun_induction namesEndInColon ks with
  | case1 ks ih => exact ih hks.tail.tail h
  | case2 ks => rfl
  | case3 ks hcomma hcolon =>
    match ks with
    | [] =>
      rw [List.nil_append, hbefore] at h
      cases h
    | [k] =>
      have hk := hks k rfl
      have hne : k ≠ .punct .comma ∧ k ≠ .punct .colon := by
        constructor <;> rintro rfl <;> revert hk <;> decide
      cases k <;> simp_all [namesEndInColon]
    | k :: k' :: ks => cases k <;> simp_all [namesEndInColon]

theorem namesAhead_of_followed (hks : Followed ks) (h : namesAhead (ks ++ before) = true) :
    namesAhead (ks ++ after) = true := by
  match ks, hks with
  | [], hks => exact absurd rfl hks.1
  | k :: ks, hks =>
    cases k with
    | ident => exact namesEndInColon_of_settled hbefore hks.2.tail h
    | _ => cases h

theorem declarationAhead_of_followed (hks : Followed ks)
    (h : declarationAhead (ks ++ before) = true) : declarationAhead (ks ++ after) = true := by
  match ks, hks with
  | [], hks => exact absurd rfl hks.1
  | k :: ks, hks =>
    by_cases hk : k = .keyword .disjKw
    · subst hk
      have hbehind : ks ≠ [] := hks.2.tail_ne_nil (by decide)
      exact namesAhead_of_followed hbefore ⟨hbehind, hks.2.tail⟩ h
    · rw [List.cons_append, declarationAhead_of_ne_disj hk] at h ⊢
      exact namesAhead_of_followed hbefore hks h

end

/-! ### Expressions among names -/

/-- A name that begins an expression has a slash behind it, or it is all of the beginning. -/
theorem kinds_operandHead_ident {behind : List TokenKind} (h : Derives n operandHead ts behind)
    (hkinds : kinds ts = .ident :: ks) : ks = [] ∨ ks[0]? = some (.punct .slash) := by
  have hname : Derives n (node .nameRef qualName) ts behind := by
    have hahead := derives_ahead.mp h
    rw [hkinds, List.cons_append] at hahead
    exact hahead
  obtain ⟨names, rfl, hnames⟩ := derives_node.mp hname
  obtain ⟨us, rfl, hus⟩ := derives_node.mp hnames
  obtain ⟨us, vs, rfl, hthis, hvs⟩ := derives_row_cons.mp hus
  obtain ⟨vs, ws, rfl, hsegment, hws⟩ := derives_row_cons.mp hvs
  obtain ⟨k, text, -, rfl⟩ := derives_token.mp hsegment
  have hus : us = [] := by
    rw [ifAhead, derives_given] at hthis
    split at hthis
    · obtain ⟨us, us', rfl, hus, -⟩ := derives_append.mp hthis
      obtain ⟨k', text', hk', rfl⟩ := derives_token.mp hus
      obtain rfl := List.mem_singleton.mp hk'
      simp at hkinds
    · exact derives_nothing.mp hthis
  subst hus
  obtain ⟨-, rfl⟩ : k = .ident ∧ kinds ws = ks := by simpa using hkinds
  obtain rfl | ⟨us, vs, rfl, hus, -⟩ := derives_many.mp (derives_append_look.mp hws).1
  · exact .inl rfl
  · obtain ⟨-, hus⟩ := derives_look_append.mp hus
    obtain ⟨us, us', rfl, hus, -⟩ := derives_append.mp hus
    obtain ⟨k', text', hk', rfl⟩ := derives_token.mp hus
    obtain rfl := List.mem_singleton.mp hk'
    exact .inr rfl

/-- What extends an expression does not go on with names, whatever is behind the first token. -/
theorem namesEndInColon_of_extension {k : TokenKind}
    (h : (Operator.extensionOf (k :: ks)).isSome = true) (ls : List TokenKind) :
    namesEndInColon (k :: ls) = false := by
  unfold namesEndInColon
  split
  · next heq =>
    rw [(List.cons.inj heq).1] at h
    cases h
  · next heq =>
    rw [(List.cons.inj heq).1] at h
    cases h
  · rfl

/-- An expression that is the first of some names is a single name. -/
theorem kinds_of_namesAhead {behind : List TokenKind}
    (h : Derives n (.extended level operandHead) ts behind)
    (hnames : namesAhead (kinds ts ++ ks) = true) :
    kinds ts = [.ident] ∧ namesEndInColon ks = true := by
  obtain ⟨front, back, hleaves, hhead, hnext⟩ := h.extended_head
  obtain ⟨k, ls, hfront, -⟩ := begins_operandHead _ _ _ hhead
  have hsplit : kinds ts = k :: (ls ++ kinds back) := by
    rw [kinds, hleaves, List.map_append, ← kinds, ← kinds, hfront, List.cons_append]
  rw [hsplit] at hnames ⊢
  obtain rfl : k = .ident := by
    cases k with
    | ident => rfl
    | _ => cases hnames
  have hbehind : namesEndInColon (ls ++ kinds back ++ ks) = true := hnames
  obtain rfl | hslash := kinds_operandHead_ident hhead hfront
  · rw [List.nil_append] at hbehind ⊢
    cases hback : kinds back with
    | nil =>
      rw [hback] at hbehind
      exact ⟨rfl, hbehind⟩
    | cons k ks =>
      rw [hback] at hbehind hnext
      have hno := namesEndInColon_of_extension (hnext.resolve_left (List.cons_ne_nil _ _))
      rw [List.cons_append, hno] at hbehind
      cases hbehind
  · cases ls with
    | nil => cases hslash
    | cons =>
      obtain rfl := Option.some.inj hslash
      cases hbehind

/-- A declaration does not begin with an expression, unless that is a single name. -/
theorem kinds_of_declarationAhead {behind : List TokenKind} (h : Derives n (exprAt level) ts behind)
    (hdeclaration : declarationAhead (kinds ts ++ ks) = true) :
    kinds ts = [.ident] ∧ namesEndInColon ks = true := by
  obtain ⟨k, ls, hkinds, hk⟩ := begins_exprAt level _ _ _ h
  have hne : k ≠ .keyword .disjKw := by
    rintro rfl
    cases hk
  have hnames : namesAhead (kinds ts ++ ks) = true := by
    rwa [hkinds, List.cons_append, declarationAhead_of_ne_disj hne, ← List.cons_append, ← hkinds]
      at hdeclaration
  obtain ⟨m, -, h⟩ := derives_part.mp h
  exact kinds_of_namesAhead (derives_append_look.mp h).1 hnames

end Form
end RelLang
