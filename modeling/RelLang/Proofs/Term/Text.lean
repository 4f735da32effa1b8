import Mathlib
import RelLang.Proofs.Term.Basic
import RelLang.Proofs.Token.Spacing

/-!
# The tokens of written expressions

Each token of an abstract expression is one word of its text: between blanks it is
read as what it is.
-/

namespace RelLang

namespace Lexer

/-- A token that is scanned to its end is a word. -/
theorem lexemes_of_scan {c : Char} {cs : List Char} {kind : TokenKind}
    (h : scan c cs = ⟨kind, c :: cs, []⟩) : lexemes (c :: cs) = [⟨kind, c :: cs, []⟩] := by
  rw [lexemes, h, lexemes]

theorem takeWhile_of_all {test : Char → Bool} {cs : List Char} (h : ∀ c ∈ cs, test c = true) :
    cs.takeWhile test = cs ∧ cs.dropWhile test = [] :=
  ⟨List.takeWhile_eq_self_iff.mpr h, List.dropWhile_eq_nil_iff.mpr h⟩

/-- A digit is neither blank nor the start of a word. -/
theorem not_start_of_isDigit {c : Char} (h : isDigit c = true) :
    isSpace c = false ∧ isWordStart c = false := by
  have hbounds : 48 ≤ c.toNat ∧ c.toNat ≤ 57 := by
    simpa [isDigit, Char.le_def, UInt32.le_iff_toNat_le] using h
  constructor
  · refine Bool.eq_false_iff.mpr fun hspace => ?_
    have hcases : (((c = ' ' ∨ c = '\t') ∨ c = '\r') ∨ c = '\n') ∨ c = '\x0c' := by
      simpa [isSpace] using hspace
    rcases hcases with (((rfl | rfl) | rfl) | rfl) | rfl <;> revert hbounds <;> decide
  · refine Bool.eq_false_iff.mpr fun hstart => ?_
    have hcases : (97 ≤ c.toNat ∧ c.toNat ≤ 122 ∨ 65 ≤ c.toNat ∧ c.toNat ≤ 90) ∨ c = '_' := by
      simpa [isWordStart, Char.le_def, UInt32.le_iff_toNat_le] using hstart
    rcases hcases with h | rfl
    · omega
    · revert hbounds
      decide
end Lexer

namespace Term

open Lexer

theorem isWord_spelled {test : TokenKind → Bool} (w : Spelled test) : IsWord w.token :=
  ⟨w.lexes, w.significant⟩

theorem isWord_word (k : Keyword) : IsWord (word k) := by
  refine ⟨?_, rfl⟩
  rw [lexemes_eq]
  cases k <;> rfl

theorem isWord_mark (p : Punct) : IsWord (mark p) := by
  refine ⟨?_, rfl⟩
  rw [lexemes_eq]
  cases p <;> rfl

/-- The digits of a number are one token. -/
theorem isWord_digits (n : Nat) : IsWord (.number, toString n) := by
  have hdigits : ∀ c ∈ (toString n).toList, isDigit c = true := by
    rw [Nat.toString_eq_ofList_toDigits, String.toList_ofList]
    intro c hc
    have hdigit := Nat.isDigit_of_mem_toDigits (by omega) (by omega) hc
    simpa [Char.isDigit, isDigit, Char.le_def] using hdigit
  have hne : (toString n).toList ≠ [] := by
    rw [Nat.toString_eq_ofList_toDigits, String.toList_ofList]
    exact Nat.toDigits_ne_nil
  refine ⟨?_, rfl⟩
  show lexemes (toString n).toList = _
  cases hlist : (toString n).toList with
  | nil => exact absurd hlist hne
  | cons c cs =>
    rw [hlist] at hdigits
    obtain ⟨hc, hcs⟩ := List.forall_mem_cons.mp hdigits
    obtain ⟨htake, hdrop⟩ := takeWhile_of_all hcs
    have hother := not_start_of_isDigit hc
    apply lexemes_of_scan
    unfold scan
    rw [if_neg (by simp [hother.1]), if_neg (by simp [hother.2]), if_pos hc, Lexeme.run, htake, hdrop]
    rfl

/-- A number is the value of its digits. -/
theorem digitsValue_toString (n : Nat) : View.digitsValue (toString n).toList = n := by
  rw [Nat.toString_eq_ofList_toDigits, String.toList_ofList]
  exact Nat.ofDigitChars_toDigits (by omega) (by omega)

/-- All tokens are words. -/
abbrev AllWords (ts : List (TokenKind × String)) : Prop := ∀ t ∈ ts, IsWord t

theorem allWords_append {ts us : List (TokenKind × String)} :
    AllWords (ts ++ us) ↔ AllWords ts ∧ AllWords us := List.forall_mem_append

theorem allWords_cons {t : TokenKind × String} {ts : List (TokenKind × String)} :
    AllWords (t :: ts) ↔ IsWord t ∧ AllWords ts := List.forall_mem_cons

theorem allWords_nil : AllWords [] := nofun

/-- What stands between marks, or is one. -/
theorem mem_separated {α : Type} {sep a : α} {pieces : List (List α)}
    (h : a ∈ separated sep pieces) : a = sep ∨ ∃ piece ∈ pieces, a ∈ piece := by
  cases pieces with
  | nil => cases h
  | cons piece pieces =>
    rcases List.mem_append.mp h with h | h
    · exact .inr ⟨piece, List.mem_cons_self, h⟩
    · obtain ⟨next, hnext, h⟩ := List.mem_flatMap.mp h
      rcases List.mem_cons.mp h with rfl | h
      · exact .inl rfl
      · exact .inr ⟨next, List.mem_cons_of_mem _ hnext, h⟩

theorem allWords_separated {sep : TokenKind × String} (hsep : IsWord sep)
    {tss : List (List (TokenKind × String))} (h : ∀ ts ∈ tss, AllWords ts) :
    AllWords (separated sep tss) := by
  intro t ht
  rcases mem_separated ht with rfl | ⟨ts, hts, ht⟩
  · exact hsep
  · exact h ts hts t ht

theorem allWords_names {test : TokenKind → Bool} {sep : TokenKind × String} (hsep : IsWord sep)
    (names : List (Spelled test)) : AllWords (separated sep (names.map ([·.token]))) := by
  refine allWords_separated hsep fun ts hts => ?_
  obtain ⟨w, -, rfl⟩ := List.mem_map.mp hts
  exact allWords_cons.mpr ⟨isWord_spelled w, allWords_nil⟩

theorem allWords_parenthesized {ts : List (TokenKind × String)} (h : AllWords ts) :
    AllWords (parenthesized ts) :=
  allWords_cons.mpr ⟨isWord_mark .lparen,
    allWords_append.mpr ⟨h, allWords_cons.mpr ⟨isWord_mark .rparen, allWords_nil⟩⟩⟩

theorem allWords_declaration {d : Declaration (List (TokenKind × String))}
    (h : AllWords d.type) : AllWords d.tokens := by
  have hdisj : AllWords (if d.disj then [word .disjKw] else []) := by
    split
    · exact allWords_cons.mpr ⟨isWord_word _, allWords_nil⟩
    · exact allWords_nil
  have hmult : AllWords (d.mult.toList.map (word ·.val.keyword)) :=
    List.forall_mem_map.mpr fun m _ => isWord_word _
  simp only [Declaration.tokens, allWords_append, allWords_cons]
  exact ⟨⟨⟨hdisj, allWords_names (isWord_mark _) _⟩, isWord_mark _, hmult⟩, h⟩

theorem allWords_declarations {ds : List (Declaration (List (TokenKind × String)))}
    (h : ∀ d ∈ ds, AllWords d.type) :
    AllWords (separated (mark .comma) (ds.map (·.tokens))) :=
  allWords_separated (isWord_mark _) (List.forall_mem_map.mpr fun d hd =>
    allWords_declaration (h d hd))

theorem allWords_bindings {bs : List (Binding (List (TokenKind × String)))}
    (h : ∀ b ∈ bs, AllWords b.value) :
    AllWords (separated (mark .comma) (bs.map (·.tokens))) := by
  refine allWords_separated (isWord_mark _) (List.forall_mem_map.mpr fun b hb => ?_)
  exact allWords_cons.mpr ⟨isWord_spelled _, allWords_cons.mpr ⟨isWord_mark _, h b hb⟩⟩

theorem allWords_operator (op : BinaryOperator) : AllWords op.tokens := by
  cases op with
  | plain operator => exact allWords_cons.mpr ⟨isWord_spelled _, allWords_nil⟩
  | compare negation relation =>
    refine allWords_append.mpr ⟨List.forall_mem_map.mpr fun w _ => isWord_spelled w, ?_⟩
    exact allWords_cons.mpr ⟨isWord_spelled _, allWords_nil⟩
  | arrow left right =>
    exact allWords_append.mpr ⟨List.forall_mem_map.mpr fun m _ => isWord_word _,
      allWords_cons.mpr ⟨isWord_mark _, List.forall_mem_map.mpr fun m _ => isWord_word _⟩⟩

theorem allWords_const (c : Constant) : AllWords (constTokens c) := by
  cases c with
  | none | univ | iden => exact allWords_cons.mpr ⟨isWord_word _, allWords_nil⟩
  | number n =>
    have hsign : AllWords (if n < 0 then [mark .minus] else []) := by
      split
      · exact allWords_cons.mpr ⟨isWord_mark _, allWords_nil⟩
      · exact allWords_nil
    exact allWords_append.mpr ⟨hsign, allWords_cons.mpr ⟨isWord_digits _, allWords_nil⟩⟩

theorem allWords_qualifiedName (name : QualifiedName) : AllWords name.tokens := by
  refine allWords_append.mpr ⟨?_, allWords_names (isWord_mark _) _⟩
  split
  · exact allWords_cons.mpr ⟨isWord_word _, allWords_cons.mpr ⟨isWord_mark _, allWords_nil⟩⟩
  · exact allWords_nil

/-- What may be missing, with a word in front. -/
theorem allWords_optional {t : TokenKind × String} (ht : IsWord t)
    {part : Option (List (TokenKind × String))} (h : ∀ ts ∈ part, AllWords ts) :
    AllWords ((part.map (t :: ·)).getD []) := by
  cases part with
  | none => exact allWords_nil
  | some ts => exact allWords_cons.mpr ⟨ht, h ts rfl⟩

theorem Shape.allWords {s : Shape (List (TokenKind × String))} (h : s.All AllWords) :
    AllWords s.tokens := by
  cases s with
  | binary operator lhs rhs =>
    obtain ⟨hlhs, hrhs⟩ := h
    exact allWords_append.mpr ⟨allWords_append.mpr ⟨hlhs, allWords_operator _⟩, hrhs⟩
  | implies operator lhs rhs otherwise =>
    obtain ⟨hlhs, hrhs, hotherwise⟩ := h
    simp only [Shape.tokens, allWords_append, allWords_cons]
    exact ⟨⟨hlhs, isWord_spelled _, hrhs⟩, allWords_optional (isWord_word _) hotherwise⟩
  | unary operator operand => exact allWords_cons.mpr ⟨isWord_spelled _, h⟩
  | quantified quantifier decls body =>
    simp only [Shape.tokens, allWords_append, allWords_cons]
    exact ⟨⟨isWord_word _, allWords_declarations h.1⟩, isWord_mark _, h.2⟩
  | letIn isBind bindings body =>
    simp only [Shape.tokens, allWords_append, allWords_cons]
    exact ⟨⟨isWord_word _, allWords_bindings h.1⟩, isWord_mark _, h.2⟩
  | comprehension decls body =>
    simp only [Shape.tokens, allWords_append, allWords_cons]
    exact ⟨⟨⟨isWord_mark _, allWords_declarations h.1⟩, allWords_optional (isWord_mark _) h.2⟩,
      isWord_mark _, allWords_nil⟩
  | boxJoin target arguments =>
    simp only [Shape.tokens, allWords_append, allWords_cons]
    exact ⟨⟨h.1, isWord_mark _, allWords_separated (isWord_mark _) h.2⟩, isWord_mark _,
      allWords_nil⟩
  | prime operand =>
    exact allWords_append.mpr ⟨h, allWords_cons.mpr ⟨isWord_mark _, allWords_nil⟩⟩
  | const value => exact allWords_const _
  | nameRef name => exact allWords_qualifiedName name
  | atName name =>
    exact allWords_cons.mpr ⟨isWord_mark _, allWords_cons.mpr ⟨isWord_spelled _, allWords_nil⟩⟩
  | atom name => exact allWords_cons.mpr ⟨⟨name.lexes, rfl⟩, allWords_nil⟩
  | this => exact allWords_cons.mpr ⟨isWord_word _, allWords_nil⟩
  | sexpr text => exact allWords_cons.mpr ⟨isWord_spelled _, allWords_nil⟩
  | block items =>
    simp only [Shape.tokens, allWords_append, allWords_cons]
    refine ⟨⟨isWord_mark _, fun t ht => ?_⟩, isWord_mark _, allWords_nil⟩
    obtain ⟨ts, hts, ht⟩ := List.mem_flatten.mp ht
    exact h ts hts t ht

theorem allWords_tokens {n : Nat} (e : Term n) : AllWords e.tokens := by
  induction n with
  | zero => exact e.elim
  | succ n ih =>
    have hparts : (Shape.map (fun part : Term n =>
        if part.isAtomic then part.tokens else parenthesized part.tokens) e).All AllWords := by
      refine Shape.all_map (fun part => ?_) e
      split
      · exact ih part
      · exact allWords_parenthesized (ih part)
    rw [tokens, Shape.written]
    split
    · exact allWords_parenthesized (Shape.allWords hparts)
    · exact Shape.allWords hparts

/-- The tokens of the text of an expression are the tokens of the expression. -/
theorem words_print {n : Nat} (e : Term n) : words e.print.toList = e.tokens :=
  words_spaced (allWords_tokens e)

end Term
end RelLang
