import RelLang.Proofs.Token.Tokens
import RelLang.View

/-!
# Numbers as they are written and as they are printed

A number is printed without zeros in front, and zero is printed without a sign. Digits
are the digits of their value up to zeros in front of them.
-/

namespace RelLang

open Lexer (isDigit)

/-! ### Digits -/

/-- A digit is the digit of its value. -/
theorem digitChar_of_isDigit {d : Char} (h : isDigit d = true) :
    d.toNat - '0'.toNat < 10 ∧ Nat.digitChar (d.toNat - '0'.toNat) = d := by
  rw [isDigit, Bool.and_eq_true, decide_eq_true_eq, decide_eq_true_eq] at h
  obtain ⟨hlow, hhigh⟩ : 48 ≤ d.toNat ∧ d.toNat ≤ 57 := h
  have hzero : '0'.toNat = 48 := rfl
  have hlt : d.toNat - '0'.toNat < 10 := by omega
  refine ⟨hlt, Char.toNat_inj.mp ?_⟩
  rw [Nat.toNat_digitChar_of_lt_ten hlt]
  omega

namespace View

theorem digitsValue_concat (ds : List Char) (d : Char) :
    digitsValue (ds ++ [d]) = 10 * digitsValue ds + (d.toNat - '0'.toNat) := by
  simp [digitsValue]

/-- Zeros in front of digits do not count. -/
theorem digitsValue_dropWhile (ds : List Char) :
    digitsValue (ds.dropWhile (· == '0')) = digitsValue ds := by
  induction ds with
  | nil => rfl
  | cons d ds ih =>
    rw [List.dropWhile_cons]
    split
    · next hd =>
      obtain rfl := eq_of_beq hd
      exact ih
    · rfl

/-- Digits that begin with none of value zero. -/
theorem digitsValue_pos {d : Char} (hd : isDigit d = true) (hzero : d ≠ '0') (ds : List Char) :
    0 < digitsValue (d :: ds) := by
  induction ds using List.reverseRecOn with
  | nil =>
    obtain ⟨-, hchar⟩ := digitChar_of_isDigit hd
    have hvalue : digitsValue [d] = d.toNat - '0'.toNat := by simp [digitsValue]
    rw [hvalue]
    refine Nat.pos_of_ne_zero fun heq => hzero ?_
    rw [← hchar, heq]
    rfl
  | append_singleton ds e ih =>
    rw [← List.cons_append, digitsValue_concat]
    omega

/-- Digits that begin with none of value zero are the digits of their value. -/
theorem toDigits_digitsValue {d : Char} {ds : List Char} (hzero : d ≠ '0')
    (hdigits : ∀ e ∈ d :: ds, isDigit e = true) :
    Nat.toDigits 10 (digitsValue (d :: ds)) = d :: ds := by
  induction ds using List.reverseRecOn with
  | nil =>
    obtain ⟨hlt, hchar⟩ := digitChar_of_isDigit (hdigits d (.head _))
    have hvalue : digitsValue [d] = d.toNat - '0'.toNat := by simp [digitsValue]
    rw [hvalue, Nat.toDigits_of_lt_base hlt, hchar]
  | append_singleton ds e ih =>
    rw [← List.cons_append] at hdigits ⊢
    have hfront : ∀ c ∈ d :: ds, isDigit c = true :=
      fun c hc => hdigits c (List.mem_append_left _ hc)
    obtain ⟨hlt, hchar⟩ := digitChar_of_isDigit (hdigits e (by simp))
    have hpos := digitsValue_pos (hfront d (.head _)) hzero ds
    rw [digitsValue_concat, ← Nat.toDigits_append_toDigits (by decide) hpos hlt, ih hfront,
      Nat.toDigits_of_lt_base hlt, hchar]

end View

/-! ### Numerals -/

/-- A number with a sign or none. -/
structure Numeral where
  negative : Bool
  digits : List Char
  deriving DecidableEq, Repr

namespace Numeral

/-- The number as it is written. -/
def text (n : Numeral) : String := (if n.negative then "-" else "") ++ String.ofList n.digits

/-- The value of the digits. -/
def magnitude (n : Numeral) : Nat := View.digitsValue n.digits

/-- All digits are decimal digits, and there is one. -/
structure WellFormed (n : Numeral) : Prop where
  digits : ∀ d ∈ n.digits, isDigit d = true
  nonempty : n.digits ≠ []

/-- The same number without zeros in front; a zero has no sign. -/
def normal (n : Numeral) : Numeral :=
  match n.digits.dropWhile (· == '0') with
  | [] => ⟨false, ['0']⟩
  | d :: ds => ⟨n.negative, d :: ds⟩

theorem WellFormed.normal {n : Numeral} (h : n.WellFormed) : n.normal.WellFormed := by
  rw [Numeral.normal]
  split
  · exact ⟨List.forall_mem_singleton.mpr rfl, List.cons_ne_nil _ _⟩
  · next d ds hdrop =>
    refine ⟨fun e he => h.digits e ?_, List.cons_ne_nil d ds⟩
    exact (List.dropWhile_suffix _).subset (hdrop ▸ he)

/-- What numbers are written as that are printed as they are written. -/
theorem normal_eq_iff {n : Numeral} :
    n.normal = n ↔ n.digits = ['0'] ∧ n.negative = false ∨
      ∃ d ds, n.digits = d :: ds ∧ d ≠ '0' := by
  obtain ⟨negative, digits⟩ := n
  have hhead := List.head?_dropWhile_not (· == '0') digits
  rw [normal]
  cases hdrop : digits.dropWhile (· == '0') with
  | nil =>
    have hzeros := List.dropWhile_eq_nil_iff.mp hdrop
    constructor
    · rintro ⟨⟩
      exact .inl ⟨rfl, rfl⟩
    · rintro (⟨hdigits, hsign⟩ | ⟨d, ds, hdigits, hzero⟩)
      · exact congrArg₂ mk hsign.symm hdigits.symm
      · exact absurd (eq_of_beq (hzeros d (by simp [show digits = d :: ds from hdigits]))) hzero
  | cons d ds =>
    rw [hdrop] at hhead
    have hzero : d ≠ '0' := by simpa using hhead
    constructor
    · rintro ⟨⟩
      exact .inr ⟨d, ds, rfl, hzero⟩
    · rintro (⟨hdigits, -⟩ | ⟨e, es, hdigits, hfirst⟩)
      · rw [show digits = ['0'] from hdigits] at hdrop
        cases hdrop
      · rw [show digits = e :: es from hdigits, List.dropWhile_cons_of_neg (by simpa using hfirst)]
          at hdrop
        exact congrArg (mk negative) (hdrop.symm.trans hdigits.symm)

/-- A number is printed in its normal form. -/
theorem WellFormed.toString_eq {n : Numeral} (h : n.WellFormed) :
    toString (if n.negative then -(n.magnitude : Int) else n.magnitude) = n.normal.text := by
  have hvalue : n.magnitude = View.digitsValue (n.digits.dropWhile (· == '0')) :=
    (View.digitsValue_dropWhile n.digits).symm
  have hdigits : ∀ d ∈ n.digits.dropWhile (· == '0'), isDigit d = true :=
    fun d hd => h.digits d ((List.dropWhile_suffix _).subset hd)
  have hhead := List.head?_dropWhile_not (· == '0') n.digits
  rw [Numeral.normal, hvalue]
  generalize n.digits.dropWhile (· == '0') = ds at hdigits hhead
  cases ds with
  | nil => cases n.negative <;> rfl
  | cons d ds =>
    have hzero : d ≠ '0' := by simpa using hhead
    have hpos := View.digitsValue_pos (hdigits d (.head _)) hzero ds
    have hrepr : Nat.repr (View.digitsValue (d :: ds)) = String.ofList (d :: ds) := by
      rw [Nat.repr_eq_ofList_toDigits, View.toDigits_digitsValue hzero hdigits]
    dsimp only [text]
    cases n.negative with
    | false => exact hrepr.trans String.empty_append.symm
    | true =>
      obtain ⟨m, hm⟩ := Nat.exists_eq_succ_of_ne_zero hpos.ne'
      rw [← hrepr, hm]
      rfl

theorem toList_text (n : Numeral) :
    n.text.toList = (if n.negative then ['-'] else []) ++ n.digits := by
  rw [text, String.toList_append, String.toList_ofList]
  cases n.negative <;> rfl

/-- A sign is not a digit, so numbers that are written alike are the same. -/
theorem text_injective {m n : Numeral} (hm : m.WellFormed) (hn : n.WellFormed)
    (h : m.text = n.text) : m = n := by
  have hlist := congrArg String.toList h
  rw [toList_text, toList_text] at hlist
  obtain ⟨sign, digits⟩ := m
  obtain ⟨sign', digits'⟩ := n
  have hminus : isDigit '-' = false := by decide
  cases sign <;> cases sign'
  · exact congrArg (mk false) hlist
  · have hdigit := hm.digits '-' (by simp [show digits = '-' :: digits' from hlist])
    rw [hminus] at hdigit
    cases hdigit
  · have hdigit := hn.digits '-' (by simp [show digits' = '-' :: digits from hlist.symm])
    rw [hminus] at hdigit
    cases hdigit
  · exact congrArg (mk true) (List.cons.inj hlist).2

end Numeral

end RelLang
