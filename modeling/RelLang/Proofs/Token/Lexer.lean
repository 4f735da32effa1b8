import Mathlib.Algebra.Ring.Nat
import RelLang.Token.Lexer

/-!
# The tokens of a text

The tokens stand side by side and make up the text.
-/

namespace RelLang

namespace Lexer

/-- The first lexemes of a text, at most the given number of them. -/
def firstLexemes : Nat → List Char → List Lexeme
  | 0, _ => []
  | _ + 1, [] => []
  | n + 1, c :: cs => scan c cs :: firstLexemes n (scan c cs).rest

theorem firstLexemes_eq {n : Nat} {cs : List Char} (h : cs.length ≤ n) :
    firstLexemes n cs = lexemes cs := by
  induction n generalizing cs with
  | zero => rw [firstLexemes, List.length_eq_zero_iff.mp (Nat.le_zero.mp h), lexemes]
  | succ n ih =>
    cases cs with
    | nil => rw [firstLexemes, lexemes]
    | cons c cs =>
      have hrest := length_rest_scan_lt c cs
      rw [firstLexemes, lexemes, ih (by omega)]

/-- There are no more lexemes than characters. In this form the lexemes of a fixed text are found by
computation. -/
theorem lexemes_eq (cs : List Char) : lexemes cs = firstLexemes cs.length cs :=
  (firstLexemes_eq (Nat.le_refl _)).symm

theorem text_lexemes (cs : List Char) : (lexemes cs).flatMap (·.text) = cs := by
  fun_induction lexemes cs with
  | case1 => rfl
  | case2 c cs ih => rw [List.flatMap_cons, ih, text_scan]

theorem text_ne_nil_of_mem_lexemes {cs : List Char} {l : Lexeme} (hl : l ∈ lexemes cs) :
    l.text ≠ [] := by
  fun_induction lexemes cs with
  | case1 => cases hl
  | case2 c cs ih =>
    obtain rfl | hl := List.mem_cons.mp hl
    · exact text_scan_ne_nil c cs
    · exact ih hl

theorem toList_joinText_place (offset : Nat) (ls : List Lexeme) :
    (Token.joinText (place offset ls)).toList = ls.flatMap (·.text) := by
  induction ls generalizing offset with
  | nil => rfl
  | cons l ls ih =>
    have hi := ih (offset + (String.ofList l.text).utf8ByteSize)
    simp only [Token.joinText, place, List.map_cons, List.flatMap_cons] at hi ⊢
    simp [String.join_cons, hi]

end Lexer

/-- The tokens of a fixed text are found by computation. -/
theorem tokenize_eq (text : String) :
    tokenize text = Lexer.place 0 (Lexer.firstLexemes text.toList.length text.toList) :=
  congrArg (Lexer.place 0) (Lexer.lexemes_eq text.toList)

/-- The tokens of a text make up the text. -/
theorem joinText_tokenize (text : String) : Token.joinText (tokenize text) = text := by
  rw [← String.toList_inj, tokenize, Lexer.toList_joinText_place, Lexer.text_lexemes]

/-! ### Places -/

namespace Token

/-- The number of bytes of some tokens. -/
def size (ts : List Token) : Nat := (ts.map (·.text.utf8ByteSize)).sum

theorem size_cons (t : Token) (ts : List Token) :
    size (t :: ts) = t.text.utf8ByteSize + size ts := by
  simp [size]

/-- The tokens stand side by side from an offset on, and none is empty. -/
def Placed : Nat → List Token → Prop
  | _, [] => True
  | offset, t :: ts =>
    t.start = offset ∧ 0 < t.text.utf8ByteSize ∧ Placed (offset + t.text.utf8ByteSize) ts

theorem placed_append {offset : Nat} {ts us : List Token} :
    Placed offset (ts ++ us) ↔ Placed offset ts ∧ Placed (offset + size ts) us := by
  induction ts generalizing offset with
  | nil => simp [Placed, size]
  | cons t ts ih =>
    simp only [List.cons_append, Placed, ih, size, List.map_cons, List.sum_cons, and_assoc,
      Nat.add_assoc]

theorem Placed.bounds {offset : Nat} {ts : List Token} (h : Placed offset ts) {t : Token}
    (ht : t ∈ ts) : offset ≤ t.start ∧ t.start < offset + size ts := by
  induction ts generalizing offset with
  | nil => cases ht
  | cons u us ih =>
    obtain ⟨hstart, hpos, hrest⟩ := h
    have hsize : size (u :: us) = u.text.utf8ByteSize + size us := by simp [size]
    obtain rfl | ht := List.mem_cons.mp ht
    · omega
    · have hbounds := ih hrest ht
      omega

theorem Placed.stop_le {offset : Nat} {ts : List Token} (h : Placed offset ts) {t : Token}
    (ht : t ∈ ts) : t.stop ≤ offset + size ts := by
  obtain ⟨us, vs, rfl⟩ := List.append_of_mem ht
  obtain ⟨hstart, -, -⟩ := (placed_append.mp h).2
  have hstop : t.stop = t.start + t.text.utf8ByteSize := rfl
  have hsize : size (us ++ t :: vs) = size us + (t.text.utf8ByteSize + size vs) := by simp [size]
  omega

theorem Placed.getLast?_stop {offset : Nat} {ts : List Token} (h : Placed offset ts) :
    (ts.getLast?.map Token.stop).getD offset = offset + size ts := by
  induction ts generalizing offset with
  | nil => simp [size]
  | cons t ts ih =>
    obtain ⟨hstart, hpos, hrest⟩ := h
    have hstop : t.stop = offset + t.text.utf8ByteSize := by
      rw [← hstart]
      rfl
    have hi := ih hrest
    rw [size_cons]
    cases ts with
    | nil => simp [hstop, size]
    | cons u us =>
      rw [List.getLast?_cons_cons]
      cases hlast : (u :: us).getLast? with
      | none => simp at hlast
      | some v =>
        rw [hlast] at hi
        simp only [Option.map_some, Option.getD_some] at hi ⊢
        omega

theorem Placed.listStop_eq {ts : List Token} (h : Placed 0 ts) : listStop ts = size ts := by
  simpa [listStop] using h.getLast?_stop

theorem Placed.size_pos {offset : Nat} {ts : List Token} (h : Placed offset ts) {t : Token}
    (ht : t ∈ ts) : 0 < t.text.utf8ByteSize := by
  obtain ⟨us, vs, rfl⟩ := List.append_of_mem ht
  exact (placed_append.mp h).2.2.1

/-- The first token behind some tokens is found by its place. -/
theorem Placed.find?_behind {ts us : List Token} (h : Placed 0 (ts ++ us)) (p : Token → Bool) :
    (ts ++ us).find? (fun t => p t && decide (size ts ≤ t.start)) = us.find? p := by
  obtain ⟨hts, hus⟩ := placed_append.mp h
  have hnone : ts.find? (fun t => p t && decide (size ts ≤ t.start)) = none := by
    rw [List.find?_eq_none]
    intro t ht
    have hbounds := hts.bounds ht
    have hnot : ¬ size ts ≤ t.start := by omega
    simp [hnot]
  rw [List.find?_append, hnone, Option.none_or, ← List.head?_filter, ← List.head?_filter]
  refine congrArg List.head? (List.filter_congr fun t ht => ?_)
  have hbounds := hus.bounds ht
  have hle : size ts ≤ t.start := by omega
  simp [hle]

end Token

theorem Lexer.placed_place {ls : List Lexeme} (h : ∀ l ∈ ls, l.text ≠ []) (offset : Nat) :
    Token.Placed offset (place offset ls) := by
  induction ls generalizing offset with
  | nil => trivial
  | cons l ls ih =>
    refine ⟨rfl, ?_, ih (fun l hl => h l (List.mem_cons_of_mem _ hl)) _⟩
    have hne : String.ofList l.text ≠ "" := by
      simpa using h l List.mem_cons_self
    exact Nat.pos_of_ne_zero fun hzero => hne (String.utf8ByteSize_eq_zero_iff.mp hzero)

theorem placed_tokenize (text : String) : Token.Placed 0 (tokenize text) :=
  Lexer.placed_place (fun _ hl => Lexer.text_ne_nil_of_mem_lexemes hl) 0

end RelLang
