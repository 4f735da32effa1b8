import Mathlib.Data.Prod.Lex
import Mathlib.Data.List.Basic
import RelLang.Text.Position

/-!
# Positions are in the order of the offsets

A line begins behind a newline, and newlines can be looked for among the bytes of a text:
the byte of a newline is no part of another character. The table has the places behind
them in order. So the lines that begin no later than an offset are the first ones of the
table, the line of the offset is the last of these, a search by halving finds it, and of
two offsets the later one has the later position.
-/

namespace RelLang

/-! ### Bytes -/

/-- The byte of a newline. -/
def newline : UInt8 := 10

/-- The bytes of a text. -/
def textBytes (text : String) : List UInt8 := text.toUTF8.data.toList

theorem textBytes_eq (text : String) :
    textBytes text = text.toList.flatMap String.utf8EncodeChar := by
  rw [textBytes, String.toUTF8_eq_toByteArray, ← String.utf8Encode_toList, List.utf8Encode,
    List.data_toByteArray]

/-- No other character has the byte of a newline. -/
theorem newline_notMem_utf8EncodeChar {c : Char} (h : c ≠ '\n') :
    newline ∉ String.utf8EncodeChar c := by
  have hne : ∀ n, n < 256 → n ≠ 10 → newline ≠ UInt8.ofNat n := by
    intro n hn hten heq
    have hnat := congrArg UInt8.toNat heq
    rw [UInt8.toNat_ofNat_of_lt' hn] at hnat
    exact hten hnat.symm
  have hval : c.val.toNat ≠ 10 := fun hc => h (Char.ext (UInt32.toNat_inj.mp hc))
  simp only [String.utf8EncodeChar]
  -- Each byte of a longer character is at least 128.
  split
  · simpa only [List.mem_singleton] using hne _ (by omega) hval
  split
  · simp only [List.mem_cons, List.not_mem_nil, or_false, not_or]
    exact ⟨hne _ (by omega) (by omega), hne _ (by omega) (by omega)⟩
  split
  · simp only [List.mem_cons, List.not_mem_nil, or_false, not_or]
    exact ⟨hne _ (by omega) (by omega), hne _ (by omega) (by omega), hne _ (by omega) (by omega)⟩
  · simp only [List.mem_cons, List.not_mem_nil, or_false, not_or]
    exact ⟨hne _ (by omega) (by omega), hne _ (by omega) (by omega), hne _ (by omega) (by omega),
      hne _ (by omega) (by omega)⟩

/-! ### The order of positions -/

namespace Position

/-- The pair of line and column, ordered by the line first. -/
def pair (p : Position) : ℕ ×ₗ ℕ := toLex (p.line, p.column)

theorem pair_lt_pair {p q : Position} : p.pair < q.pair ↔ p < q := by
  change _ ↔ (compare p.line q.line).then (compare p.column q.column) = .lt
  rw [pair, pair, Prod.Lex.toLex_lt_toLex, Ordering.then_eq_lt, Nat.compare_eq_lt,
    Nat.compare_eq_lt, Nat.compare_eq_eq]

theorem pair_le_pair {p q : Position} : p.pair ≤ q.pair ↔ p ≤ q := by
  change _ ↔ ((compare p.line q.line).then (compare p.column q.column)).isLE = true
  rw [pair, pair, Prod.Lex.toLex_le_toLex, Ordering.isLE_then_iff_or, Nat.compare_eq_lt,
    Nat.compare_eq_eq, Nat.isLE_compare]

end Position

namespace LineTable

/-! ### The table of some bytes -/

/-- The places behind the newlines of bytes that stand at an offset. -/
def behindNewlines (offset : Nat) : List UInt8 → List Nat
  | [] => []
  | b :: bs =>
    if b = newline then (offset + 1) :: behindNewlines (offset + 1) bs
    else behindNewlines (offset + 1) bs

theorem behindNewlines_append (n : Nat) (as bs : List UInt8) :
    behindNewlines n (as ++ bs) = behindNewlines n as ++ behindNewlines (n + as.length) bs := by
  induction as generalizing n with
  | nil => rfl
  | cons a as ih =>
    rw [List.cons_append, behindNewlines, behindNewlines, ih, List.length_cons, Nat.add_right_comm,
      Nat.add_assoc n]
    split <;> rfl

theorem behindNewlines_eq_nil {n : Nat} {bs : List UInt8} (h : newline ∉ bs) :
    behindNewlines n bs = [] := by
  induction bs generalizing n with
  | nil => rfl
  | cons b bs ih =>
    rw [List.mem_cons, not_or] at h
    rw [behindNewlines, if_neg fun heq => h.1 heq.symm, ih h.2]

/-- The breaks of a text are the places behind the newlines of its bytes. -/
theorem breaksFrom_eq (n : Nat) (cs : List Char) :
    breaksFrom n cs = behindNewlines n (cs.flatMap String.utf8EncodeChar) := by
  induction cs generalizing n with
  | nil => rfl
  | cons c cs ih =>
    rw [List.flatMap_cons, behindNewlines_append, String.length_utf8EncodeChar, ← ih, breaksFrom]
    split
    · next hc =>
      subst hc
      rfl
    · next hc =>
      rw [behindNewlines_eq_nil (newline_notMem_utf8EncodeChar hc)]
      rfl

theorem mem_behindNewlines {n s : Nat} {bs : List UInt8} :
    s ∈ behindNewlines n bs ↔ ∃ i, bs[i]? = some newline ∧ s = n + i + 1 := by
  induction bs generalizing n with
  | nil => simp [behindNewlines]
  | cons b bs ih =>
    have hrest : s ∈ behindNewlines (n + 1) bs
        ↔ ∃ i, (b :: bs)[i + 1]? = some newline ∧ s = n + (i + 1) + 1 := by
      simp only [ih, List.getElem?_cons_succ, Nat.add_right_comm n, Nat.add_assoc n]
    have hsplit : (∃ i, (b :: bs)[i]? = some newline ∧ s = n + i + 1)
        ↔ b = newline ∧ s = n + 1 ∨ s ∈ behindNewlines (n + 1) bs := by
      rw [Nat.or_exists_add_one.symm, hrest, List.getElem?_cons_zero, Option.some_inj, Nat.add_zero]
    rw [hsplit, behindNewlines]
    split <;> simp [*]

/-- The places behind the newlines are in order. -/
theorem pairwise_behindNewlines (n : Nat) (bs : List UInt8) :
    (behindNewlines n bs).Pairwise (· < ·) := by
  induction bs generalizing n with
  | nil => exact .nil
  | cons b bs ih =>
    rw [behindNewlines]
    split
    · refine .cons (fun s hs => ?_) (ih (n + 1))
      obtain ⟨i, -, rfl⟩ := mem_behindNewlines.mp hs
      omega
    · exact ih (n + 1)

/-- As many of them are not behind an offset as there are newlines in front of it. -/
theorem length_filter_behindNewlines (n offset : Nat) (bs : List UInt8) :
    ((behindNewlines n bs).filter (· ≤ offset)).length = (bs.take (offset - n)).count newline := by
  induction bs generalizing n with
  | nil => simp [behindNewlines]
  | cons b bs ih =>
    have hrest := ih (n + 1)
    rw [behindNewlines]
    obtain hle | hlt := Nat.lt_or_ge n offset
    · obtain ⟨k, rfl⟩ : ∃ k, offset = n + 1 + k := ⟨offset - (n + 1), by omega⟩
      have htake : n + 1 + k - n = k + 1 := by omega
      rw [Nat.add_sub_cancel_left] at hrest
      rw [htake, List.take_succ_cons, List.count_cons, ← hrest]
      split
      · next hb => simp [hb]
      · next hb => simp [hb]
    · rw [Nat.sub_eq_zero_of_le hlt, List.take_zero]
      rw [Nat.sub_eq_zero_of_le (Nat.le_succ_of_le hlt), List.take_zero] at hrest
      split
      · rwa [List.filter_cons_of_neg (by simpa using Nat.lt_succ_of_le hlt)]
      · exact hrest

theorem length_behindNewlines (bs : List UInt8) :
    (behindNewlines 0 bs).length = bs.count newline := by
  have hall : (behindNewlines 0 bs).filter (· ≤ bs.length) = behindNewlines 0 bs := by
    refine List.filter_eq_self.mpr fun s hs => ?_
    obtain ⟨i, hi, rfl⟩ := mem_behindNewlines.mp hs
    have hbound := (List.getElem?_eq_some_iff.mp hi).1
    exact decide_eq_true (by omega)
  rw [← hall, length_filter_behindNewlines, Nat.sub_zero, List.take_length]

/-! ### A list in order -/

section

variable {l : List Nat} {offset : Nat}

theorem filter_le_cons_of_lt {a : Nat} (h : (a :: l).Pairwise (· < ·)) (ha : offset < a) :
    (a :: l).filter (· ≤ offset) = [] := by
  refine List.filter_eq_nil_iff.mpr fun s hs => ?_
  have hle : a ≤ s := by
    obtain rfl | hs := List.mem_cons.mp hs
    · exact Nat.le_refl _
    · exact Nat.le_of_lt ((List.pairwise_cons.mp h).1 s hs)
  simpa using Nat.lt_of_lt_of_le ha hle

/-- The entries that are not behind an offset are the first ones. -/
theorem le_iff_lt_length_filter (h : l.Pairwise (· < ·)) {i s : Nat} (hs : l[i]? = some s) :
    s ≤ offset ↔ i < (l.filter (· ≤ offset)).length := by
  induction l generalizing i with
  | nil => simp at hs
  | cons a l ih =>
    obtain ⟨hfirst, hrest⟩ := List.pairwise_cons.mp h
    obtain ha | ha := Nat.lt_or_ge offset a
    · have hle : a ≤ s := by
        obtain rfl | hmem := List.mem_cons.mp (List.mem_of_getElem? hs)
        · exact Nat.le_refl _
        · exact Nat.le_of_lt (hfirst s hmem)
      rw [filter_le_cons_of_lt h ha, List.length_nil]
      omega
    · rw [List.filter_cons_of_pos (by simpa using ha), List.length_cons]
      cases i with
      | zero =>
        obtain rfl : a = s := by simpa using hs
        exact iff_of_true ha (Nat.succ_pos _)
      | succ i => rw [ih hrest (by simpa using hs), Nat.add_lt_add_iff_right]

/-- The last of them, or what stands in front of the list, stands where they end. -/
theorem getElem?_length_filter (h : l.Pairwise (· < ·)) (front : Nat) :
    (front :: l)[(l.filter (· ≤ offset)).length]?
      = some ((l.filter (· ≤ offset)).getLast?.getD front) := by
  induction l generalizing front with
  | nil => rfl
  | cons a l ih =>
    obtain ha | ha := Nat.lt_or_ge offset a
    · rw [filter_le_cons_of_lt h ha]
      rfl
    · rw [List.filter_cons_of_pos (by simpa using ha), List.length_cons, List.getElem?_cons_succ,
        ih (List.pairwise_cons.mp h).2 a, List.getLast?_cons, Option.getD_some]

/-- Where an entry is behind an offset, found by halving. -/
def bisect (l : List Nat) (offset lo hi : Nat) : Nat :=
  if lo < hi then
    let mid := lo + (hi - lo) / 2
    if l[mid]?.any (· ≤ offset) then bisect l offset (mid + 1) hi else bisect l offset lo mid
  else lo
termination_by hi - lo

/-- Halving ends where the entries that are not behind the offset end. -/
theorem bisect_eq (h : l.Pairwise (· < ·)) {lo hi : Nat}
    (hlo : lo ≤ (l.filter (· ≤ offset)).length) (hhi : (l.filter (· ≤ offset)).length ≤ hi)
    (hlength : hi ≤ l.length) : bisect l offset lo hi = (l.filter (· ≤ offset)).length := by
  fun_induction bisect l offset lo hi with
  | case1 lo hi hlt mid hmid ih =>
    have hs := List.getElem?_eq_getElem (show mid < l.length by omega)
    rw [hs, Option.any_some, decide_eq_true_iff, le_iff_lt_length_filter h hs] at hmid
    exact ih hmid hhi hlength
  | case2 lo hi hlt mid hmid ih =>
    have hs := List.getElem?_eq_getElem (show mid < l.length by omega)
    rw [hs, Option.any_some, decide_eq_true_iff, le_iff_lt_length_filter h hs, Nat.not_lt] at hmid
    exact ih hlo hmid (by omega)
  | case3 lo hi hge => omega

end

/-! ### The table of a text -/

/-- The places where the lines begin. -/
def starts (t : LineTable) : List Nat := 0 :: t.breaks

theorem breaks_ofText (text : String) :
    (ofText text).breaks = behindNewlines 0 (textBytes text) := by
  rw [ofText, breaksFrom_eq, textBytes_eq]

theorem pairwise_breaks (text : String) : (ofText text).breaks.Pairwise (· < ·) :=
  breaks_ofText text ▸ pairwise_behindNewlines 0 (textBytes text)

theorem mem_breaks {text : String} {s : Nat} :
    s ∈ (ofText text).breaks ↔ ∃ i, (textBytes text)[i]? = some newline ∧ s = i + 1 := by
  simp only [breaks_ofText, mem_behindNewlines, Nat.zero_add]

theorem pairwise_starts (text : String) : (ofText text).starts.Pairwise (· < ·) := by
  refine .cons (fun s hs => ?_) (pairwise_breaks text)
  obtain ⟨i, -, rfl⟩ := mem_breaks.mp hs
  exact Nat.succ_pos i

/-- The last place where a line begins that is not behind an offset. -/
def lineStart (t : LineTable) (offset : Nat) : Nat := (t.breaksUpTo offset).getLast?.getD 0

theorem position_eq (t : LineTable) (offset : Nat) :
    t.position offset = ⟨(t.breaksUpTo offset).length, offset - t.lineStart offset⟩ := rfl

/-- The line of an offset begins at a place: a newline is in front of the place, unless the text
begins there, and none between it and the offset. -/
structure LineBegins (bs : List UInt8) (offset start : Nat) : Prop where
  start_le : start ≤ offset
  behind_newline : start ≠ 0 → bs[start - 1]? = some newline
  unbroken : ∀ i, start ≤ i → i < offset → bs[i]? ≠ some newline

theorem lineBegins_lineStart (text : String) (offset : Nat) :
    LineBegins (textBytes text) offset ((ofText text).lineStart offset) := by
  have hmem {s : Nat} : s ∈ (ofText text).breaksUpTo offset
      ↔ (∃ i, (textBytes text)[i]? = some newline ∧ s = i + 1) ∧ s ≤ offset := by
    rw [breaksUpTo, List.mem_filter, mem_breaks, decide_eq_true_iff]
  rw [lineStart]
  cases hlast : ((ofText text).breaksUpTo offset).getLast? with
  | none =>
    rw [List.getLast?_eq_none_iff] at hlast
    refine ⟨Nat.zero_le _, fun h => absurd rfl h, fun i _ hi hbyte => ?_⟩
    have hi := hmem.mpr ⟨⟨i, hbyte, rfl⟩, hi⟩
    rw [hlast] at hi
    exact List.not_mem_nil hi
  | some s =>
    obtain ⟨⟨i, hbyte, rfl⟩, hle⟩ := hmem.mp (List.mem_of_getLast? hlast)
    refine ⟨hle, fun _ => hbyte, fun j hij hj hbyte => ?_⟩
    -- A newline in between would have a later break than the last.
    have hj := hmem.mpr ⟨⟨j, hbyte, rfl⟩, hj⟩
    obtain ⟨front, hfront⟩ := List.getLast?_eq_some_iff.mp hlast
    have hsorted := (pairwise_breaks text).filter (· ≤ offset)
    rw [breaksUpTo] at hfront hj
    rw [hfront] at hsorted hj
    have hcross := (List.pairwise_append.mp hsorted).2.2
    obtain hj | hj := List.mem_append.mp hj
    · have hlt := hcross _ hj _ List.mem_cons_self
      simp only [Option.getD_some] at hij
      omega
    · simp only [Option.getD_some, List.mem_singleton] at hij hj
      omega

/-- Of two offsets the later one has the later position. -/
theorem pair_position_strictMono (text : String) :
    StrictMono fun offset => ((ofText text).position offset).pair := by
  intro o₁ o₂ hlt
  have hsub : ((ofText text).breaksUpTo o₁).Sublist ((ofText text).breaksUpTo o₂) :=
    List.monotone_filter_right _ fun s hs => by
      have hs := of_decide_eq_true hs
      exact decide_eq_true (by omega)
  refine Prod.Lex.toLex_lt_toLex.mpr ?_
  obtain hline | hline := Nat.lt_or_eq_of_le hsub.length_le
  · exact .inl hline
  · -- On one line the same breaks have been passed.
    have hsame := hsub.eq_of_length hline
    have hle := (lineBegins_lineStart text o₁).start_le
    refine .inr ⟨hline, ?_⟩
    rw [position_eq, position_eq, lineStart, lineStart, ← hsame]
    rw [lineStart] at hle
    simp only
    omega

/-- The line of an offset is the number of newlines in front of it, and its column the distance
from the place behind the last of them, which the table has at the line and a search by halving
finds. The positions are in the order of the offsets, and the span of a range has the positions of
the offsets in it. No place of the table is past the end of the text. -/
theorem position_embeds (text : String) :
    (∀ offset, ∃ start,
      LineBegins (textBytes text) offset start ∧
      (ofText text).position offset
        = ⟨((textBytes text).take offset).count newline, offset - start⟩ ∧
      (ofText text).starts[((ofText text).position offset).line]? = some start ∧
      bisect (ofText text).starts offset 0 (ofText text).starts.length
        = ((ofText text).position offset).line + 1) ∧
    (∀ o₁ o₂, (ofText text).position o₁ < (ofText text).position o₂ ↔ o₁ < o₂) ∧
    (∀ (r : ByteRange) offset,
      ((ofText text).span r).contains ((ofText text).position offset) = true
        ↔ r.start ≤ offset ∧ offset ≤ r.stop) ∧
    (∀ r : ByteRange, ((ofText text).span r).start ≤ ((ofText text).span r).stop) ∧
    (ofText text).lineCount = (textBytes text).count newline + 1 ∧
    (∀ start ∈ (ofText text).starts, start ≤ (textBytes text).length) := by
  have hmono := pair_position_strictMono text
  have hle {o₁ o₂ : Nat} : (ofText text).position o₁ ≤ (ofText text).position o₂ ↔ o₁ ≤ o₂ :=
    Position.pair_le_pair.symm.trans hmono.le_iff_le
  refine ⟨fun offset => ⟨_, lineBegins_lineStart text offset, ?_, ?_, ?_⟩,
    fun o₁ o₂ => Position.pair_lt_pair.symm.trans hmono.lt_iff_lt, fun r offset => ?_,
    fun r => hle.mpr r.start_le_stop, ?_, fun start hstart => ?_⟩
  · rw [position_eq, breaksUpTo, breaks_ofText, length_filter_behindNewlines, Nat.sub_zero]
  · exact getElem?_length_filter (pairwise_breaks text) 0
  · have hlength : ((ofText text).starts.filter (· ≤ offset)).length
        = ((ofText text).position offset).line + 1 := by
      rw [starts, List.filter_cons_of_pos (by simp), List.length_cons]
      rfl
    rw [← hlength]
    exact bisect_eq (pairwise_starts text) (Nat.zero_le _) (List.length_filter_le _ _) le_rfl
  · rw [Span.contains, Bool.and_eq_true, decide_eq_true_iff, decide_eq_true_iff]
    exact and_congr hle hle
  · rw [lineCount, breaks_ofText, length_behindNewlines]
  · obtain rfl | hstart := List.mem_cons.mp hstart
    · exact Nat.zero_le _
    · obtain ⟨i, hi, rfl⟩ := mem_breaks.mp hstart
      exact (List.getElem?_eq_some_iff.mp hi).1

end LineTable
end RelLang
