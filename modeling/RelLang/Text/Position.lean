/-!
# Places in a text

Byte offsets and ranges of them, positions as line and column, and the table that
turns the one into the other. Lines and columns count from zero, columns in bytes.
-/

namespace RelLang

/-- A half-open range of byte offsets. -/
structure ByteRange where
  start : Nat
  stop : Nat
  start_le_stop : start ≤ stop := by omega
  deriving DecidableEq, Repr

namespace ByteRange

/-- The range of a given length. -/
def ofLength (start length : Nat) : ByteRange := ⟨start, start + length, Nat.le_add_right _ _⟩

/-- The empty range at an offset. -/
def empty (offset : Nat) : ByteRange := ⟨offset, offset, Nat.le_refl _⟩

/-- The range between two offsets, if they are in order. -/
def between? (start stop : Nat) : Option ByteRange :=
  if h : start ≤ stop then some ⟨start, stop, h⟩ else none

theorem between?_eq_none_iff {start stop : Nat} : between? start stop = none ↔ stop < start := by
  unfold between?
  by_cases h : start ≤ stop
  · rw [dif_pos h]
    exact ⟨nofun, fun hlt => absurd h (by omega)⟩
  · rw [dif_neg h]
    exact ⟨fun _ => by omega, fun _ => rfl⟩

end ByteRange

/-- A line and a column. -/
structure Position where
  line : Nat
  column : Nat
  deriving DecidableEq, Repr

namespace Position

/-- Positions are ordered by line, and on one line by column. -/
instance : Ord Position where
  compare p q := (compare p.line q.line).then (compare p.column q.column)

instance : LE Position := leOfOrd
instance : LT Position := ltOfOrd

end Position

/-- A stretch between two positions, both included. -/
structure Span where
  start : Position
  stop : Position
  deriving DecidableEq, Repr

namespace Span

/-- The position lies neither before the start nor after the end. -/
def contains (s : Span) (p : Position) : Bool := decide (s.start ≤ p) && decide (p ≤ s.stop)

end Span

/-- The offsets at which the lines of a text begin, the first line apart. -/
structure LineTable where
  breaks : List Nat
  deriving DecidableEq, Repr

namespace LineTable

/-- The offsets just behind the newlines of a text that stands at an offset. -/
def breaksFrom (offset : Nat) : List Char → List Nat
  | [] => []
  | c :: cs =>
    let next := offset + c.utf8Size
    if c = '\n' then next :: breaksFrom next cs else breaksFrom next cs

/-- The table of a text. -/
def ofText (text : String) : LineTable := ⟨breaksFrom 0 text.toList⟩

/-- The number of lines; a newline at the end opens an empty last line. -/
def lineCount (t : LineTable) : Nat := t.breaks.length + 1

/-- The line breaks that do not lie behind an offset. -/
def breaksUpTo (t : LineTable) (offset : Nat) : List Nat := t.breaks.filter (· ≤ offset)

/-- The position of an offset. An offset past the end stands on the last line. -/
def position (t : LineTable) (offset : Nat) : Position :=
  let passed := t.breaksUpTo offset
  ⟨passed.length, offset - passed.getLast?.getD 0⟩

/-- The span of a range. -/
def span (t : LineTable) (r : ByteRange) : Span := ⟨t.position r.start, t.position r.stop⟩

end LineTable
end RelLang
