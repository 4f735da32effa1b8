import RelLang.Proofs.Token.Tokens
import RelLang.Text.Blank

/-!
# Comments on lines of their own

A line comment goes on to the end of its line, whatever it says, and the new line behind it
belongs to the blanks up to the next token. So lines of comments are read as the comments
with blanks between them.
-/

namespace RelLang

/-- A line with nothing on it but a comment, in either style, that says something. -/
structure CommentLine where
  indent : Nat
  slashes : Bool
  content : List Char
  on_line : '\n' ∉ content
  not_blank : Text.trim content ≠ []

namespace CommentLine

/-- The comment without the blanks in front of it. -/
def comment (l : CommentLine) : List Char :=
  (if l.slashes then ['/', '/'] else ['-', '-']) ++ ' ' :: l.content

/-- The line, with its end. -/
def text (l : CommentLine) : List Char := List.replicate l.indent ' ' ++ l.comment ++ ['\n']

/-- Lines, one below the other. -/
def block (ls : List CommentLine) : List Char := ls.flatMap text

theorem block_cons (l : CommentLine) (ls : List CommentLine) :
    block (l :: ls) = l.text ++ block ls :=
  List.flatMap_cons

/-- Lines of comments; if there are others above, a line of blanks is between. -/
def stacked : List CommentLine → Nat → List CommentLine → List Char
  | [], _, ls => block ls
  | l :: upper, blanks, ls =>
    block (l :: upper) ++ (List.replicate blanks ' ' ++ '\n' :: block ls)

theorem exists_mark (l : CommentLine) : ∃ mark cs, (mark = '/' ∨ mark = '-') ∧
    l.comment = mark :: mark :: cs ∧ cs = ' ' :: l.content := by
  rw [comment]
  cases l.slashes with
  | true => exact ⟨'/', _, .inl rfl, rfl, rfl⟩
  | false => exact ⟨'-', _, .inr rfl, rfl, rfl⟩

end CommentLine

namespace Lexer

/-- The tokens of a text, kind and text. -/
def pieces (cs : List Char) : List (TokenKind × String) :=
  (lexemes cs).map fun l => (l.kind, String.ofList l.text)

theorem pieces_cons (c : Char) (cs : List Char) :
    pieces (c :: cs)
      = ((scan c cs).kind, String.ofList (scan c cs).text) :: pieces (scan c cs).rest := by
  rw [pieces, lexemes, List.map_cons]
  rfl

theorem map_toPair_place (offset : Nat) (ls : List Lexeme) :
    (place offset ls).map Token.toPair = ls.map fun l => (l.kind, String.ofList l.text) := by
  induction ls generalizing offset with
  | nil => rfl
  | cons l ls ih => exact congrArg (_ :: ·) (ih _)

theorem map_toPair_tokenize (text : String) :
    (tokenize text).map Token.toPair = pieces text.toList :=
  map_toPair_place 0 _

/-- The text of tokens. -/
def spelled (ps : List (TokenKind × String)) : List Char := ps.flatMap (·.2.toList)

theorem spelled_append (ps qs : List (TokenKind × String)) :
    spelled (ps ++ qs) = spelled ps ++ spelled qs :=
  List.flatMap_append

theorem spelled_pieces (cs : List Char) : spelled (pieces cs) = cs := by
  simpa [spelled, pieces, List.flatMap_map] using text_lexemes cs

/-- Behind some of the tokens the rest of the text is cut by itself. -/
theorem pieces_of_append {cs : List Char} {ps qs : List (TokenKind × String)}
    (h : pieces cs = ps ++ qs) : cs = spelled ps ++ spelled qs ∧ pieces (spelled qs) = qs := by
  refine ⟨by rw [← spelled_append, ← h, spelled_pieces], ?_⟩
  induction ps generalizing cs with
  | nil =>
    rw [List.nil_append] at h
    rw [← h, spelled_pieces]
  | cons p ps ih =>
    cases cs with
    | nil => simp [pieces, lexemes] at h
    | cons c cs =>
      rw [pieces_cons] at h
      exact ih (List.cons.inj h).2

theorem utf8ByteSize_spelled (ps : List (TokenKind × String)) :
    (String.ofList (spelled ps)).utf8ByteSize = (ps.map (·.2.utf8ByteSize)).sum := by
  induction ps with
  | nil => rfl
  | cons p ps ih => simp [spelled, ← ih, String.utf8ByteSize_append]

/-- The first token is what is scanned first. -/
theorem scan_of_pieces {p : TokenKind × String} {ps : List (TokenKind × String)} {cs : List Char}
    (h : pieces (p.2.toList ++ cs) = p :: ps) :
    ∃ c w, p.2.toList = c :: w ∧ scan c (w ++ cs) = ⟨p.1, c :: w, cs⟩ ∧ pieces cs = ps := by
  obtain ⟨c, ds, hcs⟩ : ∃ c ds, p.2.toList ++ cs = c :: ds := by
    refine List.exists_cons_of_ne_nil fun hnil => ?_
    simp [hnil, pieces, lexemes] at h
  rw [hcs, pieces_cons] at h
  obtain ⟨rfl, rfl⟩ := List.cons.inj h
  rw [String.toList_ofList] at hcs ⊢
  have hrest : (scan c ds).rest = cs := List.append_cancel_left ((text_scan c ds).trans hcs.symm)
  obtain ⟨d, w, htext⟩ := List.exists_cons_of_ne_nil (text_scan_ne_nil c ds)
  rw [htext, List.cons_append] at hcs
  obtain ⟨rfl, rfl⟩ := List.cons.inj hcs
  refine ⟨d, w, htext, ?_, by rw [hrest]⟩
  cases hscan : scan d (w ++ cs) with
  | mk kind text rest =>
    rw [hscan] at htext hrest
    rw [← htext, ← hrest]

/-- Tokens that stand in front of the end of a line stay the same whatever comes behind it. -/
theorem pieces_change_lines {ps : List (TokenKind × String)} {s cs : List Char}
    (h : pieces (spelled ps ++ (s ++ '\n' :: cs)) = ps ++ pieces (s ++ '\n' :: cs))
    (hvalid : ∀ p ∈ ps, p.1 ≠ .invalid) (hlast : ∀ p ∈ ps.getLast?, p.1 ≠ .whitespace)
    (ds : List Char) :
    pieces (spelled ps ++ (s ++ '\n' :: ds)) = ps ++ pieces (s ++ '\n' :: ds) := by
  induction ps with
  | nil => rfl
  | cons p ps ih =>
    have hspelled : spelled (p :: ps) = p.2.toList ++ spelled ps := List.flatMap_cons
    rw [hspelled, List.append_assoc] at h ⊢
    obtain ⟨c, w, htext, hscan, hbehind⟩ := scan_of_pieces h
    have hrest := ih hbehind (fun q hq => hvalid q (.tail _ hq)) fun q hq => hlast q (by
      cases ps with
      | nil => cases hq
      | cons => exact hq)
    -- The token is scanned from the line alone, and the new line behind does not go on with it.
    have hnext := next_scan c (w ++ (spelled ps ++ (s ++ '\n' :: cs)))
    rw [hscan] at hnext
    have hline : scan c (w ++ (spelled ps ++ s)) = ⟨p.1, c :: w, spelled ps ++ s⟩ := by
      have hcut : Next (c :: w ++ (spelled ps ++ s)) _ (c :: w) :=
        hnext.cut ⟨'\n' :: cs, by simp⟩
      have h := scan_of_next hcut rfl
      rw [Lexeme.kind_outcome] at h
      exact h
    have hgoes : p.1 = .whitespace → spelled ps ++ s ≠ [] := by
      intro hblank hnil
      cases ps with
      | nil => exact hlast p rfl hblank
      | cons q qs =>
        have hq : spelled (q :: qs) = q.2.toList ++ spelled qs := List.flatMap_cons
        rw [hq, List.append_assoc] at hbehind
        obtain ⟨_, _, hfirst, -⟩ := scan_of_pieces hbehind
        rw [hq, hfirst] at hnil
        cases hnil
    have happend : scan c (w ++ (spelled ps ++ s) ++ '\n' :: ds) = Lexeme.before ('\n' :: ds) _ :=
      scan_append (by rw [hline]; exact hvalid p (.head _))
        (.inl ⟨rfl, by rw [hline]; exact hgoes⟩)
    rw [hline, Lexeme.before] at happend
    have hassoc : w ++ (spelled ps ++ s) ++ '\n' :: ds
        = w ++ (spelled ps ++ (s ++ '\n' :: ds)) := by simp
    rw [hassoc, List.append_assoc] at happend
    rw [htext, List.cons_append, pieces_cons, happend, hrest, ← htext, String.ofList_toList]
    rfl

/-- The words of a text are its tokens that are no trivia. -/
theorem words_eq_filter (cs : List Char) :
    words cs = (pieces cs).filter (!·.1.isTrivia) := by
  rw [words, pieces, List.filter_map]
  rfl

/-- A text is cut in one way where the front has a given number of bytes. -/
theorem append_inj_of_size {as bs cs ds : List Char} (h : as ++ bs = cs ++ ds)
    (hsize : (String.ofList as).utf8ByteSize = (String.ofList cs).utf8ByteSize) :
    as = cs ∧ bs = ds := by
  have hnil (es : List Char) (h : (String.ofList es).utf8ByteSize = 0) : es = [] := by
    simpa using h
  obtain ⟨es, rfl, rfl⟩ | ⟨es, rfl, rfl⟩ := List.append_eq_append_iff.mp h
  · rw [String.ofList_append, String.utf8ByteSize_append] at hsize
    obtain rfl := hnil es (by omega)
    simp
  · rw [String.ofList_append, String.utf8ByteSize_append] at hsize
    obtain rfl := hnil es (by omega)
    simp

/-- Blanks up to another character are one token. -/
theorem pieces_blanks {bs : List Char} (hbs : ∀ b ∈ bs, isSpace b = true) (hne : bs ≠ [])
    {d : Char} (hd : isSpace d = false) (ds : List Char) :
    pieces (bs ++ d :: ds) = (.whitespace, String.ofList bs) :: pieces (d :: ds) := by
  obtain ⟨b, bs, rfl⟩ := List.exists_cons_of_ne_nil hne
  obtain ⟨hb, hbs⟩ := List.forall_mem_cons.mp hbs
  have hstop : (d :: ds).takeWhile isSpace = [] ∧ (d :: ds).dropWhile isSpace = d :: ds := by
    simp [hd]
  rw [List.cons_append, pieces_cons, scan_of_isSpace hb, Lexeme.run,
    List.takeWhile_append_of_pos hbs, List.dropWhile_append_of_pos hbs, hstop.1, hstop.2,
    List.append_nil, List.singleton_append]

/-- A comment is one token up to the end of its line. -/
theorem pieces_comment (l : CommentLine) (cs : List Char) :
    pieces (l.comment ++ '\n' :: cs)
      = (.lineComment, String.ofList l.comment) :: pieces ('\n' :: cs) := by
  obtain ⟨mark, content, hmark, hcomment, hcontent⟩ := l.exists_mark
  have hline : ∀ c ∈ content, inLine c = true := by
    intro c hc
    rw [inLine, bne_iff_ne]
    rintro rfl
    rw [hcontent] at hc
    obtain hc | hc := List.mem_cons.mp hc
    · cases hc
    · exact l.on_line hc
  have hscan : scan mark (mark :: content ++ '\n' :: cs)
      = .run .lineComment [mark, mark] inLine (content ++ '\n' :: cs) := by
    rcases hmark with rfl | rfl <;> rfl
  rw [hcomment, List.cons_append, pieces_cons, hscan, Lexeme.run,
    List.takeWhile_append_of_pos hline, List.dropWhile_append_of_pos hline]
  simp [inLine]

/-- The tokens of lines of comments with blanks in front, but for the end of the last line. -/
def commentPieces (bs : List Char) : List CommentLine → List (TokenKind × String)
  | [] => []
  | l :: ls =>
    (.whitespace, String.ofList (bs ++ List.replicate l.indent ' ')) ::
      (.lineComment, String.ofList l.comment) :: commentPieces ['\n'] ls

theorem isTrivia_of_mem_commentPieces {bs : List Char} {ls : List CommentLine}
    {t : TokenKind × String} (ht : t ∈ commentPieces bs ls) : t.1.isTrivia = true := by
  induction ls generalizing bs with
  | nil => cases ht
  | cons l ls ih =>
    rw [commentPieces, List.mem_cons, List.mem_cons] at ht
    obtain rfl | rfl | ht := ht
    · rfl
    · rfl
    · exact ih ht

/-- Lines of comments are read as the comments with blanks in front; the end of the last line
belongs to what is behind. -/
theorem pieces_lines {bs : List Char} (hbs : ∀ b ∈ bs, isSpace b = true) (hne : bs ≠ [])
    {ls : List CommentLine} (hls : ls ≠ []) (cs : List Char) :
    pieces (bs ++ CommentLine.block ls ++ cs) = commentPieces bs ls ++ pieces ('\n' :: cs) := by
  induction ls generalizing bs with
  | nil => exact absurd rfl hls
  | cons l ls ih =>
    have hblanks : ∀ b ∈ bs ++ List.replicate l.indent ' ', isSpace b = true := by
      intro b hb
      obtain hb | hb := List.mem_append.mp hb
      · exact hbs b hb
      · rw [List.eq_of_mem_replicate hb]
        rfl
    have hfirst : pieces (bs ++ CommentLine.block (l :: ls) ++ cs)
        = (.whitespace, String.ofList (bs ++ List.replicate l.indent ' ')) ::
          (.lineComment, String.ofList l.comment)
            :: pieces ('\n' :: (CommentLine.block ls ++ cs)) := by
      obtain ⟨mark, content, hmark, hcomment, -⟩ := l.exists_mark
      have hspace : isSpace mark = false := by rcases hmark with rfl | rfl <;> rfl
      have hrest := pieces_comment l (CommentLine.block ls ++ cs)
      rw [← hrest, hcomment, List.cons_append, ← pieces_blanks hblanks (by simp [hne]) hspace,
        ← List.cons_append, ← hcomment]
      simp [CommentLine.block_cons, CommentLine.text]
    rw [hfirst, commentPieces, List.cons_append, List.cons_append]
    cases ls with
    | nil => rfl
    | cons l' ls => rw [← ih (by simp [isSpace]) (by simp) (by simp)]; rfl

/-- In front of anything but a blank, the text is read as the tokens. -/
def ReadAs (cs : List Char) (ps : List (TokenKind × String)) : Prop :=
  ∀ d ds, isSpace d = false → pieces (cs ++ d :: ds) = ps ++ pieces (d :: ds)

theorem readAs_blanks {bs : List Char} (hbs : ∀ b ∈ bs, isSpace b = true) (hne : bs ≠ []) :
    ReadAs bs [(.whitespace, String.ofList bs)] :=
  fun _ ds hd => pieces_blanks hbs hne hd ds

/-- The last token in front of what stands below comments. -/
def lineEnd (indent : Nat) : TokenKind × String :=
  (.whitespace, String.ofList ('\n' :: List.replicate indent ' '))

theorem isTrivia_of_above {above : List (TokenKind × String)}
    (habove : ∀ t ∈ above, t.1.isTrivia = true) (bs : List Char) (ls : List CommentLine)
    (indent : Nat) : ∀ t ∈ above ++ (commentPieces bs ls ++ [lineEnd indent]),
      t.1.isTrivia = true := by
  intro t ht
  obtain ht | ht := List.mem_append.mp ht
  · exact habove t ht
  obtain ht | ht := List.mem_append.mp ht
  · exact isTrivia_of_mem_commentPieces ht
  · rw [List.mem_singleton.mp ht]
    rfl

theorem isSpace_replicate (n : Nat) : ∀ b ∈ List.replicate n ' ', isSpace b = true := by
  intro b hb
  rw [List.eq_of_mem_replicate hb]
  rfl

theorem readAs_block {bs : List Char} (hbs : ∀ b ∈ bs, isSpace b = true) (hne : bs ≠ [])
    {ls : List CommentLine} (hls : ls ≠ []) (indent : Nat) :
    ReadAs (bs ++ CommentLine.block ls ++ List.replicate indent ' ')
      (commentPieces bs ls ++ [lineEnd indent]) := by
  intro d ds hd
  have hend : ∀ b ∈ '\n' :: List.replicate indent ' ', isSpace b = true :=
    List.forall_mem_cons.mpr ⟨rfl, isSpace_replicate indent⟩
  rw [List.append_assoc, pieces_lines hbs hne hls, ← List.cons_append,
    pieces_blanks hend (List.cons_ne_nil _ _) hd, List.append_assoc]
  rfl

/-- Comments in front of something, and blank lines in front of the comments: the last lines are
read as comments with a blank line above them. -/
theorem exists_readAs_stacked {gap : List Char} (hgap : ∀ b ∈ gap, isSpace b = true)
    (hline : 1 < gap.count '\n') (upper : List CommentLine) (blanks : Nat) {ls : List CommentLine}
    (hls : ls ≠ []) (indent : Nat) :
    ∃ above bs, (∀ t ∈ above, t.1.isTrivia = true) ∧ 1 < bs.count '\n' ∧
      ReadAs (gap ++ CommentLine.stacked upper blanks ls ++ List.replicate indent ' ')
        (above ++ (commentPieces bs ls ++ [lineEnd indent])) := by
  have hne : gap ≠ [] := by
    rintro rfl
    cases hline
  cases upper with
  | nil => exact ⟨[], gap, nofun, hline, readAs_block hgap hne hls indent⟩
  | cons l upper =>
    have hbs : ∀ b ∈ '\n' :: (List.replicate blanks ' ' ++ ['\n']), isSpace b = true := by
      refine List.forall_mem_cons.mpr ⟨rfl, fun b hb => ?_⟩
      obtain hb | hb := List.mem_append.mp hb
      · exact isSpace_replicate blanks b hb
      · rw [List.mem_singleton.mp hb]
        rfl
    refine ⟨commentPieces gap (l :: upper), '\n' :: (List.replicate blanks ' ' ++ ['\n']),
      fun t => isTrivia_of_mem_commentPieces, ?_, ?_⟩
    · simp
    · intro d ds hd
      have hlower := readAs_block hbs (List.cons_ne_nil _ _) hls indent d ds hd
      rw [List.append_assoc (commentPieces gap _), ← hlower]
      simpa [CommentLine.stacked] using pieces_lines hgap hne (List.cons_ne_nil l upper)
        (List.replicate blanks ' ' ++ '\n' :: (CommentLine.block ls
          ++ (List.replicate indent ' ' ++ d :: ds)))

end Lexer
end RelLang
