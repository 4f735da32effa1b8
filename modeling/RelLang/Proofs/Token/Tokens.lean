import RelLang.Proofs.Token.LongestMatch
import RelLang.Proofs.Token.Spacing

/-!
# The tokens of a text, of a part of it, and of printed tokens

The tokens of a text are cut off its front one by one, and each is the next token of
what is left. It is still the next one if the text ends behind it or anywhere further
on. So a slice of the tokens of a text is cut into the same tokens, and tokens that
are written with blanks between them are read back.
-/

namespace RelLang

namespace Token

/-- The token some bytes further on. -/
def shift (n : Nat) (t : Token) : Token := { t with start := n + t.start }

/-- The offset of the first token. -/
def listStart (ts : List Token) : Nat := (ts.head?.map start).getD 0

theorem joinText_cons (t : Token) (ts : List Token) :
    (joinText (t :: ts)).toList = t.text.toList ++ (joinText ts).toList := by
  simp [joinText, String.join_cons]

theorem joinText_append (ts us : List Token) :
    (joinText (ts ++ us)).toList = (joinText ts).toList ++ (joinText us).toList := by
  simp [joinText, String.toList_join]

end Token

namespace Lexer

open Token (joinText Placed shift)

variable {c : Char} {cs w : List Char} {o : Outcome} {t : Token} {ts us : List Token}
  {offset : Nat}

/-! ### The next token is scanned -/

theorem Next.ne_nil (h : Next cs o w) : w ≠ [] := by
  cases h with
  | whole hlongest _ => exact hlongest.isMatch.ne_nil
  | closed hlongest _ _ | unclosed hlongest _ _ =>
    exact fun hnil => hlongest.isMatch.ne_nil (List.append_eq_nil_iff.mp hnil).1
  | stray => exact List.cons_ne_nil _ _

theorem Next.kind_eq_invalid_iff (h : Next cs o w) :
    o.kind = .invalid ↔ ∃ fault, o = .fault fault := by
  have hvalid : ∀ {kind : TokenKind} {v : List Char}, Matches kind v → kind ≠ .invalid := by
    intro kind v hmatch
    cases hmatch <;> nofun
  cases h with
  | whole hlongest _ | closed hlongest _ _ =>
    exact ⟨fun hkind => absurd hkind (hvalid hlongest.isMatch), nofun⟩
  | unclosed | stray => exact ⟨fun _ => ⟨_, rfl⟩, fun _ => rfl⟩

/-- There is a next token of a text that has a first character. -/
theorem Next.exists_cons (h : Next cs o w) : ∃ d ds, cs = d :: ds := by
  apply List.exists_cons_of_ne_nil
  rintro rfl
  cases h with
  | whole hlongest _ | closed hlongest _ _ | unclosed hlongest _ _ =>
    exact hlongest.isMatch.ne_nil (List.prefix_nil.mp hlongest.front)
  | stray hfirst _ => cases hfirst

/-- The fault of a piece of text is told by its first characters. -/
theorem Next.ofText_eq {fault : LexicalFault} (h : Next cs (.fault fault) w) :
    LexicalFault.ofText (String.ofList w) = fault := by
  obtain ⟨c, cs, rfl⟩ := h.exists_cons
  obtain ⟨hout, rfl⟩ := h.unique (next_scan c cs)
  unfold Lexeme.outcome at hout
  split at hout
  · cases hout
    rfl
  · cases hout

theorem scan_of_next {rest : List Char} (h : Next (c :: cs) o w) (hsplit : w ++ rest = c :: cs) :
    scan c cs = ⟨o.kind, w, rest⟩ := by
  obtain ⟨rfl, rfl⟩ := h.unique (next_scan c cs)
  have hrest : (scan c cs).rest = rest :=
    List.append_cancel_left ((text_scan c cs).trans hsplit.symm)
  rw [Lexeme.kind_outcome, ← hrest]

theorem lexemes_of_next {rest : List Char} (h : Next (w ++ rest) o w) :
    lexemes (w ++ rest) = ⟨o.kind, w, rest⟩ :: lexemes rest := by
  obtain ⟨c, cs, hcs⟩ := h.exists_cons
  rw [hcs] at h ⊢
  rw [lexemes, scan_of_next h hcs]

/-! ### Tokens that are cut off a text -/

/-- The token is made of what stands at the front of a text. -/
def Heads (t : Token) (cs : List Char) : Prop :=
  ∃ o, Next cs o t.text.toList ∧ t.kind = o.kind

/-- Side by side from an offset on, and each token the next one of the text of the token and of
those behind it. -/
def Cut : Nat → List Token → Prop
  | _, [] => True
  | offset, t :: ts =>
    t.start = offset ∧ Heads t (joinText (t :: ts)).toList
      ∧ Cut (offset + t.text.utf8ByteSize) ts

theorem Heads.size_pos (h : Heads t cs) : 0 < t.text.utf8ByteSize := by
  obtain ⟨o, hnext, -⟩ := h
  apply Nat.pos_of_ne_zero
  intro hzero
  rw [String.utf8ByteSize_eq_zero_iff] at hzero
  exact hnext.ne_nil (by rw [hzero]; rfl)

theorem cut_place (offset : Nat) (cs : List Char) : Cut offset (place offset (lexemes cs)) := by
  fun_induction lexemes cs generalizing offset with
  | case1 => trivial
  | case2 c cs ih =>
    have htext := toList_joinText_place offset (lexemes (c :: cs))
    rw [text_lexemes, lexemes] at htext
    refine ⟨rfl, ?_, ih _⟩
    rw [place] at htext
    rw [htext]
    refine ⟨(scan c cs).outcome, ?_, (Lexeme.kind_outcome _).symm⟩
    rw [String.toList_ofList]
    exact next_scan c cs

/-- Tokens that are cut off a text are the tokens of the text. -/
theorem Cut.place_eq (h : Cut offset ts) :
    place offset (lexemes (joinText ts).toList) = ts := by
  induction ts generalizing offset with
  | nil => rw [joinText, List.map_nil, String.join_nil, String.toList_empty, lexemes, place]
  | cons t ts ih =>
    obtain ⟨hstart, ⟨o, hnext, hkind⟩, hbehind⟩ := h
    rw [Token.joinText_cons] at hnext ⊢
    rw [lexemes_of_next hnext, place, String.ofList_toList, ih hbehind, ← hkind, ← hstart]

/-- What is cut off a text is cut off the text through any of the tokens, and off what is left
behind it. -/
theorem Cut.append (h : Cut offset (ts ++ us)) :
    Cut offset ts ∧ Cut (offset + Token.size ts) us := by
  induction ts generalizing offset with
  | nil => exact ⟨trivial, h⟩
  | cons t ts ih =>
    obtain ⟨hstart, ⟨o, hnext, hkind⟩, hbehind⟩ := h
    obtain ⟨hts, hus⟩ := ih hbehind
    rw [Token.size_cons, ← Nat.add_assoc]
    refine ⟨⟨hstart, ⟨o, ?_, hkind⟩, hts⟩, hus⟩
    have hfront : (joinText (t :: ts)).toList <+: (joinText (t :: ts ++ us)).toList := by
      rw [Token.joinText_append]
      exact List.prefix_append _ _
    rw [Token.joinText_cons] at hfront ⊢
    exact hnext.cut hfront

theorem cut_iff : Cut offset ts ↔ Placed offset ts ∧
    ∀ before t after, ts = before ++ t :: after → Heads t (joinText (t :: after)).toList := by
  constructor
  · intro h
    constructor
    · induction ts generalizing offset with
      | nil => trivial
      | cons t ts ih => exact ⟨h.1, h.2.1.size_pos, ih h.2.2⟩
    · rintro before t after rfl
      exact h.append.2.2.1
  · rintro ⟨hplaced, hheads⟩
    induction ts generalizing offset with
    | nil => trivial
    | cons t ts ih =>
      refine ⟨hplaced.1, hheads [] t ts rfl, ih hplaced.2.2 ?_⟩
      rintro before u after rfl
      exact hheads (t :: before) u after rfl

/-! ### Slices of the tokens of a text -/

theorem map_shift_place (n offset : Nat) (ls : List Lexeme) :
    (place offset ls).map (shift n) = place (n + offset) ls := by
  induction ls generalizing offset with
  | nil => rfl
  | cons l ls ih => rw [place, List.map_cons, ih, place, ← Nat.add_assoc, shift]

theorem Cut.map_shift_tokenize (h : Cut offset ts) :
    (tokenize (joinText ts)).map (shift offset) = ts := by
  rw [tokenize, map_shift_place, Nat.add_zero, h.place_eq]

theorem Cut.tokenize_eq (h : Cut 0 ts) : tokenize (joinText ts) = ts := h.place_eq

theorem Cut.map_shift_listStart (h : Cut offset ts) :
    (tokenize (joinText ts)).map (shift (Token.listStart ts)) = ts := by
  cases ts with
  | nil =>
    have hnil : Cut 0 [] := trivial
    rw [hnil.tokenize_eq, List.map_nil]
  | cons t ts =>
    have hstart : Token.listStart (t :: ts) = offset := h.1
    rw [hstart, h.map_shift_tokenize]

theorem cut_tokenize (text : String) : Cut 0 (tokenize text) := cut_place 0 text.toList

theorem Cut.take (h : Cut offset ts) (i : Nat) : Cut offset (ts.take i) := by
  rw [← List.take_append_drop i ts] at h
  exact h.append.1

theorem Cut.drop (h : Cut offset ts) (i : Nat) :
    Cut (offset + Token.size (ts.take i)) (ts.drop i) := by
  rw [← List.take_append_drop i ts] at h
  exact h.append.2

theorem Cut.singleton (h : Cut offset ts) (ht : t ∈ ts) : Cut t.start [t] := by
  obtain ⟨before, after, rfl⟩ := List.append_of_mem ht
  have hcut : Cut (offset + Token.size before) ([t] ++ after) := h.append.2
  have hstart : t.start = offset + Token.size before := hcut.1
  rw [hstart]
  exact hcut.append.1

/-- A token of a text is a word, if it is one that the grammar sees. -/
theorem Cut.isWord (h : Cut offset [t]) (hkind : t.kind.isSignificant = true) :
    IsWord t.toPair := by
  obtain ⟨-, ⟨o, hnext, hmade⟩, -⟩ := h
  have htext : (joinText [t]).toList = t.text.toList ++ [] := by
    rw [Token.joinText_cons]
    rfl
  rw [htext] at hnext
  have hlexemes := lexemes_of_next hnext
  rw [List.append_nil, lexemes, ← hmade] at hlexemes
  exact ⟨hlexemes, hkind⟩

/-- What is made of an outcome: the token is of its kind, it is invalid if the outcome is a fault,
and then it is reported with the code of the fault. -/
structure Outcome.Makes (o : Outcome) (t : Token) : Prop where
  kind : t.kind = o.kind
  invalid : t.kind = .invalid ↔ ∃ fault, o = .fault fault
  code : ∀ fault, o = .fault fault → (Report.ofInvalid t).toDiagnostic.code.label = codeOf fault

theorem Next.makes (h : Next cs o t.text.toList) (hkind : t.kind = o.kind) : o.Makes t where
  kind := hkind
  invalid := by
    rw [hkind]
    exact h.kind_eq_invalid_iff
  code := by
    rintro fault rfl
    have hfault : LexicalFault.ofText t.text = fault := by
      rw [← String.ofList_toList (s := t.text)]
      exact h.ofText_eq
    show (LexicalFault.ofText t.text).code.label = codeOf fault
    rw [hfault]
    cases fault <;> rfl

end Lexer

open Lexer

/-- The tokens of a text are the tokens that stand side by side from the front of the text on,
make up the text, and are each the next token of the text that is left. -/
theorem tokenize_eq_iff (text : String) (ts : List Token) :
    tokenize text = ts ↔ Token.Placed 0 ts ∧ Token.joinText ts = text ∧
      ∀ before t after, ts = before ++ t :: after →
        ∃ o, Next (Token.joinText (t :: after)).toList o t.text.toList ∧ o.Makes t := by
  constructor
  · rintro rfl
    obtain ⟨hplaced, hheads⟩ := cut_iff.mp (cut_tokenize text)
    refine ⟨hplaced, joinText_tokenize text, fun before t after hsplit => ?_⟩
    obtain ⟨o, hnext, hkind⟩ := hheads before t after hsplit
    exact ⟨o, hnext, hnext.makes hkind⟩
  · rintro ⟨hplaced, rfl, hheads⟩
    have hcut : Cut 0 ts := cut_iff.mpr ⟨hplaced, fun before t after hsplit => by
      obtain ⟨o, hnext, hmade⟩ := hheads before t after hsplit
      exact ⟨o, hnext, hmade.kind⟩⟩
    exact hcut.tokenize_eq

/-- A slice of the tokens of a text is what the text of the slice is cut into, and so is what is in
front of a token, what is behind one, and a token by itself. -/
theorem slices_tokenize (text : String) :
    (∀ i j, (tokenize (Token.joinText ((tokenize text).extract i j))).map
        (Token.shift (Token.listStart ((tokenize text).extract i j)))
      = (tokenize text).extract i j) ∧
    (∀ i, tokenize (Token.joinText ((tokenize text).take i)) = (tokenize text).take i) ∧
    (∀ i, (tokenize (Token.joinText ((tokenize text).drop i))).map
        (Token.shift (Token.listStart ((tokenize text).drop i))) = (tokenize text).drop i) ∧
    ∀ t ∈ tokenize text, (tokenize t.text).map (Token.shift t.start) = [t] := by
  have hcut := cut_tokenize text
  refine ⟨fun i j => ?_, fun i => ?_, fun i => ?_, fun t ht => ?_⟩
  · exact ((hcut.drop i).take (j - i)).map_shift_listStart
  · exact (hcut.take i).tokenize_eq
  · exact (hcut.drop i).map_shift_listStart
  · have htext : Token.joinText [t] = t.text := by simp [Token.joinText]
    rw [← htext]
    exact (hcut.singleton ht).map_shift_tokenize

/-- Tokens of any texts that are written with blanks between them are read back. -/
theorem spaced_tokens_read_back (ts : List (TokenKind × String))
    (hts : ∀ t ∈ ts, t.1.isTrivia = false ∧ t.1 ≠ .invalid ∧
      ∃ text, t ∈ (tokenize text).map Token.toPair) :
    (significantTokens (" ".intercalate (ts.map (·.2)))).map Token.toPair = ts := by
  rw [map_toPair_significantTokens]
  apply words_spaced
  intro t ht
  obtain ⟨htrivia, hvalid, text, hmem⟩ := hts t ht
  obtain ⟨t, htoken, rfl⟩ := List.mem_map.mp hmem
  apply ((cut_tokenize text).singleton htoken).isWord
  rw [TokenKind.isSignificant, Bool.and_eq_true, Bool.not_eq_true', bne_iff_ne]
  exact ⟨htrivia, hvalid⟩

/-- Marks that would make a comment side by side, and words and constructs with blanks in them. -/
theorem minuses_and_constructs_read_back :
    let ts : List (TokenKind × String) :=
      [(.punct .minus, "-"), (.punct .minus, "-"), (.punct .hash, "#"), (.ident, "lang"),
        (.punct .slash, "/"), (.punct .star, "*"), (.filePath, "\x22a -- b\x22"),
        (.sexpr, "$(f (g x) /*)"), (.keyword .inKw, "in"), (.ident, "inside")]
    (∀ t ∈ ts, t.1.isTrivia = false ∧ t.1 ≠ .invalid ∧
      ∃ text, t ∈ (tokenize text).map Token.toPair) ∧
    (significantTokens (" ".intercalate (ts.map (·.2)))).map Token.toPair = ts := by
  intro ts
  have hmarks : (tokenize "- -> - # lang / * in inside").map Token.toPair
      = [(.punct .minus, "-"), (.whitespace, " "), (.punct .arrow, "->"), (.whitespace, " "),
        (.punct .minus, "-"), (.whitespace, " "), (.punct .hash, "#"), (.whitespace, " "),
        (.ident, "lang"), (.whitespace, " "), (.punct .slash, "/"), (.whitespace, " "),
        (.punct .star, "*"), (.whitespace, " "), (.keyword .inKw, "in"), (.whitespace, " "),
        (.ident, "inside")] := by rw [tokenize_eq]; rfl
  have hpath : (tokenize "\x22a -- b\x22").map Token.toPair
      = [(.filePath, "\x22a -- b\x22")] := by rw [tokenize_eq]; rfl
  have hsexpr : (tokenize "$(f (g x) /*)").map Token.toPair
      = [(.sexpr, "$(f (g x) /*)")] := by rw [tokenize_eq]; rfl
  have hts : ∀ t ∈ ts, t.1.isTrivia = false ∧ t.1 ≠ .invalid ∧
      ∃ text, t ∈ (tokenize text).map Token.toPair := by
    intro t ht
    have hvalid : ∀ t ∈ ts, t.1.isTrivia = false ∧ t.1 ≠ .invalid := by decide
    have htext : t ∈ (tokenize "- -> - # lang / * in inside").map Token.toPair ∨
        t ∈ (tokenize "\x22a -- b\x22").map Token.toPair ∨
        t ∈ (tokenize "$(f (g x) /*)").map Token.toPair := by
      rw [hmarks, hpath, hsexpr]
      revert t
      decide
    refine ⟨(hvalid t ht).1, (hvalid t ht).2, ?_⟩
    rcases htext with h | h | h
    · exact ⟨_, h⟩
    · exact ⟨_, h⟩
    · exact ⟨_, h⟩
  exact ⟨hts, spaced_tokens_read_back ts hts⟩

end RelLang
