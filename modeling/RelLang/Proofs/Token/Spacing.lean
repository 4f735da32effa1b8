import RelLang.Proofs.Token.Lexer

/-!
# Texts one behind the other

A token does not change if a blank and more text are put behind it. So the tokens of
texts that are written one behind the other, each ended by a new line, are those of
the texts, and those of words with blanks between them are the words. The one end that
a blank of the same line cannot be is that of a comment, which goes on to the end of
the line.
-/

namespace RelLang
namespace Lexer

/-! ### A token with a blank behind it -/

/-- The lexeme with more text behind it. -/
def Lexeme.before (behind : List Char) (l : Lexeme) : Lexeme := { l with rest := l.rest ++ behind }

theorem takeWhile_append_cons (test : Char → Bool) {cs : List Char} {b : Char} (ds : List Char)
    (h : test b = false ∨ cs.dropWhile test ≠ []) :
    (cs ++ b :: ds).takeWhile test = cs.takeWhile test ∧
      (cs ++ b :: ds).dropWhile test = cs.dropWhile test ++ b :: ds := by
  induction cs with
  | nil =>
    rcases h with h | h
    · simp [h]
    · exact absurd rfl h
  | cons c cs ih =>
    cases hc : test c with
    | false => simp [hc]
    | true =>
      have hi := ih (by simpa [hc] using h)
      simp [hc, hi]

theorem run_append {kind : TokenKind} {front cs ds : List Char} {test : Char → Bool} {b : Char}
    (h : test b = false ∨ cs.dropWhile test ≠ []) :
    Lexeme.run kind front test (cs ++ b :: ds)
      = (Lexeme.run kind front test cs).before (b :: ds) := by
  obtain ⟨htake, hdrop⟩ := takeWhile_append_cons test ds h
  rw [Lexeme.run, htake, hdrop]
  rfl

theorem untilCommentEnd_append {cs text rest : List Char} (ds : List Char)
    (h : untilCommentEnd cs = some (text, rest)) :
    untilCommentEnd (cs ++ ds) = some (text, rest ++ ds) := by
  fun_induction untilCommentEnd cs generalizing text with
  | case1 => simp at h
  | case2 r =>
    obtain ⟨rfl, rfl⟩ : ['*', '/'] = text ∧ r = rest := by simpa using h
    rfl
  | case3 c cs hne ih =>
    obtain ⟨⟨t, r⟩, ht, he⟩ := Option.map_eq_some_iff.1 h
    obtain ⟨rfl, rfl⟩ := Prod.mk.injEq .. ▸ he
    have hi := ih ht
    have hne' : ∀ r, c = '*' → cs ++ ds = '/' :: r → False := by
      intro r hc heq
      cases cs with
      | nil => simp [untilCommentEnd] at ht
      | cons d cs =>
        obtain ⟨rfl, -⟩ := List.cons.inj heq
        exact hne cs hc rfl
    rw [List.cons_append, untilCommentEnd.eq_3 _ _ hne', hi]
    rfl

theorem untilBalanced_append {depth : Nat} {cs text rest : List Char} (ds : List Char)
    (h : untilBalanced depth cs = some (text, rest)) :
    untilBalanced depth (cs ++ ds) = some (text, rest ++ ds) := by
  fun_induction untilBalanced depth cs generalizing text with
  | case1 => simp at h
  | case3 depth cs hdepth _ =>
    obtain ⟨rfl, rfl⟩ := Prod.mk.injEq .. ▸ Option.some.inj h
    simp [untilBalanced, *]
  | case2 _ _ ih | case4 _ _ _ _ ih | case5 _ _ _ _ _ ih =>
    obtain ⟨⟨t, r⟩, ht, he⟩ := Option.map_eq_some_iff.1 h
    obtain ⟨rfl, rfl⟩ := Prod.mk.injEq .. ▸ he
    simp [untilBalanced, *]

theorem isPrefixOf_append {w cs : List Char} {b : Char} (hb : b ∉ w) (ds : List Char) :
    w.isPrefixOf (cs ++ b :: ds) = w.isPrefixOf cs := by
  induction w generalizing cs with
  | nil => rfl
  | cons c w ih =>
    obtain ⟨hne, hw⟩ := not_or.mp (mt List.mem_cons.mpr hb)
    cases cs with
    | nil => simp [List.isPrefixOf, Ne.symm hne]
    | cons d cs => simp [List.isPrefixOf, ih hw]

theorem longest?_append (cs ds : List Char) {b : Char} (hb : b = '\n' ∨ b = ' ') :
    Punct.longest? (cs ++ b :: ds) = Punct.longest? cs := by
  have hblank : ∀ e ∈ Punct.spellings, '\n' ∉ e.1 ∧ ' ' ∉ e.1 := by decide
  have htest : ∀ e ∈ Punct.spellings, e.1.isPrefixOf (cs ++ b :: ds) = e.1.isPrefixOf cs := by
    intro e he
    apply isPrefixOf_append
    rcases hb with rfl | rfl
    · exact (hblank e he).1
    · exact (hblank e he).2
  unfold Punct.longest?
  generalize Punct.spellings = es at htest
  induction es with
  | nil => rfl
  | cons e es ih =>
    have he := htest e List.mem_cons_self
    have hi := ih fun e he => htest e (List.mem_cons_of_mem _ he)
    rw [List.find?_cons, List.find?_cons, he, hi]

theorem scanPunct_append (c : Char) (cs ds : List Char) {b : Char} (hb : b = '\n' ∨ b = ' ') :
    scanPunct c (cs ++ b :: ds) = (scanPunct c cs).before (b :: ds) := by
  have hlongest := longest?_append (c :: cs) ds hb
  rw [List.cons_append] at hlongest
  unfold scanPunct
  rw [hlongest]
  split
  · next text p h =>
    obtain ⟨rest, hrest⟩ := (Punct.longest?_eq_some h).2
    have hlength : text.length ≤ (c :: cs).length := by
      rw [← hrest, List.length_append]
      omega
    rw [← List.cons_append, List.drop_append_of_le_length hlength]
    rfl
  · rfl

theorem scanPath_append {front cs ds : List Char} {b : Char}
    (h : (scanPath front cs).kind ≠ .invalid) :
    scanPath front (cs ++ b :: ds) = (scanPath front cs).before (b :: ds) := by
  unfold scanPath at h ⊢
  dsimp only at h ⊢
  split at h
  · next rest hrest =>
    have hbehind : cs.dropWhile (fun c => c != '\x22' && c != '\n') ≠ [] := by
      simp [hrest]
    obtain ⟨htake, hdrop⟩ := takeWhile_append_cons _ (b := b) ds (.inr hbehind)
    rw [htake, hdrop, hrest]
    rfl
  · exact absurd rfl h

theorem closed_append {kind : TokenKind} {front cs ds : List Char}
    {found found' : Option (List Char × List Char)}
    (hfound : ∀ text rest, found = some (text, rest) → found' = some (text, rest ++ ds))
    (h : (Lexeme.closed kind front cs found).kind ≠ .invalid) :
    Lexeme.closed kind front (cs ++ ds) found' = (Lexeme.closed kind front cs found).before ds := by
  match found, h with
  | none, h => exact absurd rfl h
  | some (text, rest), _ =>
    rw [hfound text rest rfl]
    rfl

/-- What is no blank stands in front of the blank. -/
theorem cons_of_append_blank {cs ds ts : List Char} {b d : Char} (hb : b = '\n' ∨ b = ' ')
    (h : cs ++ b :: ds = d :: ts) (hline : d ≠ '\n') (hspace : d ≠ ' ') :
    ∃ cs', cs = d :: cs' ∧ cs' ++ b :: ds = ts := by
  rcases List.append_eq_cons_iff.mp h with ⟨-, hcons⟩ | ⟨cs', hcs, hts⟩
  · obtain ⟨rfl, -⟩ := List.cons.inj hcons
    rcases hb with rfl | rfl
    · exact absurd rfl hline
    · exact absurd rfl hspace
  · exact ⟨cs', hcs, hts.symm⟩

theorem lang_of_append_blank {cs ds ts : List Char} {b : Char} (hb : b = '\n' ∨ b = ' ')
    (h : cs ++ b :: ds = 'l' :: 'a' :: 'n' :: 'g' :: ts) :
    ∃ cs', cs = 'l' :: 'a' :: 'n' :: 'g' :: cs' ∧ cs' ++ b :: ds = ts := by
  obtain ⟨cs₁, rfl, h₁⟩ := cons_of_append_blank hb h (by decide) (by decide)
  obtain ⟨cs₂, rfl, h₂⟩ := cons_of_append_blank hb h₁ (by decide) (by decide)
  obtain ⟨cs₃, rfl, h₃⟩ := cons_of_append_blank hb h₂ (by decide) (by decide)
  obtain ⟨cs₄, rfl, h₄⟩ := cons_of_append_blank hb h₃ (by decide) (by decide)
  exact ⟨cs₄, rfl, h₄⟩

/-- The blank behind a text is no part of its first token, unless the token is blank itself. -/
theorem scan_append {c : Char} {cs ds : List Char} {b : Char}
    (hvalid : (scan c cs).kind ≠ .invalid)
    (hb : (b = '\n' ∧ ((scan c cs).kind = .whitespace → (scan c cs).rest ≠ [])) ∨
      (b = ' ' ∧ (scan c cs).kind.isTrivia = false ∧ (scan c cs).rest = [])) :
    scan c (cs ++ b :: ds) = (scan c cs).before (b :: ds) := by
  have hblank : b = '\n' ∨ b = ' ' := hb.imp And.left And.left
  have hpunct := scanPunct_append c cs ds hblank
  unfold scan at hvalid hb ⊢
  by_cases hspace : isSpace c
  · rw [if_pos hspace] at hvalid hb ⊢
    rw [if_pos hspace]
    apply run_append
    rcases hb with ⟨-, h⟩ | ⟨-, h, -⟩
    · exact .inr (h rfl)
    · cases h
  rw [if_neg hspace] at hvalid hb ⊢
  rw [if_neg hspace]
  by_cases hword : isWordStart c
  · rw [if_pos hword] at hvalid hb ⊢
    rw [if_pos hword]
    have hrest : isWordRest b = false := by
      rcases hblank with rfl | rfl <;> rfl
    obtain ⟨htake, hdrop⟩ : (cs ++ b :: ds).takeWhile isWordRest = cs.takeWhile isWordRest ∧
        (cs ++ b :: ds).dropWhile isWordRest = cs.dropWhile isWordRest ++ b :: ds :=
      takeWhile_append_cons isWordRest ds (.inl hrest)
    rw [scanWord, htake, hdrop]
    rfl
  rw [if_neg hword] at hvalid hb ⊢
  rw [if_neg hword]
  by_cases hdigit : isDigit c
  · rw [if_pos hdigit] at hvalid hb ⊢
    rw [if_pos hdigit]
    apply run_append
    rcases hblank with rfl | rfl <;> exact .inl rfl
  rw [if_neg hdigit] at hvalid hb ⊢
  rw [if_neg hdigit]
  clear hspace hword hdigit
  split at hvalid
  · rcases hb with ⟨rfl, -⟩ | ⟨-, h, -⟩
    · exact run_append (.inl rfl)
    · cases h
  · rcases hb with ⟨rfl, -⟩ | ⟨-, h, -⟩
    · exact run_append (.inl rfl)
    · cases h
  · exact closed_append (fun _ _ => untilCommentEnd_append _) hvalid
  · rcases hb with ⟨rfl, -⟩ | ⟨-, h, -⟩
    · exact run_append (.inl rfl)
    · cases h
  · rcases hb with ⟨rfl, -⟩ | ⟨-, h, -⟩
    · exact run_append (.inl rfl)
    · cases h
  · exact scanPath_append hvalid
  · next d cs =>
    split at hvalid
    · next hd =>
      show (if _ then _ else _) = Lexeme.before _ (if _ then _ else _)
      rw [if_pos hd, if_pos hd]
      apply run_append
      rcases hblank with rfl | rfl <;> exact .inl rfl
    · exact absurd rfl hvalid
  · exact closed_append (fun _ _ => untilBalanced_append _) hvalid
  · next hquote hslash hdash hstar hlang hlangTab hatom hsexpr =>
    refine Eq.trans ?_ hpunct
    split
    · next heq =>
      obtain ⟨_, hcs, -⟩ := cons_of_append_blank hblank heq (by decide) (by decide)
      exact (hslash _ rfl hcs).elim
    · next heq =>
      obtain ⟨_, hcs, -⟩ := cons_of_append_blank hblank heq (by decide) (by decide)
      exact (hdash _ rfl hcs).elim
    · next heq =>
      obtain ⟨_, hcs, -⟩ := cons_of_append_blank hblank heq (by decide) (by decide)
      exact (hstar _ rfl hcs).elim
    · next heq =>
      obtain ⟨_, rfl, hrest⟩ := lang_of_append_blank hblank heq
      -- the blank cannot make a language line of a `#lang` that is two tokens
      rcases List.append_eq_cons_iff.mp hrest with ⟨rfl, hcons⟩ | ⟨_, rfl, -⟩
      · obtain ⟨rfl, -⟩ := List.cons.inj hcons
        rcases hb with ⟨hline, -⟩ | ⟨-, -, hnil⟩
        · cases hline
        · cases hnil
      · exact (hlang _ rfl rfl).elim
    · next heq =>
      obtain ⟨_, rfl, hrest⟩ := lang_of_append_blank hblank heq
      rcases List.append_eq_cons_iff.mp hrest with ⟨rfl, hcons⟩ | ⟨_, rfl, -⟩
      · obtain ⟨rfl, -⟩ := List.cons.inj hcons
        rcases hblank with hline | hline <;> cases hline
      · exact (hlangTab _ rfl rfl).elim
    · exact (hquote rfl).elim
    · next heq =>
      cases cs with
      | nil => exact absurd rfl hvalid
      | cons d cs => exact (hatom d cs rfl rfl).elim
    · next heq =>
      obtain ⟨_, hcs, -⟩ := cons_of_append_blank hblank heq (by decide) (by decide)
      exact (hsexpr _ rfl hcs).elim
    · rfl

/-! ### The words of a text -/

/-- The tokens of a text that are no trivia, kind and text. -/
def words (cs : List Char) : List (TokenKind × String) :=
  ((lexemes cs).filter (!·.kind.isTrivia)).map fun l => (l.kind, String.ofList l.text)

theorem words_nil : words [] = [] := by
  simp [words, lexemes]

theorem words_cons (c : Char) (cs : List Char) : words (c :: cs) =
    (if (scan c cs).kind.isTrivia then [] else [((scan c cs).kind, String.ofList (scan c cs).text)])
      ++ words (scan c cs).rest := by
  rw [words, lexemes, List.filter_cons]
  cases (scan c cs).kind.isTrivia <;> rfl

theorem scan_of_isSpace {c : Char} (hc : isSpace c = true) (cs : List Char) :
    scan c cs = .run .whitespace [c] isSpace cs := by
  unfold scan
  rw [if_pos hc]

theorem words_dropWhile_isSpace (cs : List Char) : words (cs.dropWhile isSpace) = words cs := by
  cases cs with
  | nil => rfl
  | cons c cs =>
    cases hc : isSpace c with
    | false => rw [List.dropWhile_cons_of_neg (by simp [hc])]
    | true =>
      rw [List.dropWhile_cons_of_pos hc, words_cons, scan_of_isSpace hc]
      rfl

/-- Blanks in front of a text make no word. -/
theorem words_blank {b : Char} (hb : isSpace b = true) (cs : List Char) :
    words (b :: cs) = words cs := by
  rw [← words_dropWhile_isSpace, List.dropWhile_cons_of_pos hb, words_dropWhile_isSpace]

theorem words_blanks {bs : List Char} (hbs : bs.dropWhile isSpace = []) (cs : List Char) :
    words (bs ++ cs) = words cs := by
  induction bs with
  | nil => rfl
  | cons b bs ih =>
    have hb : isSpace b = true := by
      refine Decidable.byContradiction fun hb => ?_
      rw [List.dropWhile_cons_of_neg hb] at hbs
      cases hbs
    rw [List.dropWhile_cons_of_pos hb] at hbs
    rw [List.cons_append, words_blank hb, ih hbs]

/-- Only blanks make a token of blanks. -/
theorem isSpace_of_kind_scan {c : Char} {cs : List Char} (h : (scan c cs).kind = .whitespace) :
    isSpace c = true := by
  refine Decidable.byContradiction fun hc => ?_
  unfold scan at h
  rw [if_neg hc] at h
  split at h
  · unfold scanWord at h
    dsimp only at h
    split at h <;> cases h
  split at h
  · cases h
  split at h
  · cases h
  · cases h
  · next found _ => cases hfound : untilCommentEnd _ <;> rw [hfound] at h <;> cases h
  · cases h
  · cases h
  · unfold scanPath at h
    dsimp only at h
    split at h <;> cases h
  · split at h <;> cases h
  · cases hfound : untilBalanced 1 _ <;> rw [hfound] at h <;> cases h
  · unfold scanPunct at h
    split at h <;> cases h

/-- A new line ends the last token of a text, if that is none that has to be closed. -/
theorem words_append_line {cs : List Char} (hvalid : ∀ l ∈ lexemes cs, l.kind ≠ .invalid)
    (ds : List Char) : words (cs ++ '\n' :: ds) = words cs ++ words ds := by
  fun_induction lexemes cs with
  | case1 => rw [List.nil_append, words_blank rfl, words_nil, List.nil_append]
  | case2 c cs ih =>
    have hfirst := hvalid _ List.mem_cons_self
    have hrest := ih fun l hl => hvalid l (List.mem_cons_of_mem _ hl)
    by_cases hlast : (scan c cs).kind = .whitespace ∧ (scan c cs).rest = []
    · -- blanks up to the end of the text go on with the new line
      obtain ⟨hkind, hnil⟩ := hlast
      have hspace := isSpace_of_kind_scan hkind
      have hall : (c :: cs).dropWhile isSpace = [] := by
        rw [scan_of_isSpace hspace] at hnil
        rw [List.dropWhile_cons_of_pos hspace]
        exact hnil
      rw [words_blanks hall, words_blank rfl, words_cons, hnil, hkind, words_nil]
      rfl
    · have hscan : scan c (cs ++ '\n' :: ds) = (scan c cs).before ('\n' :: ds) :=
        scan_append hfirst (.inl ⟨rfl, fun hkind hnil => hlast ⟨hkind, hnil⟩⟩)
      rw [List.cons_append, words_cons, hscan, Lexeme.before, hrest, words_cons c cs,
        List.append_assoc]

/-- A blank ends a token. -/
theorem scan_append_blank {c : Char} {w : List Char} {l : Lexeme} (hw : lexemes (c :: w) = [l])
    (hkind : l.kind.isSignificant = true) (cs : List Char) :
    scan c (w ++ ' ' :: cs) = ⟨l.kind, c :: w, ' ' :: cs⟩ := by
  rw [lexemes] at hw
  obtain ⟨rfl, hrest⟩ := List.cons.inj hw
  have hnil : (scan c w).rest = [] := by
    cases hr : (scan c w).rest with
    | nil => rfl
    | cons d ds =>
      rw [hr, lexemes] at hrest
      cases hrest
  obtain ⟨htrivia, hvalid⟩ : (scan c w).kind.isTrivia = false ∧ (scan c w).kind ≠ .invalid := by
    simpa [TokenKind.isSignificant] using hkind
  have htext : (scan c w).text = c :: w := by
    have h := text_scan c w
    rwa [hnil, List.append_nil] at h
  rw [scan_append hvalid (.inr ⟨rfl, htrivia, hnil⟩), Lexeme.before, htext, hnil, List.nil_append]

theorem words_append_blank {w : List Char} {l : Lexeme} (hw : lexemes w = [l])
    (hkind : l.kind.isSignificant = true) (cs : List Char) :
    words (w ++ ' ' :: cs) = (l.kind, String.ofList w) :: words cs := by
  cases w with
  | nil => simp [lexemes] at hw
  | cons c w =>
    have htrivia : l.kind.isTrivia = false := by
      rw [TokenKind.isSignificant, Bool.and_eq_true, Bool.not_eq_true'] at hkind
      exact hkind.1
    rw [List.cons_append, words_cons, scan_append_blank hw hkind, if_neg (by simp [htrivia]),
      words_blank rfl]
    rfl

/-- The text of the token is that token and nothing else. -/
def IsWord (t : TokenKind × String) : Prop :=
  lexemes t.2.toList = [⟨t.1, t.2.toList, []⟩] ∧ t.1.isSignificant = true

/-- Tokens with blanks between them are read as these tokens. -/
theorem words_spaced {ts : List (TokenKind × String)} (hts : ∀ t ∈ ts, IsWord t) :
    words (" ".intercalate (ts.map (·.2))).toList = ts := by
  induction ts with
  | nil => exact words_nil
  | cons t ts ih =>
    obtain ⟨⟨hlex, hkind⟩, hrest⟩ := List.forall_mem_cons.mp hts
    cases ts with
    | nil =>
      have htrivia : t.1.isTrivia = false := by
        rw [TokenKind.isSignificant, Bool.and_eq_true, Bool.not_eq_true'] at hkind
        exact hkind.1
      simp [words, hlex, htrivia]
    | cons u us =>
      have htext : (" ".intercalate ((t :: u :: us).map (·.2))).toList
          = t.2.toList ++ ' ' :: (" ".intercalate ((u :: us).map (·.2))).toList := by
        simp [String.intercalate_cons_cons]
      rw [htext, words_append_blank hlex hkind, ih hrest, String.ofList_toList]

end Lexer

namespace Lexer

/-! ### Words and tokens -/

theorem map_toPair_filter_place (offset : Nat) (ls : List Lexeme) :
    ((place offset ls).filter (!·.kind.isTrivia)).map Token.toPair
      = (ls.filter (!·.kind.isTrivia)).map fun l => (l.kind, String.ofList l.text) := by
  induction ls generalizing offset with
  | nil => rfl
  | cons l ls ih =>
    have hi := ih (offset + (String.ofList l.text).utf8ByteSize)
    rw [place, List.filter_cons, List.filter_cons]
    cases l.kind.isTrivia with
    | true => exact hi
    | false => exact congrArg (_ :: ·) hi

end Lexer

/-- The tokens that are no trivia are the words of the text. -/
theorem map_toPair_significantTokens (text : String) :
    (significantTokens text).map Token.toPair = Lexer.words text.toList :=
  Lexer.map_toPair_filter_place 0 _

/-- Tokens and lexemes are of the same kinds. -/
theorem Lexer.map_kind_place (offset : Nat) (ls : List Lexeme) :
    (place offset ls).map (·.kind) = ls.map (·.kind) := by
  induction ls generalizing offset with
  | nil => rfl
  | cons l ls ih => exact congrArg (l.kind :: ·) (ih _)

theorem Lexer.ne_invalid_of_tokenize {text : String} (h : ∀ t ∈ tokenize text, t.kind ≠ .invalid) :
    ∀ l ∈ lexemes text.toList, l.kind ≠ .invalid := by
  intro l hl hinvalid
  have hmem : l.kind ∈ (tokenize text).map (·.kind) := by
    rw [tokenize, map_kind_place]
    exact List.mem_map_of_mem hl
  obtain ⟨t, ht, hkind⟩ := List.mem_map.mp hmem
  exact h t ht (hkind.trans hinvalid)

end RelLang
