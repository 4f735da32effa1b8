import RelLang.Proofs.Token.Tokens

/-!
# A blank and a brace behind a text

If a text with a blank and a brace behind it ends in a token that is the brace, the
brace is behind the tokens of the text. The blank ends no token but blanks, and a token
that goes on to the end of the line would go on through the brace.
-/

namespace RelLang
namespace Lexer

/-- What ends in a blank is blank, or goes on to the end of the line. -/
theorem Matches.of_blank_end {kind : TokenKind} {v : List Char} (h : Matches kind (v ++ [' '])) :
    (∀ d ∈ v, isSpace d = true) ∨ ∀ d, inLine d = true → Matches kind (v ++ [' ', d]) := by
  have hmark : ∀ p ∈ Punct.all, ' ' ∉ p.spelling.toList := by decide
  have hkeyword : ∀ k ∈ Keyword.all, ' ' ∉ k.spelling.toList := by decide
  generalize hw : v ++ [' '] = w at h
  have hmem : ' ' ∈ w := by simp [← hw]
  have hline : ∀ {cs : List Char} {d : Char}, (∀ e ∈ cs, inLine e = true) → inLine d = true →
      ∀ e ∈ cs ++ [d], inLine e = true := by
    intro cs d hcs hd e he
    obtain he | he := List.mem_append.mp he
    · exact hcs e he
    · obtain rfl := List.mem_singleton.mp he
      exact hd
  have hlong : ∀ d, v ++ [' ', d] = w ++ [d] := fun d => by simp [← hw]
  cases h with
  | blanks h => exact .inl fun d hd => h d (hw ▸ List.mem_append_left _ hd)
  | slashes h => exact .inr fun d hd => hlong d ▸ .slashes (hline h hd)
  | dashes h => exact .inr fun d hd => hlong d ▸ .dashes (hline h hd)
  | langLine hb h => exact .inr fun d hd => hlong d ▸ .langLine hb (hline h hd)
  | word hc h =>
    obtain rfl | hmem := List.mem_cons.mp hmem
    · cases hc
    · exact absurd (h _ hmem) (by decide)
  | digits h => exact absurd (h _ hmem) (by decide)
  | atom hc h =>
    obtain hmem | hmem := List.mem_cons.mp hmem
    · cases hmem
    obtain rfl | hmem := List.mem_cons.mp hmem
    · cases hc
    · exact absurd (h _ hmem) (by decide)
  | mark p => exact absurd hmem (hmark p p.mem_all)
  | keyword k => exact absurd hmem (hkeyword k k.mem_all)
  | commentOpening | pathOpening | sexprOpening | turnedMark => exact absurd hmem (by decide)

/-- A construct does not end with a blank. -/
theorem FirstEnd.ne_blank_end {kind : TokenKind} {rest u v : List Char} (h : FirstEnd kind rest u) :
    u ≠ v ++ [' '] := by
  rintro rfl
  have hcloses := h.closes
  unfold Closes at hcloses
  split at hcloses
  · obtain ⟨front, hfront⟩ := hcloses
    have hlast := congrArg List.getLast? hfront
    simp at hlast
  · obtain ⟨front, hfront⟩ := hcloses
    have hlast := congrArg List.getLast? hfront
    simp at hlast
  · have hshorter : Closes .sexpr v := by simpa [Closes] using hcloses
    have hlength := h.first v ((List.prefix_append _ _).trans h.front) hshorter
    rw [List.length_append, List.length_singleton] at hlength
    omega
  · exact hcloses

/-- A token that ends in a blank where the line goes on is blank. -/
theorem Next.of_blank_end {cs v : List Char} {o : Outcome} {d : Char} (h : Next cs o (v ++ [' ']))
    (hmore : v ++ [' ', d] <+: cs) (hd : inLine d = true) (hvalid : o.kind ≠ .invalid) :
    ∀ e ∈ v, isSpace e = true := by
  generalize hw : v ++ [' '] = w at h
  cases h with
  | whole hlongest _ =>
    subst hw
    obtain hblank | hgoes := hlongest.isMatch.of_blank_end
    · exact hblank
    · have hlength := hlongest.longest _ _ hmore (hgoes d hd)
      simp only [List.length_append, List.length_cons, List.length_nil] at hlength
      omega
  | @closed kind w fault u hlongest hopens hends =>
    obtain ⟨u', rfl⟩ : ∃ u', u = u' ++ [' '] := by
      have hne : u ≠ [] := by
        rintro rfl
        have hcloses := hends.closes
        unfold Closes at hcloses
        split at hcloses <;> simp at hcloses
      have hlast := congrArg List.getLast? hw
      rw [List.getLast?_append_of_ne_nil _ hne, List.getLast?_concat] at hlast
      exact ⟨_, (List.dropLast_append_getLast? _ hlast.symm).symm⟩
    exact absurd rfl hends.ne_blank_end
  | unclosed | stray => exact absurd rfl hvalid

/-- All tokens of the text are whole, and the last of them is a closing brace. -/
structure EndsInBrace (cs : List Char) : Prop where
  valid : ∀ l ∈ lexemes cs, l.kind ≠ .invalid
  last : (lexemes cs).getLast?.map (·.kind) = some (.punct .rbrace)

theorem EndsInBrace.tail {c : Char} {cs : List Char} (h : EndsInBrace (c :: cs))
    (hrest : (scan c cs).rest ≠ []) : EndsInBrace (scan c cs).rest := by
  obtain ⟨hvalid, hlast⟩ := h
  rw [lexemes] at hvalid hlast
  refine ⟨fun l hl => hvalid l (List.mem_cons_of_mem _ hl), ?_⟩
  obtain ⟨d, ds, hds⟩ := List.exists_cons_of_ne_nil hrest
  rw [hds] at hlast ⊢
  rw [lexemes] at hlast ⊢
  rwa [List.getLast?_cons_cons] at hlast

/-- A closing brace is one character. -/
theorem Next.text_of_rbrace {cs w : List Char} {o : Outcome} (h : Next cs o w)
    (hkind : o.kind = .punct .rbrace) : w = ['\x7d'] := by
  cases h with
  | @whole kind w hlongest _ =>
    obtain rfl : kind = .punct .rbrace := hkind
    have hmatch := hlongest.isMatch
    cases hmatch
    rfl
  | @closed kind _ _ _ _ hopens _ =>
    obtain rfl : kind = .punct .rbrace := hkind
    cases hopens
  | unclosed | stray => cases hkind

/-- A first token that ends in front of what is put behind the text is the first token of the
text. -/
theorem scan_of_inside {c : Char} {cs ds behind : List Char}
    (h : c :: cs = (scan c (cs ++ ds)).text ++ behind) :
    scan c cs = ⟨(scan c (cs ++ ds)).kind, (scan c (cs ++ ds)).text, behind⟩ := by
  have hprefix : (scan c (cs ++ ds)).text ++ behind <+: c :: (cs ++ ds) :=
    h ▸ List.prefix_append (c :: cs) ds
  have hnext := (next_scan c (cs ++ ds)).cut hprefix
  rw [← h] at hnext
  rw [scan_of_next hnext h.symm, Lexeme.kind_outcome]

/-- Blanks are one token. -/
theorem lexemes_of_blanks {c : Char} {cs : List Char} (h : ∀ d ∈ c :: cs, isSpace d = true) :
    lexemes (c :: cs) = [⟨.whitespace, c :: cs, []⟩] := by
  obtain ⟨hc, hcs⟩ := List.forall_mem_cons.mp h
  rw [lexemes, scan_of_isSpace hc, Lexeme.run, List.takeWhile_eq_self_iff.mpr hcs,
    List.dropWhile_eq_nil_iff.mpr hcs, lexemes, List.singleton_append]

/-- A text that ends in a blank and a brace ends in the brace, or in a token that goes on to
there. -/
theorem EndsInBrace.words_eq {cs : List Char} (h : EndsInBrace (cs ++ [' ', '\x7d'])) :
    (∀ l ∈ lexemes cs, l.kind ≠ .invalid) ∧
      words (cs ++ [' ', '\x7d']) = words cs ++ [(.punct .rbrace, "\x7d")] := by
  have hbrace : words ['\x7d'] = [(.punct .rbrace, "\x7d")] := by rw [words, lexemes_eq]; rfl
  fun_induction lexemes cs with
  | case1 =>
    exact ⟨List.forall_mem_nil _, by rw [List.nil_append, words_blank rfl, hbrace, words_nil]; rfl⟩
  | case2 c cs ih =>
    rw [List.cons_append] at h ⊢
    have hnext := next_scan c (cs ++ [' ', '\x7d'])
    have htext := text_scan c (cs ++ [' ', '\x7d'])
    have hkind := Lexeme.kind_outcome (scan c (cs ++ [' ', '\x7d']))
    have hfirst : (scan c (cs ++ [' ', '\x7d'])).kind ≠ .invalid :=
      h.valid _ (by rw [lexemes]; exact List.mem_cons_self)
    have hinside : ∀ behind, c :: cs = (scan c (cs ++ [' ', '\x7d'])).text ++ behind →
        (scan c (cs ++ [' ', '\x7d'])).rest = behind ++ [' ', '\x7d'] →
        (∀ l ∈ scan c cs :: lexemes (scan c cs).rest, l.kind ≠ .invalid) ∧
          words (c :: (cs ++ [' ', '\x7d'])) = words (c :: cs) ++ [(.punct .rbrace, "\x7d")] := by
      intro behind hfront hrest
      have hscan := scan_of_inside hfront
      have htail := h.tail (by rw [hrest]; simp)
      rw [hrest] at htail
      rw [hscan] at ih ⊢
      obtain ⟨hclosed, hwords⟩ := ih htail
      refine ⟨List.forall_mem_cons.mpr ⟨hfirst, hclosed⟩, ?_⟩
      rw [words_cons, words_cons, hscan, hrest, hwords, List.append_assoc]
    -- the first token ends in the text, with the blank, or with the brace
    obtain ⟨behind, hfront, hrest⟩ | ⟨behind, hlong, hend⟩ :=
      List.append_eq_append_iff.mp (htext.trans (List.cons_append ..).symm)
    · exact hinside behind hfront hrest
    cases behind with
    | nil => exact hinside [] (by simpa using hlong.symm) hend.symm
    | cons b bs =>
      cases bs with
      | nil =>
        obtain ⟨rfl, hrest⟩ := List.cons.inj hend
        rw [hlong] at hnext
        have hblank := hnext.of_blank_end (List.prefix_refl _) rfl (by rwa [hkind])
        have hall : (c :: cs).dropWhile isSpace = [] := List.dropWhile_eq_nil_iff.mpr hblank
        have hlexemes := lexemes_of_blanks hblank
        rw [← List.cons_append, words_blanks hall, words_blank rfl, hbrace, ← lexemes, words,
          hlexemes]
        exact ⟨List.forall_mem_singleton.mpr TokenKind.noConfusion, rfl⟩
      | cons b' bs =>
        have hnil : (scan c (cs ++ [' ', '\x7d'])).rest = [] := by
          have hlength := congrArg List.length hend
          simp only [List.length_append, List.length_cons, List.length_nil] at hlength
          exact List.eq_nil_of_length_eq_zero (by omega)
        have hlast := h.last
        rw [lexemes, hnil, lexemes] at hlast
        have hbrace := hnext.text_of_rbrace (hkind.trans (Option.some.inj hlast))
        rw [hlong] at hbrace
        simp at hbrace

/-- What is in front of the last token does not count. -/
theorem EndsInBrace.cons {c : Char} {cs : List Char} (h : EndsInBrace (scan c cs).rest)
    (hvalid : (scan c cs).kind ≠ .invalid) : EndsInBrace (c :: cs) := by
  constructor
  · rw [lexemes]
    exact List.forall_mem_cons.mpr ⟨hvalid, h.valid⟩
  · have hlast := h.last
    rw [lexemes, List.getLast?_cons]
    cases hl : (lexemes (scan c cs).rest).getLast? with
    | none =>
      rw [hl] at hlast
      cases hlast
    | some l => rwa [hl] at hlast

theorem EndsInBrace.of_blank {b : Char} {cs : List Char} (hb : isSpace b = true)
    (h : EndsInBrace (b :: cs)) : EndsInBrace cs := by
  have hrest : ∀ c cs, isSpace c = true → (scan c cs).rest = cs.dropWhile isSpace := by
    intro c cs hc
    rw [scan_of_isSpace hc]
    rfl
  have htail : EndsInBrace (cs.dropWhile isSpace) := by
    rw [← hrest b cs hb]
    refine h.tail fun hnil => ?_
    have hlast := h.last
    rw [lexemes, hnil, lexemes, scan_of_isSpace hb] at hlast
    cases hlast
  cases cs with
  | nil => exact htail
  | cons c cs =>
    cases hc : isSpace c with
    | false => rwa [List.dropWhile_cons_of_neg (by simp [hc])] at htail
    | true =>
      rw [List.dropWhile_cons_of_pos hc, ← hrest c cs hc] at htail
      exact htail.cons (by rw [scan_of_isSpace hc]; exact TokenKind.noConfusion)

/-- A word and a blank in front change nothing at the end of a text. -/
theorem EndsInBrace.of_word {w cs : List Char} {l : Lexeme} (hw : lexemes w = [l])
    (hkind : l.kind.isSignificant = true) (h : EndsInBrace (w ++ ' ' :: cs)) : EndsInBrace cs := by
  cases w with
  | nil => simp [lexemes] at hw
  | cons c w =>
    rw [List.cons_append] at h
    have hrest : (scan c (w ++ ' ' :: cs)).rest = ' ' :: cs :=
      congrArg Lexeme.rest (scan_append_blank hw hkind cs)
    have htail := h.tail (by rw [hrest]; exact List.cons_ne_nil _ _)
    rw [hrest] at htail
    exact htail.of_blank rfl

end Lexer
end RelLang
