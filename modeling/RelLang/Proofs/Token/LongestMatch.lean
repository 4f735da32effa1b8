import RelLang.Proofs.Token.Pattern

/-!
# The scanner finds the next token

What a pattern can go on with is told by its first character. So a scan that goes by
the first characters finds the longest match, and what it looks for behind the opening
of a construct is the first end of the construct.
-/

namespace RelLang
namespace Lexer

variable {c : Char} {cs v w : List Char} {kind : TokenKind}

/-! ### Classes of characters -/

theorem eq_of_isSpace (h : isSpace c = true) :
    c = ' ' ∨ c = '\t' ∨ c = '\r' ∨ c = '\n' ∨ c = '\x0c' := by
  simpa [isSpace, or_assoc] using h

theorem not_isWordStart_of_isSpace (h : isSpace c = true) : isWordStart c = false := by
  rcases eq_of_isSpace h with rfl | rfl | rfl | rfl | rfl <;> decide

theorem not_isDigit_of_isSpace (h : isSpace c = true) : isDigit c = false := by
  rcases eq_of_isSpace h with rfl | rfl | rfl | rfl | rfl <;> decide

theorem not_isDigit_of_isWordStart (h : isWordStart c = true) : isDigit c = false := by
  apply Bool.eq_false_iff.mpr
  intro hdigit
  have hbounds : 48 ≤ c.toNat ∧ c.toNat ≤ 57 := by
    simpa [isDigit, Char.le_def, UInt32.le_iff_toNat_le] using hdigit
  have hcases : (97 ≤ c.toNat ∧ c.toNat ≤ 122 ∨ 65 ≤ c.toNat ∧ c.toNat ≤ 90) ∨ c = '_' := by
    simpa [isWordStart, Char.le_def, UInt32.le_iff_toNat_le] using h
  rcases hcases with hletter | rfl
  · omega
  · exact absurd hbounds (by decide)

/-- Starts neither blanks nor a word nor a number. -/
def isSymbol (c : Char) : Bool := !isSpace c && !isWordStart c && !isDigit c

theorem isSymbol_eq : isSymbol c = true ↔
    isSpace c = false ∧ isWordStart c = false ∧ isDigit c = false := by
  simp [isSymbol, and_assoc]

/-! ### What begins with a character -/

theorem symbol_of_mark {p : Punct} (h : (c :: v, p) ∈ Punct.spellings) : isSymbol c = true := by
  have hall : ∀ e ∈ Punct.spellings, e.1.head?.all isSymbol = true := by decide
  exact hall _ h

theorem word_of_keyword {k : Keyword} (h : k.spelling.toList = c :: v) :
    isWordStart c = true ∧ ∀ d ∈ v, isWordRest d = true := by
  have hall : ∀ k ∈ Keyword.all,
      k.spelling.toList.head?.all isWordStart = true
        ∧ k.spelling.toList.tail.all isWordRest = true := by decide
  obtain ⟨hstart, hrest⟩ := hall k k.mem_all
  rw [h] at hstart hrest
  exact ⟨hstart, List.all_eq_true.mp hrest⟩

theorem Matches.ne_nil (h : Matches kind w) : w ≠ [] := by
  have hmarks : ∀ p ∈ Punct.all, p.spelling.toList ≠ [] := by decide
  have hkeywords : ∀ k ∈ Keyword.all, k.spelling.toList ≠ [] := by decide
  cases h with
  | mark p => exact hmarks p p.mem_all
  | keyword k => exact hkeywords k k.mem_all
  | _ => exact List.cons_ne_nil _ _

/-- A match is made of blanks, a word, a number, or begins with a symbol. -/
theorem Matches.cases_first (h : Matches kind (c :: v)) :
    (kind = .whitespace ∧ isSpace c = true ∧ ∀ d ∈ v, isSpace d = true) ∨
    ((kind = .ident ∨ ∃ k : Keyword, kind = .keyword k ∧ k.spelling.toList = c :: v) ∧
      isWordStart c = true ∧ ∀ d ∈ v, isWordRest d = true) ∨
    (kind = .number ∧ isDigit c = true ∧ ∀ d ∈ v, isDigit d = true) ∨
    isSymbol c = true := by
  generalize htext : c :: v = text at h
  cases h with
  | blanks hall =>
    cases htext
    exact .inl ⟨rfl, List.forall_mem_cons.mp hall⟩
  | word hc hall =>
    cases htext
    exact .inr (.inl ⟨.inl rfl, hc, hall⟩)
  | keyword k => exact .inr (.inl ⟨.inr ⟨k, rfl, rfl⟩, word_of_keyword htext.symm⟩)
  | digits hall =>
    cases htext
    exact .inr (.inr (.inl ⟨rfl, List.forall_mem_cons.mp hall⟩))
  | mark p =>
    have hmem : (c :: v, p) ∈ Punct.spellings := Punct.mem_spellings_iff.mpr (.inl htext)
    exact .inr (.inr (.inr (symbol_of_mark hmem)))
  | slashes | dashes | commentOpening | langLine | pathOpening | atom | sexprOpening
  | turnedMark =>
    cases htext
    exact .inr (.inr (.inr (by decide)))

theorem Matches.of_isSpace (h : Matches kind (c :: v)) (hc : isSpace c = true) :
    kind = .whitespace ∧ ∀ d ∈ v, isSpace d = true := by
  rcases h.cases_first with ⟨hkind, -, hall⟩ | ⟨-, hword, -⟩ | ⟨-, hdigit, -⟩ | hsymbol
  · exact ⟨hkind, hall⟩
  · rw [not_isWordStart_of_isSpace hc] at hword
    cases hword
  · rw [not_isDigit_of_isSpace hc] at hdigit
    cases hdigit
  · rw [(isSymbol_eq.mp hsymbol).1] at hc
    cases hc

theorem Matches.of_isWordStart (h : Matches kind (c :: v)) (hc : isWordStart c = true) :
    (kind = .ident ∨ ∃ k : Keyword, kind = .keyword k ∧ k.spelling.toList = c :: v) ∧
      ∀ d ∈ v, isWordRest d = true := by
  rcases h.cases_first with ⟨-, hspace, -⟩ | ⟨hkind, -, hall⟩ | ⟨-, hdigit, -⟩ | hsymbol
  · rw [not_isWordStart_of_isSpace hspace] at hc
    cases hc
  · exact ⟨hkind, hall⟩
  · rw [not_isDigit_of_isWordStart hc] at hdigit
    cases hdigit
  · rw [(isSymbol_eq.mp hsymbol).2.1] at hc
    cases hc

theorem Matches.of_isDigit (h : Matches kind (c :: v)) (hc : isDigit c = true) :
    kind = .number ∧ ∀ d ∈ v, isDigit d = true := by
  rcases h.cases_first with ⟨-, hspace, -⟩ | ⟨-, hword, -⟩ | ⟨hkind, -, hall⟩ | hsymbol
  · rw [not_isDigit_of_isSpace hspace] at hc
    cases hc
  · rw [not_isDigit_of_isWordStart hword] at hc
    cases hc
  · exact ⟨hkind, hall⟩
  · rw [(isSymbol_eq.mp hsymbol).2.2] at hc
    cases hc

/-- What begins with a symbol is a mark, unless it is a comment, a language line, a path, the name
of an atom or an s-expression. -/
theorem Matches.of_isSymbol (h : Matches kind (c :: v)) (hc : isSymbol c = true) :
    (∃ p, kind = .punct p ∧ (c :: v, p) ∈ Punct.spellings) ∨
    (kind = .lineComment ∧ (c = '/' ∨ c = '-') ∧ ∃ u, v = c :: u ∧ ∀ d ∈ u, inLine d = true) ∨
    (kind = .blockComment ∧ c = '/' ∧ v = ['*']) ∨
    (kind = .langLine ∧ c = '#' ∧ ∃ b u, v = 'l' :: 'a' :: 'n' :: 'g' :: b :: u ∧
      (b = ' ' ∨ b = '\t') ∧ ∀ d ∈ u, inLine d = true) ∨
    (kind = .filePath ∧ c = '\x22' ∧ v = []) ∨
    (kind = .atomName ∧ c = '\x60' ∧ ∃ d u, v = d :: u ∧ isWordStart d = true ∧
      ∀ d ∈ u, isWordRest d = true) ∨
    (kind = .sexpr ∧ c = '$' ∧ v = ['(']) := by
  obtain ⟨hspace, hword, hdigit⟩ := isSymbol_eq.mp hc
  generalize htext : c :: v = text at h
  cases h with
  | blanks hall =>
    cases htext
    rw [hall c List.mem_cons_self] at hspace
    cases hspace
  | word hstart hall =>
    cases htext
    rw [hstart] at hword
    cases hword
  | keyword k =>
    rw [(word_of_keyword htext.symm).1] at hword
    cases hword
  | digits hall =>
    cases htext
    rw [hall c List.mem_cons_self] at hdigit
    cases hdigit
  | mark p => exact .inl ⟨p, rfl, Punct.mem_spellings_iff.mpr (.inl rfl)⟩
  | turnedMark => exact .inl ⟨.le, rfl, Punct.mem_spellings_iff.mpr (.inr ⟨rfl, rfl⟩)⟩
  | slashes hall =>
    cases htext
    exact .inr (.inl ⟨rfl, .inl rfl, _, rfl, hall⟩)
  | dashes hall =>
    cases htext
    exact .inr (.inl ⟨rfl, .inr rfl, _, rfl, hall⟩)
  | commentOpening =>
    cases htext
    exact .inr (.inr (.inl ⟨rfl, rfl, rfl⟩))
  | langLine hb hall =>
    cases htext
    exact .inr (.inr (.inr (.inl ⟨rfl, rfl, _, _, rfl, hb, hall⟩)))
  | pathOpening =>
    cases htext
    exact .inr (.inr (.inr (.inr (.inl ⟨rfl, rfl, rfl⟩))))
  | atom hd hall =>
    cases htext
    exact .inr (.inr (.inr (.inr (.inr (.inl ⟨rfl, rfl, _, _, rfl, hd, hall⟩)))))
  | sexprOpening =>
    cases htext
    exact .inr (.inr (.inr (.inr (.inr (.inr ⟨rfl, rfl, rfl⟩)))))

theorem Matches.of_slash (h : Matches kind ('/' :: v)) :
    kind = .punct .slash ∧ v = [] ∨
    (kind = .lineComment ∧ ∃ u, v = '/' :: u ∧ ∀ d ∈ u, inLine d = true) ∨
    kind = .blockComment ∧ v = ['*'] := by
  simpa [Punct.spellings, and_comm] using h.of_isSymbol (by decide)

theorem Matches.of_dash (h : Matches kind ('-' :: v)) :
    v = ['>'] ∨ v = [] ∨ kind = .lineComment ∧ ∃ u, v = '-' :: u ∧ ∀ d ∈ u, inLine d = true := by
  rcases h.of_isSymbol (by decide) with ⟨p, -, hmark⟩ | hother
  · have hmark : v = ['>'] ∧ p = .arrow ∨ v = [] ∧ p = .minus := by
      simpa [Punct.spellings] using hmark
    rcases hmark with ⟨rfl, -⟩ | ⟨rfl, -⟩
    · exact .inl rfl
    · exact .inr (.inl rfl)
  · exact .inr (.inr (by simpa using hother))

theorem Matches.of_hash (h : Matches kind ('#' :: v)) :
    kind = .punct .hash ∧ v = [] ∨
    kind = .langLine ∧ ∃ b u, v = 'l' :: 'a' :: 'n' :: 'g' :: b :: u ∧ (b = ' ' ∨ b = '\t') ∧
      ∀ d ∈ u, inLine d = true := by
  simpa [Punct.spellings, and_comm] using h.of_isSymbol (by decide)

theorem Matches.of_quote (h : Matches kind ('\x22' :: v)) : kind = .filePath ∧ v = [] := by
  simpa [Punct.spellings] using h.of_isSymbol (by decide)

theorem Matches.of_backtick (h : Matches kind ('\x60' :: v)) :
    kind = .atomName ∧ ∃ d u, v = d :: u ∧ isWordStart d = true ∧ ∀ d ∈ u, isWordRest d = true := by
  simpa [Punct.spellings] using h.of_isSymbol (by decide)

theorem Matches.of_dollar (h : Matches kind ('$' :: v)) : kind = .sexpr ∧ v = ['('] := by
  simpa [Punct.spellings] using h.of_isSymbol (by decide)

/-! ### The longest match -/

theorem length_le_takeWhile {test : Char → Bool} (hv : v <+: cs) (hall : ∀ d ∈ v, test d = true) :
    v.length ≤ (cs.takeWhile test).length :=
  (prefix_takeWhile_iff.mpr ⟨hv, hall⟩).length_le

/-- Only what begins with the first character of the text has to be compared. -/
theorem longest_cons (hmatch : Matches kind (c :: w)) (hfront : w <+: cs)
    (hlongest : ∀ k v, v <+: cs → Matches k (c :: v) → v.length ≤ w.length)
    (hpreferred : ∀ k, Matches k (c :: w) → k = kind ∨ k = .ident ∧ kind.isKeyword = true) :
    Longest (c :: cs) kind (c :: w) where
  front := (List.prefix_cons_inj c).mpr hfront
  isMatch := hmatch
  longest := by
    intro k v hv hk
    rcases List.prefix_cons_iff.mp hv with rfl | ⟨v, rfl, hbehind⟩
    · exact Nat.zero_le _
    · exact Nat.succ_le_succ (hlongest k v hbehind hk)
  preferred := hpreferred

theorem longest_blanks (hc : isSpace c = true) (cs : List Char) :
    Longest (c :: cs) .whitespace (c :: cs.takeWhile isSpace) := by
  apply longest_cons
  · exact .blanks (List.forall_mem_cons.mpr ⟨hc, fun d => List.mem_takeWhile_imp⟩)
  · exact List.takeWhile_prefix _
  · exact fun k v hv hk => length_le_takeWhile hv (hk.of_isSpace hc).2
  · exact fun k hk => .inl (hk.of_isSpace hc).1

theorem longest_digits (hc : isDigit c = true) (cs : List Char) :
    Longest (c :: cs) .number (c :: cs.takeWhile isDigit) := by
  apply longest_cons
  · exact .digits (List.forall_mem_cons.mpr ⟨hc, fun d => List.mem_takeWhile_imp⟩)
  · exact List.takeWhile_prefix _
  · exact fun k v hv hk => length_le_takeWhile hv (hk.of_isDigit hc).2
  · exact fun k hk => .inl (hk.of_isDigit hc).1

theorem spelling_of_ofSpelling? {word : String} {k : Keyword}
    (h : Keyword.ofSpelling? word = some k) : k.spelling = word := by
  have hspelled := List.find?_some h
  exact eq_of_beq hspelled

theorem longest_word (hc : isWordStart c = true) (cs : List Char) :
    Longest (c :: cs) (scanWord c cs).kind (c :: cs.takeWhile isWordRest) := by
  have hall : ∀ d ∈ cs.takeWhile isWordRest, isWordRest d = true :=
    fun d => List.mem_takeWhile_imp
  apply longest_cons
  · unfold scanWord
    dsimp only
    split
    · next k hk =>
      have hspelled := congrArg String.toList (spelling_of_ofSpelling? hk)
      rw [String.toList_ofList] at hspelled
      exact hspelled ▸ .keyword k
    · exact .word hc hall
  · exact List.takeWhile_prefix _
  · exact fun k v hv hk => length_le_takeWhile hv (hk.of_isWordStart hc).2
  · intro k hk
    unfold scanWord
    dsimp only
    rcases (hk.of_isWordStart hc).1 with rfl | ⟨k', rfl, hspelled⟩
    · split
      · exact .inr ⟨rfl, rfl⟩
      · exact .inl rfl
    · rw [← hspelled, String.ofList_toList, Keyword.ofSpelling?_spelling]
      exact .inl rfl

theorem longest_slashes (cs : List Char) :
    Longest ('/' :: '/' :: cs) .lineComment ('/' :: '/' :: cs.takeWhile inLine) := by
  apply longest_cons
  · exact .slashes fun d => List.mem_takeWhile_imp
  · exact (List.prefix_cons_inj '/').mpr (List.takeWhile_prefix _)
  · intro k v hv hk
    rw [List.length_cons]
    rcases hk.of_slash with ⟨-, rfl⟩ | ⟨-, u, rfl, hall⟩ | ⟨-, rfl⟩
    · exact Nat.zero_le _
    · exact Nat.succ_le_succ (length_le_takeWhile ((List.prefix_cons_inj '/').mp hv) hall)
    · exact Nat.le_add_left _ _
  · intro k hk
    rcases hk.of_slash with ⟨-, heq⟩ | ⟨hkind, -⟩ | ⟨-, heq⟩
    · cases heq
    · exact .inl hkind
    · cases heq

theorem longest_dashes (cs : List Char) :
    Longest ('-' :: '-' :: cs) .lineComment ('-' :: '-' :: cs.takeWhile inLine) := by
  apply longest_cons
  · exact .dashes fun d => List.mem_takeWhile_imp
  · exact (List.prefix_cons_inj '-').mpr (List.takeWhile_prefix _)
  · intro k v hv hk
    rw [List.length_cons]
    rcases hk.of_dash with rfl | rfl | ⟨-, u, rfl, hall⟩
    · exact Nat.le_add_left _ _
    · exact Nat.zero_le _
    · exact Nat.succ_le_succ (length_le_takeWhile ((List.prefix_cons_inj '-').mp hv) hall)
  · intro k hk
    rcases hk.of_dash with heq | heq | ⟨hkind, -⟩
    · cases heq
    · cases heq
    · exact .inl hkind

theorem longest_langLine {b : Char} (hb : b = ' ' ∨ b = '\t') (cs : List Char) :
    Longest ('#' :: 'l' :: 'a' :: 'n' :: 'g' :: b :: cs) .langLine
      ('#' :: 'l' :: 'a' :: 'n' :: 'g' :: b :: cs.takeWhile inLine) := by
  apply longest_cons
  · exact .langLine hb fun d => List.mem_takeWhile_imp
  · simpa using List.takeWhile_prefix inLine
  · intro k v hv hk
    rcases hk.of_hash with ⟨-, rfl⟩ | ⟨-, d, u, rfl, -, hall⟩
    · exact Nat.zero_le _
    · have hu : u <+: cs := by simpa using (List.cons_prefix_cons.mp (by simpa using hv)).2
      have hlength := length_le_takeWhile hu hall
      simpa using hlength
  · intro k hk
    rcases hk.of_hash with ⟨-, heq⟩ | ⟨hkind, -⟩
    · cases heq
    · exact .inl hkind

theorem longest_commentOpening (cs : List Char) :
    Longest ('/' :: '*' :: cs) .blockComment ['/', '*'] := by
  apply longest_cons .commentOpening
  · exact (List.prefix_cons_inj '*').mpr List.nil_prefix
  · intro k v hv hk
    rcases hk.of_slash with ⟨-, rfl⟩ | ⟨-, u, rfl, -⟩ | ⟨-, rfl⟩
    · exact Nat.zero_le _
    · exact absurd (List.cons_prefix_cons.mp hv).1 (by decide)
    · exact Nat.le_refl _
  · intro k hk
    rcases hk.of_slash with ⟨-, heq⟩ | ⟨-, u, heq, -⟩ | ⟨hkind, -⟩
    · cases heq
    · cases heq
    · exact .inl hkind

theorem longest_pathOpening (cs : List Char) : Longest ('\x22' :: cs) .filePath ['\x22'] := by
  apply longest_cons .pathOpening List.nil_prefix
  · intro k v _ hk
    rw [hk.of_quote.2]
  · exact fun k hk => .inl hk.of_quote.1

theorem longest_atom {d : Char} (hd : isWordStart d = true) (cs : List Char) :
    Longest ('\x60' :: d :: cs) .atomName ('\x60' :: d :: cs.takeWhile isWordRest) := by
  apply longest_cons
  · exact .atom hd fun d => List.mem_takeWhile_imp
  · exact (List.prefix_cons_inj d).mpr (List.takeWhile_prefix _)
  · intro k v hv hk
    obtain ⟨-, e, u, rfl, -, hall⟩ := hk.of_backtick
    exact Nat.succ_le_succ (length_le_takeWhile (List.cons_prefix_cons.mp hv).2 hall)
  · exact fun k hk => .inl hk.of_backtick.1

theorem longest_sexprOpening (cs : List Char) : Longest ('$' :: '(' :: cs) .sexpr ['$', '('] := by
  apply longest_cons .sexprOpening
  · exact (List.prefix_cons_inj '(').mpr List.nil_prefix
  · intro k v _ hk
    rw [hk.of_dollar.2]
  · exact fun k hk => .inl hk.of_dollar.1

/-- The table of marks is searched for the longest one. -/
theorem length_le_of_longest? {p q : Punct} {text : List Char}
    (h : Punct.longest? text = some (w, p)) (hmem : (v, q) ∈ Punct.spellings) (hv : v <+: text) :
    v.length ≤ w.length := by
  have hsorted : Punct.spellings.Pairwise fun d e => e.1.length ≤ d.1.length := by decide
  obtain ⟨-, before, behind, hsplit, hbefore⟩ := List.find?_eq_some_iff_append.mp h
  rw [hsplit] at hsorted hmem
  rcases List.mem_append.mp hmem with hin | hin
  · have hnot := hbefore _ hin
    rw [List.isPrefixOf_iff_prefix.mpr hv] at hnot
    cases hnot
  · rcases List.mem_cons.mp hin with heq | hin
    · cases heq
      exact Nat.le_refl _
    · exact List.rel_of_pairwise_cons (List.pairwise_append.mp hsorted).2.1 hin

theorem longest_mark {p : Punct} (h : Punct.longest? (c :: cs) = some (w, p))
    (hmarks : ∀ k v, v <+: cs → Matches k (c :: v) →
      ∃ q, k = .punct q ∧ (c :: v, q) ∈ Punct.spellings) :
    Longest (c :: cs) (.punct p) w := by
  have hfound := List.mem_of_find?_eq_some h
  obtain ⟨hne, hfront⟩ := Punct.longest?_eq_some h
  rcases List.prefix_cons_iff.mp hfront with rfl | ⟨w, rfl, hw⟩
  · exact absurd rfl hne
  have hdistinct : ∀ d ∈ Punct.spellings, ∀ e ∈ Punct.spellings, d.1 = e.1 → d = e := by decide
  apply longest_cons _ hw
  · intro k v hv hk
    obtain ⟨q, -, hmem⟩ := hmarks k v hv hk
    exact Nat.le_of_succ_le_succ
      (length_le_of_longest? h hmem ((List.prefix_cons_inj c).mpr hv))
  · intro k hk
    obtain ⟨q, rfl, hmem⟩ := hmarks k w hw hk
    cases hdistinct _ hmem _ hfound rfl
    exact .inl rfl
  · rcases Punct.mem_spellings_iff.mp hfound with heq | ⟨rfl, heq⟩
    · exact heq ▸ .mark p
    · exact heq ▸ .turnedMark

/-! ### The first end of a construct -/

theorem closes_untilCommentEnd {text rest : List Char}
    (h : untilCommentEnd cs = some (text, rest)) : Closes .blockComment text := by
  fun_induction untilCommentEnd cs generalizing text with
  | case1 => cases h
  | case2 =>
    cases h
    exact List.suffix_refl _
  | case3 c cs _ ih =>
    obtain ⟨⟨t, r⟩, ht, he⟩ := Option.map_eq_some_iff.mp h
    cases he
    exact (ih ht).trans (List.suffix_cons c t)

/-- The end that is found is not behind any other. -/
theorem untilCommentEnd_of_closes {u : List Char} (hu : u <+: cs) (hends : Closes .blockComment u) :
    ∃ text rest, untilCommentEnd cs = some (text, rest) ∧ text.length ≤ u.length := by
  fun_induction untilCommentEnd cs generalizing u with
  | case1 =>
    rw [List.prefix_nil.mp hu] at hends
    exact absurd (List.suffix_nil.mp hends) (List.cons_ne_nil _ _)
  | case2 rest => exact ⟨_, _, rfl, hends.length_le⟩
  | case3 c cs hnot ih =>
    rcases List.prefix_cons_iff.mp hu with rfl | ⟨v, rfl, hv⟩
    · exact absurd (List.suffix_nil.mp hends) (List.cons_ne_nil _ _)
    rcases List.suffix_cons_iff.mp hends with heq | hbehind
    · -- the end is right here, which the equation of this case excludes
      cases heq
      obtain ⟨rest, rfl⟩ := hv
      exact absurd rfl (hnot rest rfl)
    · obtain ⟨text, rest, hfound, hle⟩ := ih hv hbehind
      refine ⟨c :: text, rest, ?_, Nat.succ_le_succ hle⟩
      rw [hfound]
      rfl

theorem count_untilBalanced {depth : Nat} {text rest : List Char} (hdepth : 1 ≤ depth)
    (h : untilBalanced depth cs = some (text, rest)) :
    text.count ')' = text.count '(' + depth := by
  fun_induction untilBalanced depth cs generalizing text with
  | case1 => cases h
  | case2 depth cs ih =>
    obtain ⟨⟨t, r⟩, ht, he⟩ := Option.map_eq_some_iff.mp h
    cases he
    have hcount := ih (by omega) ht
    simp only [List.count_cons_self, List.count_cons_of_ne, ne_eq, Char.reduceEq,
      not_false_eq_true, hcount]
    omega
  | case3 depth cs hle _ =>
    cases h
    obtain rfl : depth = 1 := by omega
    rfl
  | case4 depth cs hlt _ ih =>
    obtain ⟨⟨t, r⟩, ht, he⟩ := Option.map_eq_some_iff.mp h
    cases he
    have hcount := ih (by omega) ht
    simp only [List.count_cons_self, List.count_cons_of_ne, ne_eq, Char.reduceEq,
      not_false_eq_true, hcount]
    omega
  | case5 depth c cs hopen hclose ih =>
    obtain ⟨⟨t, r⟩, ht, he⟩ := Option.map_eq_some_iff.mp h
    cases he
    rw [List.count_cons_of_ne hclose, List.count_cons_of_ne hopen]
    exact ih hdepth ht

/-- A text with a parenthesis more that closes than opens has a first character. -/
theorem cons_of_count {depth : Nat} {u : List Char} (hdepth : 1 ≤ depth) (hu : u <+: c :: cs)
    (hcount : u.count ')' = u.count '(' + depth) : ∃ v, u = c :: v ∧ v <+: cs := by
  rcases List.prefix_cons_iff.mp hu with rfl | hcons
  · rw [List.count_nil, List.count_nil] at hcount
    omega
  · exact hcons

theorem untilBalanced_of_count {depth : Nat} {u : List Char} (hdepth : 1 ≤ depth) (hu : u <+: cs)
    (hcount : u.count ')' = u.count '(' + depth) :
    ∃ text rest, untilBalanced depth cs = some (text, rest) ∧ text.length ≤ u.length := by
  fun_induction untilBalanced depth cs generalizing u with
  | case1 depth =>
    rw [List.prefix_nil.mp hu] at hcount
    simp at hcount
    omega
  | case2 depth cs ih =>
    obtain ⟨v, rfl, hv⟩ := cons_of_count hdepth hu hcount
    simp only [List.count_cons_self, List.count_cons_of_ne, ne_eq, Char.reduceEq,
      not_false_eq_true] at hcount
    obtain ⟨text, rest, hfound, hle⟩ := ih (by omega) hv (by omega)
    refine ⟨'(' :: text, rest, ?_, Nat.succ_le_succ hle⟩
    rw [hfound]
    rfl
  | case3 depth cs hle _ =>
    obtain ⟨v, rfl, hv⟩ := cons_of_count hdepth hu hcount
    exact ⟨_, _, rfl, Nat.succ_le_succ (Nat.zero_le _)⟩
  | case4 depth cs hlt _ ih =>
    obtain ⟨v, rfl, hv⟩ := cons_of_count hdepth hu hcount
    simp only [List.count_cons_self, List.count_cons_of_ne, ne_eq, Char.reduceEq,
      not_false_eq_true] at hcount
    obtain ⟨text, rest, hfound, hle⟩ := ih (by omega) hv (by omega)
    refine ⟨')' :: text, rest, ?_, Nat.succ_le_succ hle⟩
    rw [hfound]
    rfl
  | case5 depth c cs hopen hclose ih =>
    obtain ⟨v, rfl, hv⟩ := cons_of_count hdepth hu hcount
    rw [List.count_cons_of_ne hclose, List.count_cons_of_ne hopen] at hcount
    obtain ⟨text, rest, hfound, hle⟩ := ih hdepth hv hcount
    refine ⟨c :: text, rest, ?_, Nat.succ_le_succ hle⟩
    rw [hfound]
    rfl

/-! ### The next token -/

/-- What a scan has found. -/
def Lexeme.outcome (l : Lexeme) : Outcome :=
  if l.kind = .invalid then .fault (.ofText (String.ofList l.text)) else .token l.kind

theorem Lexeme.kind_outcome (l : Lexeme) : l.outcome.kind = l.kind := by
  unfold outcome
  split
  · next h => exact h.symm
  · rfl

/-- A construct goes on through its end, if the search for it finds the first one. -/
theorem next_closed {fault : LexicalFault} {found : Option (List Char × List Char)}
    (hlongest : Longest (w ++ cs) kind w) (hopens : faultOfOpen? kind = some fault)
    (hreach : reach kind cs = cs) (hfault : .ofText (String.ofList (w ++ cs)) = fault)
    (hvalid : kind ≠ .invalid)
    (hends : ∀ text rest, found = some (text, rest) → text ++ rest = cs ∧ Closes kind text)
    (hfirst : ∀ u, u <+: cs → Closes kind u →
      ∃ text rest, found = some (text, rest) ∧ text.length ≤ u.length) :
    Next (w ++ cs) (Lexeme.closed kind w cs found).outcome
      (Lexeme.closed kind w cs found).text := by
  have hdrop : (w ++ cs).drop w.length = cs := List.drop_left
  match found with
  | some (text, rest) =>
    obtain ⟨hsplit, hcloses⟩ := hends text rest rfl
    have hout : (Lexeme.closed kind w cs (some (text, rest))).outcome = .token kind :=
      if_neg hvalid
    rw [hout]
    refine .closed hlongest hopens ⟨?_, hcloses, fun v hv hv' => ?_⟩
    · rw [hdrop, hreach, ← hsplit]
      exact List.prefix_append _ _
    · rw [hdrop, hreach] at hv
      obtain ⟨_, _, heq, hle⟩ := hfirst v hv hv'
      cases heq
      exact hle
  | none =>
    have hout : (Lexeme.closed kind w cs none).outcome = .fault fault :=
      (if_pos rfl).trans (congrArg Outcome.fault hfault)
    have hnext := Next.unclosed hlongest hopens fun u hu hu' => by
      rw [hdrop, hreach] at hu
      obtain ⟨_, _, heq, -⟩ := hfirst u hu hu'
      cases heq
    rw [hdrop, hreach] at hnext
    rw [hout]
    exact hnext

theorem next_comment (cs : List Char) :
    Next (['/', '*'] ++ cs) (Lexeme.closed .blockComment ['/', '*'] cs (untilCommentEnd cs)).outcome
      (Lexeme.closed .blockComment ['/', '*'] cs (untilCommentEnd cs)).text := by
  have hfault : LexicalFault.ofText (String.ofList (['/', '*'] ++ cs)) = .unterminatedComment := by
    simp [LexicalFault.ofText]
  apply next_closed (longest_commentOpening cs) rfl rfl hfault
  · decide
  · exact fun text rest h => ⟨text_untilCommentEnd h, closes_untilCommentEnd h⟩
  · exact fun u hu hends => untilCommentEnd_of_closes hu hends

theorem next_sexpr (cs : List Char) :
    Next (['$', '('] ++ cs) (Lexeme.closed .sexpr ['$', '('] cs (untilBalanced 1 cs)).outcome
      (Lexeme.closed .sexpr ['$', '('] cs (untilBalanced 1 cs)).text := by
  have hfault : LexicalFault.ofText (String.ofList (['$', '('] ++ cs)) = .unterminatedSexpr := by
    simp [LexicalFault.ofText]
  apply next_closed (longest_sexprOpening cs) rfl rfl hfault
  · decide
  · exact fun text rest h => ⟨text_untilBalanced h, count_untilBalanced (Nat.le_refl 1) h⟩
  · exact fun u hu hends => untilBalanced_of_count (Nat.le_refl 1) hu hends

/-- Goes on in a path: neither a quote nor the end of the line. -/
def inPath (c : Char) : Bool := c != '\x22' && c != '\n'

theorem inLine_of_mem_takeWhile_inPath {d : Char} (hd : d ∈ cs.takeWhile inPath) :
    inLine d = true := by
  have hpath := List.mem_takeWhile_imp hd
  rw [inPath, Bool.and_eq_true] at hpath
  exact hpath.2

/-- The end of a path is behind everything that goes on in it. -/
theorem length_takeWhile_lt_of_closes {u : List Char} (hu : u <+: cs) (hends : Closes .filePath u) :
    (cs.takeWhile inPath).length < u.length := by
  apply Nat.lt_of_not_le
  intro hle
  have hfront : u <+: cs.takeWhile inPath :=
    List.prefix_of_prefix_length_le hu (List.takeWhile_prefix _) hle
  have hquote : '\x22' ∈ u := hends.subset (List.mem_singleton_self _)
  exact absurd (List.mem_takeWhile_imp (hfront.subset hquote)) (by decide)

theorem firstEnd_path {rest : List Char} (h : cs.dropWhile inPath = '\x22' :: rest) :
    FirstEnd .filePath cs (cs.takeWhile inPath ++ ['\x22']) where
  front := by
    refine prefix_reach_iff.mpr ⟨⟨rest, ?_⟩, fun _ d hd => ?_⟩
    · rw [List.append_assoc, List.singleton_append, ← h, List.takeWhile_append_dropWhile]
    · rcases List.mem_append.mp hd with hd | hd
      · exact inLine_of_mem_takeWhile_inPath hd
      · rw [List.mem_singleton.mp hd]
        decide
  closes := List.suffix_append _ _
  first := by
    intro v hv hends
    rw [List.length_append, List.length_singleton]
    exact length_takeWhile_lt_of_closes (prefix_reach_iff.mp hv).1 hends

theorem reach_path (h : ∀ rest, cs.dropWhile inPath ≠ '\x22' :: rest) :
    reach .filePath cs = cs.takeWhile inPath := by
  have hbehind : (cs.dropWhile inPath).takeWhile inLine = [] := by
    cases hdrop : cs.dropWhile inPath with
    | nil => rfl
    | cons d ds =>
      have hstop := List.head?_dropWhile_not inPath cs
      rw [hdrop] at hstop
      have hd : d = '\x22' ∨ d = '\n' := by simpa [inPath, Decidable.imp_iff_not_or] using hstop
      rcases hd with rfl | rfl
      · exact absurd hdrop (h ds)
      · rfl
  have hsplit : cs.takeWhile inPath ++ cs.dropWhile inPath = cs := List.takeWhile_append_dropWhile
  show cs.takeWhile inLine = _
  nth_rewrite 1 [← hsplit]
  rw [List.takeWhile_append_of_pos fun d => inLine_of_mem_takeWhile_inPath, hbehind,
    List.append_nil]

theorem next_path (cs : List Char) :
    Next ('\x22' :: cs) (scanPath ['\x22'] cs).outcome (scanPath ['\x22'] cs).text := by
  have hlongest := longest_pathOpening cs
  unfold scanPath
  dsimp only
  split
  · next rest hrest =>
    have hnext : Next ('\x22' :: cs) (.token .filePath) _ :=
      .closed hlongest rfl (firstEnd_path hrest)
    exact hnext
  · next hnoQuote =>
    have hreach : reach .filePath (('\x22' :: cs).drop ['\x22'].length) = cs.takeWhile inPath :=
      reach_path hnoQuote
    have hnext := Next.unclosed hlongest rfl fun u hu hends => by
      have hlt := length_takeWhile_lt_of_closes (prefix_reach_iff.mp hu).1 hends
      have hle := hu.length_le
      rw [hreach] at hle
      exact absurd hlt (Nat.not_lt_of_le hle)
    rw [hreach] at hnext
    have hfault : LexicalFault.ofText (String.ofList (['\x22'] ++ cs.takeWhile inPath))
        = .unterminatedPath := by
      simp [LexicalFault.ofText]
    show Next _ (.fault (.ofText (String.ofList (['\x22'] ++ cs.takeWhile inPath)))) _
    rw [hfault]
    exact hnext

/-- The fault of a character by itself. -/
theorem ofText_singleton (hc : c ≠ '\x22') : LexicalFault.ofText (String.ofList [c])
    = if c = '\x60' then .missingAtomName else .invalidCharacter := by
  by_cases htick : c = '\x60'
  · rw [htick]
    simp [LexicalFault.ofText]
  · rw [if_neg htick]
    simp [LexicalFault.ofText, hc, htick]

/-- A character is no token if nothing that begins with it is a match. -/
theorem next_stray (hc : c ≠ '\x22') (hnone : ∀ k v, v <+: cs → ¬ Matches k (c :: v)) :
    Next (c :: cs) (.fault (.ofText (String.ofList [c]))) [c] := by
  rw [ofText_singleton hc]
  apply Next.stray rfl
  intro k v hv hk
  rcases List.prefix_cons_iff.mp hv with rfl | ⟨v, rfl, hbehind⟩
  · exact hk.ne_nil rfl
  · exact hnone k v hbehind hk

theorem next_word (hc : isWordStart c = true) (cs : List Char) :
    Next (c :: cs) (scanWord c cs).outcome (scanWord c cs).text := by
  have hlongest := longest_word hc cs
  have hkind : (scanWord c cs).kind = .ident ∨ ∃ k, (scanWord c cs).kind = .keyword k := by
    unfold scanWord
    dsimp only
    split
    · exact .inr ⟨_, rfl⟩
    · exact .inl rfl
  rcases hkind with hkind | ⟨k, hkind⟩
  all_goals
    rw [Lexeme.outcome, if_neg (by rw [hkind]; nofun)]
    exact .whole hlongest (by rw [hkind]; rfl)

/-- A backtick begins the name of an atom, or it is a fault. -/
theorem next_backtick (d : Char) (cs : List Char) :
    let found : Lexeme := if isWordStart d then .run .atomName ['\x60', d] isWordRest cs
      else ⟨.invalid, ['\x60'], d :: cs⟩
    Next ('\x60' :: d :: cs) found.outcome found.text := by
  dsimp only
  by_cases hd : isWordStart d = true
  · rw [if_pos hd]
    exact .whole (longest_atom hd cs) rfl
  · rw [if_neg hd]
    apply next_stray (by decide)
    intro k v hv hk
    obtain ⟨-, e, u, rfl, he, -⟩ := hk.of_backtick
    rw [(List.cons_prefix_cons.mp hv).1] at he
    exact hd he

/-- If only marks can stand at the front of a text, the longest one does, or none. -/
theorem next_punct (hc : c ≠ '\x22')
    (hmarks : ∀ k v, v <+: cs → Matches k (c :: v) →
      ∃ q, k = .punct q ∧ (c :: v, q) ∈ Punct.spellings) :
    Next (c :: cs) (scanPunct c cs).outcome (scanPunct c cs).text := by
  unfold scanPunct
  split
  · next w p h => exact .whole (longest_mark h hmarks) rfl
  · next h =>
    apply next_stray hc
    intro k v hv hk
    obtain ⟨q, -, hmem⟩ := hmarks k v hv hk
    have hnot := List.find?_eq_none.mp h _ hmem
    exact hnot (List.isPrefixOf_iff_prefix.mpr ((List.prefix_cons_inj c).mpr hv))

/-- The scanner finds the next token. -/
theorem next_scan (c : Char) (cs : List Char) :
    Next (c :: cs) (scan c cs).outcome (scan c cs).text := by
  unfold scan
  by_cases hspace : isSpace c
  · rw [if_pos hspace]
    exact .whole (longest_blanks hspace cs) rfl
  rw [if_neg hspace]
  by_cases hword : isWordStart c
  · rw [if_pos hword]
    exact next_word hword cs
  rw [if_neg hword]
  by_cases hdigit : isDigit c
  · rw [if_pos hdigit]
    exact .whole (longest_digits hdigit cs) rfl
  rw [if_neg hdigit]
  have hsymbol : isSymbol c = true := by simp [isSymbol_eq, hspace, hword, hdigit]
  clear hspace hword hdigit
  split
  · exact .whole (longest_slashes _) rfl
  · exact .whole (longest_dashes _) rfl
  · exact next_comment _
  · exact .whole (longest_langLine (.inl rfl) _) rfl
  · exact .whole (longest_langLine (.inr rfl) _) rfl
  · exact next_path _
  · exact next_backtick _ _
  · exact next_sexpr _
  · next hquote hslash hdash hstar hlang hlangTab hatom hsexpr =>
    refine next_punct hquote fun k v hv hk => ?_
    rcases hk.of_isSymbol hsymbol with hmark | ⟨-, hc, u, rfl, -⟩ | ⟨-, hc, rfl⟩ |
      ⟨-, hc, b, u, rfl, hb, -⟩ | ⟨-, hc, -⟩ | ⟨-, hc, d, u, rfl, -⟩ | ⟨-, hc, rfl⟩
    · exact hmark
    · obtain ⟨rest, rfl⟩ := hv
      rcases hc with rfl | rfl
      · exact (hslash _ rfl rfl).elim
      · exact (hdash _ rfl rfl).elim
    · obtain ⟨rest, rfl⟩ := hv
      exact (hstar _ hc rfl).elim
    · obtain ⟨rest, rfl⟩ := hv
      rcases hb with rfl | rfl
      · exact (hlang _ hc rfl).elim
      · exact (hlangTab _ hc rfl).elim
    · exact absurd hc hquote
    · obtain ⟨rest, rfl⟩ := hv
      exact (hatom _ _ hc rfl).elim
    · obtain ⟨rest, rfl⟩ := hv
      exact (hsexpr _ hc rfl).elim

end Lexer
end RelLang
