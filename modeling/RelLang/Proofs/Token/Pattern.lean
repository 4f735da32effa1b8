import Mathlib.Data.List.Infix
import Mathlib.Data.List.TakeWhile
import RelLang.Diagnostic.Problem
import RelLang.Proofs.Token.Lexer

/-!
# Patterns and the next token of a text

The patterns say what a token can begin with: all of its text, or the opening of a
construct that has to be closed. The next token of a text is told by the longest
match at the front of the text, where a keyword goes before a name. A construct goes
on through its first end. A construct that has none, and a character that begins no
match, is a fault.

None of this says how a text is scanned. Whatever the text, there is no more than one
next token, and it is still the next one if the text is cut off somewhere behind it.
-/

namespace RelLang

/-- The table of marks holds the marks as they are written, and `=<`. -/
theorem Punct.mem_spellings_iff {w : List Char} {p : Punct} :
    (w, p) ∈ spellings ↔ w = p.spelling.toList ∨ p = .le ∧ w = ['=', '<'] := by
  have hspelled : ∀ e ∈ spellings,
      e.1 = e.2.spelling.toList ∨ e.2 = .le ∧ e.1 = ['=', '<'] := by decide
  have hmem : ∀ p ∈ all, (p.spelling.toList, p) ∈ spellings := by decide
  constructor
  · exact hspelled (w, p)
  · rintro (rfl | ⟨rfl, rfl⟩)
    · exact hmem p p.mem_all
    · decide

namespace Lexer

theorem prefix_takeWhile_iff {test : Char → Bool} {u cs : List Char} :
    u <+: cs.takeWhile test ↔ u <+: cs ∧ ∀ c ∈ u, test c = true := by
  constructor
  · intro h
    exact ⟨h.trans (List.takeWhile_prefix test),
      fun c hc => List.mem_takeWhile_imp (h.subset hc)⟩
  · rintro ⟨⟨rest, rfl⟩, hall⟩
    rw [List.takeWhile_append_of_pos hall]
    exact List.prefix_append _ _

/-! ### Patterns -/

/-- The text matches a pattern: it is all of a token of the kind, or the opening of one. -/
inductive Matches : TokenKind → List Char → Prop where
  | blanks {c cs} (h : ∀ d ∈ c :: cs, isSpace d = true) : Matches .whitespace (c :: cs)
  | slashes {cs} (h : ∀ d ∈ cs, inLine d = true) : Matches .lineComment ('/' :: '/' :: cs)
  | dashes {cs} (h : ∀ d ∈ cs, inLine d = true) : Matches .lineComment ('-' :: '-' :: cs)
  | commentOpening : Matches .blockComment ['/', '*']
  | langLine {b cs} (hb : b = ' ' ∨ b = '\t') (h : ∀ d ∈ cs, inLine d = true) :
      Matches .langLine ('#' :: 'l' :: 'a' :: 'n' :: 'g' :: b :: cs)
  | word {c cs} (hc : isWordStart c = true) (h : ∀ d ∈ cs, isWordRest d = true) :
      Matches .ident (c :: cs)
  | digits {c cs} (h : ∀ d ∈ c :: cs, isDigit d = true) : Matches .number (c :: cs)
  | pathOpening : Matches .filePath ['\x22']
  | atom {c cs} (hc : isWordStart c = true) (h : ∀ d ∈ cs, isWordRest d = true) :
      Matches .atomName ('\x60' :: c :: cs)
  | sexprOpening : Matches .sexpr ['$', '(']
  | mark (p : Punct) : Matches (.punct p) p.spelling.toList
  | turnedMark : Matches (.punct .le) ['=', '<']
  | keyword (k : Keyword) : Matches (.keyword k) k.spelling.toList

/-- The longest match at the front of a text. Only a keyword can match what another pattern, that
of a name, matches as well, and the keyword goes first. -/
structure Longest (cs : List Char) (kind : TokenKind) (w : List Char) : Prop where
  front : w <+: cs
  isMatch : Matches kind w
  longest : ∀ k v, v <+: cs → Matches k v → v.length ≤ w.length
  preferred : ∀ k, Matches k w → k = kind ∨ k = .ident ∧ kind.isKeyword = true

/-! ### Constructs with an end -/

/-- The fault of a construct that has no end; none for a token that needs none. -/
def faultOfOpen? : TokenKind → Option LexicalFault
  | .blockComment => some .unterminatedComment
  | .filePath => some .unterminatedPath
  | .sexpr => some .unterminatedSexpr
  | _ => none

/-- The code that a fault is reported with. -/
def codeOf : LexicalFault → String
  | .invalidCharacter => "E0101"
  | .unterminatedPath => "E0102"
  | .unterminatedComment => "E0103"
  | .unterminatedSexpr => "E0104"
  | .missingAtomName => "E0105"

/-- How far a construct can go on behind its opening: a path ends on its line. -/
def reach : TokenKind → List Char → List Char
  | .filePath, rest => rest.takeWhile inLine
  | _, rest => rest

/-- The text behind the opening ends the construct: with `*/`, with a quote, or with the
parenthesis that balances that of the opening and all others. -/
def Closes : TokenKind → List Char → Prop
  | .blockComment, u => ['*', '/'] <:+ u
  | .filePath, u => ['\x22'] <:+ u
  | .sexpr, u => u.count ')' = u.count '(' + 1
  | _, _ => False

/-- The shortest text behind the opening that ends the construct. -/
structure FirstEnd (kind : TokenKind) (rest u : List Char) : Prop where
  front : u <+: reach kind rest
  closes : Closes kind u
  first : ∀ v, v <+: reach kind rest → Closes kind v → u.length ≤ v.length

/-! ### The next token -/

/-- What stands at the front of a text: a token, or a piece of text that is none. -/
inductive Outcome where
  | token (kind : TokenKind)
  | fault (fault : LexicalFault)
  deriving DecidableEq, Repr

/-- The kind of token that is made of it. -/
def Outcome.kind : Outcome → TokenKind
  | .token kind => kind
  | .fault _ => .invalid

/-- The next token of a text. -/
inductive Next (cs : List Char) : Outcome → List Char → Prop where
  | whole {kind w} (longest : Longest cs kind w) (complete : faultOfOpen? kind = none) :
      Next cs (.token kind) w
  | closed {kind w fault u} (longest : Longest cs kind w) (opens : faultOfOpen? kind = some fault)
      (ends : FirstEnd kind (cs.drop w.length) u) : Next cs (.token kind) (w ++ u)
  | unclosed {kind w fault} (longest : Longest cs kind w) (opens : faultOfOpen? kind = some fault)
      (endless : ∀ u, u <+: reach kind (cs.drop w.length) → ¬ Closes kind u) :
      Next cs (.fault fault) (w ++ reach kind (cs.drop w.length))
  | stray {c} (first : cs.head? = some c) (unmatched : ∀ k w, w <+: cs → ¬ Matches k w) :
      Next cs (.fault (if c = '\x60' then .missingAtomName else .invalidCharacter)) [c]

/-! ### There is one next token -/

variable {cs u w : List Char} {kind : TokenKind} {o : Outcome}

theorem Longest.unique {kind' : TokenKind} {w' : List Char} (h : Longest cs kind w)
    (h' : Longest cs kind' w') : kind = kind' ∧ w = w' := by
  have hlength : w.length = w'.length :=
    Nat.le_antisymm (h'.longest _ _ h.front h.isMatch) (h.longest _ _ h'.front h'.isMatch)
  obtain rfl : w = w' := (List.prefix_of_prefix_length_le h.front h'.front
    (Nat.le_of_eq hlength)).eq_of_length hlength
  refine ⟨?_, rfl⟩
  rcases h.preferred kind' h'.isMatch with hkind | ⟨hident, hkeyword⟩
  · exact hkind.symm
  · rcases h'.preferred kind h.isMatch with hkind | ⟨rfl, -⟩
    · exact hkind
    · cases hkeyword

theorem FirstEnd.unique {rest u' : List Char} (h : FirstEnd kind rest u)
    (h' : FirstEnd kind rest u') : u = u' := by
  have hlength : u.length = u'.length :=
    Nat.le_antisymm (h.first _ h'.front h'.closes) (h'.first _ h.front h.closes)
  exact (List.prefix_of_prefix_length_le h.front h'.front (Nat.le_of_eq hlength)).eq_of_length
    hlength

/-- A text has no more than one next token. -/
theorem Next.unique {o' : Outcome} {w' : List Char} (h : Next cs o w) (h' : Next cs o' w') :
    o = o' ∧ w = w' := by
  cases h with
  | whole hmatch hcomplete =>
    cases h' with
    | whole hmatch' _ =>
      obtain ⟨rfl, rfl⟩ := hmatch.unique hmatch'
      exact ⟨rfl, rfl⟩
    | closed hmatch' hopens _ | unclosed hmatch' hopens _ =>
      obtain ⟨rfl, rfl⟩ := hmatch.unique hmatch'
      rw [hcomplete] at hopens
      cases hopens
    | stray _ hunmatched => exact absurd hmatch.isMatch (hunmatched _ _ hmatch.front)
  | closed hmatch hopens hends =>
    cases h' with
    | whole hmatch' hcomplete =>
      obtain ⟨rfl, rfl⟩ := hmatch.unique hmatch'
      rw [hcomplete] at hopens
      cases hopens
    | closed hmatch' _ hends' =>
      obtain ⟨rfl, rfl⟩ := hmatch.unique hmatch'
      rw [hends.unique hends']
      exact ⟨rfl, rfl⟩
    | unclosed hmatch' _ hendless =>
      obtain ⟨rfl, rfl⟩ := hmatch.unique hmatch'
      exact absurd hends.closes (hendless _ hends.front)
    | stray _ hunmatched => exact absurd hmatch.isMatch (hunmatched _ _ hmatch.front)
  | unclosed hmatch hopens hendless =>
    cases h' with
    | whole hmatch' hcomplete =>
      obtain ⟨rfl, rfl⟩ := hmatch.unique hmatch'
      rw [hcomplete] at hopens
      cases hopens
    | closed hmatch' _ hends =>
      obtain ⟨rfl, rfl⟩ := hmatch.unique hmatch'
      exact absurd hends.closes (hendless _ hends.front)
    | unclosed hmatch' hopens' _ =>
      obtain ⟨rfl, rfl⟩ := hmatch.unique hmatch'
      rw [hopens] at hopens'
      cases hopens'
      exact ⟨rfl, rfl⟩
    | stray _ hunmatched => exact absurd hmatch.isMatch (hunmatched _ _ hmatch.front)
  | stray hfirst hunmatched =>
    cases h' with
    | whole hmatch _ | closed hmatch _ _ | unclosed hmatch _ _ =>
      exact absurd hmatch.isMatch (hunmatched _ _ hmatch.front)
    | stray hfirst' _ =>
      rw [hfirst] at hfirst'
      cases hfirst'
      exact ⟨rfl, rfl⟩

/-! ### Cutting a text off behind its next token -/

theorem Longest.cut {ds : List Char} (h : Longest cs kind w) (hfront : w <+: ds)
    (hcut : ds <+: cs) : Longest ds kind w :=
  ⟨hfront, h.isMatch, fun k v hv => h.longest k v (hv.trans hcut), h.preferred⟩

theorem prefix_reach_iff {rest : List Char} :
    u <+: reach kind rest ↔ u <+: rest ∧ (kind = .filePath → ∀ c ∈ u, inLine c = true) := by
  by_cases hpath : kind = .filePath
  · subst hpath
    simp [reach, prefix_takeWhile_iff]
  · have hreach : reach kind rest = rest := by
      unfold reach
      split
      · exact absurd rfl hpath
      · rfl
    simp [hreach, hpath]

theorem reach_mono {rest rest' : List Char} (h : rest <+: rest') :
    reach kind rest <+: reach kind rest' := by
  obtain ⟨hfront, hline⟩ := prefix_reach_iff.mp (List.prefix_refl (reach kind rest))
  exact prefix_reach_iff.mpr ⟨hfront.trans h, hline⟩

/-- What a construct can go on through, it can go on through in front of other text. -/
theorem prefix_reach_append {rest : List Char} (more : List Char) (h : u <+: reach kind rest) :
    u <+: reach kind (u ++ more) :=
  prefix_reach_iff.mpr ⟨List.prefix_append _ _, (prefix_reach_iff.mp h).2⟩

/-- A construct without an end goes as far as it can, whatever of the text behind is cut off. -/
theorem reach_reach_append {rest more : List Char} (h : reach kind rest ++ more <+: rest) :
    reach kind (reach kind rest ++ more) = reach kind rest := by
  have hback : reach kind rest <+: reach kind (reach kind rest ++ more) :=
    prefix_reach_append more (List.prefix_refl _)
  exact (reach_mono h).eq_of_length_le hback.length_le

/-- The next token of a text is the next one of the text through the token and further. -/
theorem Next.cut {more : List Char} (h : Next cs o w) (hcut : w ++ more <+: cs) :
    Next (w ++ more) o w := by
  have hdrop : ∀ {v : List Char} (u : List Char), v ++ u ++ more <+: cs →
      u ++ more <+: cs.drop v.length := by
    rintro v u ⟨rest, rfl⟩
    rw [List.append_assoc, List.append_assoc, List.drop_left, ← List.append_assoc]
    exact List.prefix_append _ _
  cases h with
  | whole hmatch hcomplete => exact .whole (hmatch.cut (List.prefix_append _ _) hcut) hcomplete
  | @closed kind v fault u hmatch hopens hends =>
    have hbehind := hdrop u hcut
    have hmatch' : Longest (v ++ u ++ more) kind v :=
      hmatch.cut (by rw [List.append_assoc]; exact List.prefix_append _ _) hcut
    refine .closed hmatch' hopens ?_
    rw [List.append_assoc, List.drop_left]
    exact ⟨prefix_reach_append more hends.front, hends.closes,
      fun v hv => hends.first v (hv.trans (reach_mono hbehind))⟩
  | @unclosed kind v fault hmatch hopens hendless =>
    have hbehind := hdrop _ hcut
    have hmatch' : Longest (v ++ reach kind (cs.drop v.length) ++ more) kind v :=
      hmatch.cut (by rw [List.append_assoc]; exact List.prefix_append _ _) hcut
    have hreach : reach kind ((v ++ reach kind (cs.drop v.length) ++ more).drop v.length)
        = reach kind (cs.drop v.length) := by
      rw [List.append_assoc, List.drop_left]
      exact reach_reach_append hbehind
    have hnext := Next.unclosed hmatch' hopens (by rwa [hreach])
    rwa [hreach] at hnext
  | stray hfirst hunmatched =>
    exact .stray rfl fun k v hv => hunmatched k v (hv.trans hcut)

end Lexer
end RelLang
