import RelLang.Proofs.Token.Lexer
import RelLang.Tree

/-!
# Operators with two spellings

Five operators are written as a mark or as a word. Two texts are the same *in words* if they have
the same tokens once these operators are words. What tells a mark from its word is not *blind*;
places are compared by the number of tokens in front of them, since words are longer than marks.
-/

namespace RelLang

/-- The word for the operator that a mark stands for, if there is one. -/
def Punct.word? : Punct → Option Keyword
  | .ampAmp => some .andKw
  | .barBar => some .orKw
  | .fatArrow => some .impliesKw
  | .iffArrow => some .iffKw
  | .bang => some .notKw
  | _ => none

/-- The kind of a token once operators are words. -/
def TokenKind.inWords : TokenKind → TokenKind
  | .punct p => (p.word?.map TokenKind.keyword).getD (.punct p)
  | k => k

/-- A token, kind and text, with a word for the mark if it is one of an operator that has a word. -/
def inWords : TokenKind × String → TokenKind × String
  | (.punct p, text) =>
    match p.word? with
    | some w => if text = p.spelling then (.keyword w, w.spelling) else (.punct p, text)
    | none => (.punct p, text)
  | token => token

namespace Tree

mutual

/-- The tree with its operators in words. -/
def inWords : Tree → Tree
  | .token kind text => .token (RelLang.inWords (kind, text)).1 (RelLang.inWords (kind, text)).2
  | .node kind children => .node kind (allInWords children)

/-- The trees of a list with their operators in words. -/
def allInWords : List Tree → List Tree
  | [] => []
  | t :: ts => t.inWords :: allInWords ts

end

theorem allInWords_eq_map (ts : List Tree) : allInWords ts = ts.map inWords := by
  induction ts with
  | nil => rfl
  | cons t ts ih => rw [allInWords, ih, List.map_cons]

end Tree

/-! ### Kinds -/

namespace TokenKind

variable {k k' kind : TokenKind}

/-- A kind stays as it is, or it is a mark and becomes its word. -/
theorem inWords_cases (k : TokenKind) :
    k.inWords = k ∨ ∃ p w, Punct.word? p = some w ∧ k = .punct p ∧ k.inWords = .keyword w := by
  cases k with
  | punct p =>
    rw [inWords]
    cases h : p.word? with
    | none => exact .inl rfl
    | some w => exact .inr ⟨p, w, h, rfl, rfl⟩
  | _ => exact .inl rfl

/-- A mark or a word of an operator that has both. -/
def hasSynonym : TokenKind → Bool
  | .punct p => p.word?.isSome
  | .keyword .andKw | .keyword .orKw | .keyword .impliesKw | .keyword .iffKw
  | .keyword .notKw => true
  | _ => false

/-- Both spellings of an operator are seen by the grammar. -/
theorem isSignificant_of_hasSynonym (h : k.hasSynonym = true) : k.isSignificant = true := by
  cases k with
  | punct p => rfl
  | keyword w => rfl
  | _ => cases h

theorem hasSynonym_of_not_isSignificant (h : k.isSignificant = false) : k.hasSynonym = false := by
  rw [Bool.eq_false_iff] at h ⊢
  exact fun hk => h (isSignificant_of_hasSynonym hk)

end TokenKind

/-- Does not tell the two spellings of an operator from each other. -/
def Blind {α : Sort*} (f : TokenKind → α) : Prop := ∀ k : TokenKind, f k.inWords = f k

namespace Blind

variable {α : Sort*} {f : TokenKind → α} {k k' : TokenKind}

/-- What gives the same for both spellings of each of the operators is blind. -/
theorem intro (hand : f (.keyword .andKw) = f (.punct .ampAmp))
    (hor : f (.keyword .orKw) = f (.punct .barBar))
    (himplies : f (.keyword .impliesKw) = f (.punct .fatArrow))
    (hiff : f (.keyword .iffKw) = f (.punct .iffArrow))
    (hnot : f (.keyword .notKw) = f (.punct .bang)) : Blind f := by
  intro k
  obtain h | ⟨p, w, hword, rfl, h⟩ := k.inWords_cases
  · rw [h]
  · rw [h]
    cases p <;> cases hword <;> assumption

theorem eq (hf : Blind f) (h : k.inWords = k'.inWords) : f k = f k' := by
  rw [← hf k, h, hf k']

/-- The same for what may be a kind, or nothing. -/
theorem option_eq {f : Option TokenKind → α} (hf : Blind fun k => f (some k))
    {o o' : Option TokenKind} (h : o.map TokenKind.inWords = o'.map TokenKind.inWords) :
    f o = f o' := by
  cases o with
  | none => rw [Option.map_eq_none_iff.mp h.symm]
  | some k =>
    cases o' with
    | none => cases h
    | some k' => exact hf.eq (Option.some.inj h)

theorem any_eq {test : TokenKind → Bool} (htest : Blind test) {o o' : Option TokenKind}
    (h : o.map TokenKind.inWords = o'.map TokenKind.inWords) : o.any test = o'.any test :=
  htest.option_eq (f := Option.any test) h

theorem isSignificant : Blind TokenKind.isSignificant := .intro rfl rfl rfl rfl rfl

theorem isTrivia : Blind TokenKind.isTrivia := .intro rfl rfl rfl rfl rfl

theorem isNameSegment : Blind TokenKind.isNameSegment := .intro rfl rfl rfl rfl rfl

theorem hasSynonym : Blind TokenKind.hasSynonym := .intro rfl rfl rfl rfl rfl

end Blind

namespace TokenKind

variable {k k' kind : TokenKind}

theorem inWords_of_not_hasSynonym (h : k.hasSynonym = false) : k.inWords = k := by
  obtain hsame | ⟨p, w, hword, rfl, -⟩ := k.inWords_cases
  · exact hsame
  · rw [hasSynonym, hword] at h
    cases h

/-- A kind of one spelling is told from all others. -/
theorem inWords_eq_iff (h : kind.hasSynonym = false) : k.inWords = kind ↔ k = kind := by
  refine ⟨fun heq => ?_, fun heq => heq ▸ inWords_of_not_hasSynonym (heq ▸ h)⟩
  rw [← heq, Blind.hasSynonym k] at h
  rw [← heq, inWords_of_not_hasSynonym h]

/-- Whether a kind of one spelling is ahead is told alike. -/
theorem beq_eq (kind : TokenKind) (hkind : kind.hasSynonym = false) {o o' : Option TokenKind}
    (h : o.map inWords = o'.map inWords) : (o == some kind) = (o' == some kind) := by
  have hblind : Blind fun k => some k == some kind := fun k => by
    rw [Bool.eq_iff_iff, beq_iff_eq, beq_iff_eq, Option.some.injEq, Option.some.injEq,
      inWords_eq_iff hkind]
  exact hblind.option_eq (f := (· == some kind)) h

/-- Kinds that are the same in words are the same, or both are of operators with two spellings. -/
theorem eq_or_of_inWords_eq (h : k.inWords = k'.inWords) :
    k = k' ∨ k.hasSynonym = true ∧ k'.hasSynonym = true := by
  have hboth := Blind.hasSynonym.eq h
  cases hk : k.hasSynonym with
  | false =>
    rw [hk] at hboth
    rw [inWords_of_not_hasSynonym hk, inWords_of_not_hasSynonym hboth.symm] at h
    exact .inl h
  | true => exact .inr ⟨rfl, hboth.symm.trans hk⟩

end TokenKind

/-! ### Tokens -/

/-- The kind and the text of a token in words. -/
def Token.inWords (t : Token) : TokenKind × String := RelLang.inWords t.toPair

/-- A token stays as it is, or it is a mark as it is spelled and becomes its word. -/
theorem inWords_cases (token : TokenKind × String) :
    inWords token = token ∨ ∃ p w, Punct.word? p = some w ∧ token = (.punct p, p.spelling) ∧
      inWords token = (.keyword w, w.spelling) := by
  obtain ⟨kind, text⟩ := token
  cases kind with
  | punct p =>
    cases h : p.word? with
    | none => exact .inl (by simp only [inWords, h])
    | some w =>
      by_cases htext : text = p.spelling
      · exact .inr ⟨p, w, h, by rw [htext], by simp only [inWords, h, if_pos htext]⟩
      · exact .inl (by simp only [inWords, h, if_neg htext])
  | _ => exact .inl rfl

theorem fst_inWords (token : TokenKind × String) : (inWords token).1.inWords = token.1.inWords := by
  obtain h | ⟨p, w, hword, rfl, h⟩ := inWords_cases token
  · rw [h]
  · rw [h]
    show TokenKind.keyword w = (p.word?.map TokenKind.keyword).getD (.punct p)
    rw [hword]
    rfl

/-- What is blind gives the same for the kinds of tokens that are the same in words. -/
theorem Blind.fst_eq {α : Sort*} {f : TokenKind → α} (hf : Blind f)
    {token token' : TokenKind × String} (h : inWords token = inWords token') :
    f token.1 = f token'.1 :=
  hf.eq (by rw [← fst_inWords, h, fst_inWords])

/-- Tokens of one spelling that are the same in words are the same. -/
theorem eq_of_inWords_eq {token token' : TokenKind × String} (h : inWords token = inWords token')
    (hone : token.1.hasSynonym = false) : token = token' := by
  have hsame {token : TokenKind × String} (hone : token.1.hasSynonym = false) :
      inWords token = token := by
    obtain hsame | ⟨p, w, hword, rfl, -⟩ := inWords_cases token
    · exact hsame
    · rw [TokenKind.hasSynonym, hword] at hone
      cases hone
  have hone' : token'.1.hasSynonym = false := (Blind.hasSynonym.fst_eq h).symm.trans hone
  rwa [hsame hone, hsame hone'] at h

/-- What gives the same for the texts of both spellings gives the same for tokens that are the same
in words. -/
theorem text_eq {α : Type} {f : String → α}
    (hf : ∀ p w, Punct.word? p = some w → f w.spelling = f p.spelling)
    {token token' : TokenKind × String} (h : inWords token = inWords token') :
    f token.2 = f token'.2 := by
  have hword (token : TokenKind × String) : f (inWords token).2 = f token.2 := by
    obtain hsame | ⟨p, w, hword, rfl, hsame⟩ := inWords_cases token
    · rw [hsame]
    · rw [hsame]
      exact hf p w hword
  rw [← hword token, h, hword token']

theorem Tree.inWords_leaf (t : Token) : t.leaf.inWords = .token t.inWords.1 t.inWords.2 := rfl

/-! ### Places -/

namespace Token

/-- The number of tokens that end at an offset or in front of it. -/
def before (ts : List Token) (offset : Nat) : Nat := ts.countP (·.stop ≤ offset)

/-- Behind the first tokens of a text, these are counted. -/
theorem Placed.before_size {ts us : List Token} (h : Placed 0 (ts ++ us)) :
    before (ts ++ us) (size ts) = ts.length := by
  obtain ⟨hts, hus⟩ := placed_append.mp h
  have hfront : ∀ t ∈ ts, decide (t.stop ≤ size ts) = true :=
    fun t ht => decide_eq_true (by simpa using hts.stop_le ht)
  have hback : ∀ t ∈ us, ¬ decide (t.stop ≤ size ts) = true := by
    intro t ht
    have hbounds := hus.bounds ht
    have hpos := hus.size_pos ht
    have hstop : t.stop = t.start + t.text.utf8ByteSize := rfl
    simp only [decide_eq_true_eq]
    omega
  rw [before, List.countP_append, List.countP_eq_length.mpr hfront, List.countP_eq_zero.mpr hback,
    Nat.add_zero]

end Token

/-- A range in numbers of tokens: those in front of its start, and those in front of its end. -/
def ByteRange.inTokens (ts : List Token) (r : ByteRange) : Nat × Nat :=
  (Token.before ts r.start, Token.before ts r.stop)

namespace Token

/-- In front of a token stand those before it. -/
theorem Placed.inTokens_range {ts us : List Token} {t : Token} (h : Placed 0 (ts ++ t :: us)) :
    t.range.inTokens (ts ++ t :: us) = (ts.length, ts.length + 1) := by
  have hstart : t.range.start = size ts := by
    rw [← Nat.zero_add (size ts)]
    exact (placed_append.mp h).2.1
  have hstop : t.range.stop = size (ts ++ [t]) := by
    have hlength : t.range.stop = t.range.start + t.text.utf8ByteSize := rfl
    simp [hlength, hstart, size]
  have hbehind : before (ts ++ t :: us) (size (ts ++ [t])) = ts.length + 1 := by
    rw [List.append_cons] at h ⊢
    rw [h.before_size, List.length_append, List.length_singleton]
  rw [ByteRange.inTokens, hstart, hstop, h.before_size, hbehind]

/-- In front of the end stand all tokens. -/
theorem Placed.inTokens_end {ts : List Token} (h : Placed 0 ts) :
    (ByteRange.empty (listStop ts)).inTokens ts = (ts.length, ts.length) := by
  have hall : before ts (listStop ts) = ts.length := by
    have hsize : before (ts ++ []) (size ts) = ts.length :=
      Placed.before_size (by rwa [List.append_nil])
    rwa [List.append_nil, ← h.listStop_eq] at hsize
  exact Prod.ext hall hall

end Token

end RelLang
