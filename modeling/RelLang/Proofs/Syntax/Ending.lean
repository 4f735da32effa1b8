import RelLang.Proofs.Syntax.Apart
import RelLang.Proofs.Syntax.Module

/-!
# Where a text ends and another one begins

A paragraph ends with one of few tokens, and the next one begins with one of few. No test
on the tokens ahead that is made inside a paragraph tells whether there is a next one,
with one exception: a command can begin with a label, which is a name. A command without
a target would have the name for its target, and a scope of a number would be the scope
of that name.
-/

namespace RelLang

open Grammar
open Tree (kinds)

namespace Form

/-- The tokens that paragraphs begin with. -/
def openers : List TokenKind :=
  [.keyword .predKw, .keyword .funKw, .keyword .factKw, .keyword .assertKw, .keyword .runKw,
   .keyword .checkKw, .ident, .keyword .testKw, .keyword .expectKw, .keyword .exampleKw,
   .keyword .instKw, .keyword .optionKw, .sexpr, .keyword .sigKw, .keyword .abstractKw,
   .keyword .varKw, .keyword .loneKw, .keyword .someKw, .keyword .oneKw, .keyword .twoKw]

/-- Tokens that begin a paragraph, or none. -/
structure Opened (after : List TokenKind) : Prop where
  first : ∀ k ∈ after[0]?, k ∈ openers
  extension : Operator.extensionOf after = none
  /-- A name is a label. -/
  label : at? .ident after = true → after[1]? = some (.punct .colon)

/-- What takes a name behind it for its own: a command without a target, and a scope that is a
number. -/
def nameTakers : List (List TokenKind) :=
  [[.keyword .runKw], [.keyword .checkKw], [.keyword .forKw, .number]]

/-- The tokens end with what takes a name behind them for its own. -/
def TakesName (ks : List TokenKind) : Prop := ∃ ls ∈ nameTakers, ls <:+ ks

instance (ks : List TokenKind) : Decidable (TakesName ks) :=
  inferInstanceAs (Decidable (∃ ls ∈ nameTakers, ls <:+ ks))

/-- Tokens at the end of a text, with others to come. -/
structure Over (after ks : List TokenKind) : Prop where
  settled : Settled ks
  label : at? .ident after = true → ¬ TakesName ks

variable {after ks : List TokenKind}

theorem Settled.of_suffix {ls : List TokenKind} (h : Settled ks) (hls : ls <:+ ks) : Settled ls := by
  obtain ⟨front, rfl⟩ := hls
  intro k hk
  exact h k (by rw [List.getLast?_append, Option.mem_def.mp hk]; rfl)

theorem Over.endings (h : Over after ks) : Endings (Over after) ks := fun _ hls =>
  ⟨h.settled.of_suffix hls, fun hlabel ⟨taker, hmem, htaker⟩ =>
    h.label hlabel ⟨taker, hmem, htaker.trans hls⟩⟩

/-! ### Tests where a text goes on -/

theorem opened_nil : Opened [] := ⟨nofun, rfl, nofun⟩

/-- A test at the end of a text that is made in front of a token tells the same without one. -/
theorem Same.settled {α : Type} {f : List TokenKind → α} (h : Same after Followed f)
    (hnil : f after = f []) : Same after Settled f := by
  intro ks hks
  cases ks with
  | nil => exact hnil
  | cons k ks => exact h _ ⟨List.cons_ne_nil k ks, hks⟩

theorem same_declarationAhead (hnames : namesEndInColon after = false) :
    Same after Followed declarationAhead := by
  intro ks hks
  rw [Bool.eq_iff_iff]
  constructor
  · intro h
    have hseen : declarationAhead (ks ++ []) = true := declarationAhead_of_followed hnames hks h
    rwa [List.append_nil] at hseen
  · intro h
    rw [← List.append_nil ks] at h
    exact declarationAhead_of_followed rfl hks h

namespace Opened

variable (h : Opened after)

include h

theorem not_at? {kind : TokenKind} (hkind : kind ∉ openers) : at? kind after = false :=
  beq_false_of_ne fun heq => hkind (h.first kind heq)

theorem not_atAny {allowed : List TokenKind} (hallowed : ∀ k ∈ allowed, k ∉ openers) :
    atAny allowed after = false := by
  refine Bool.eq_false_iff.mpr fun hany => ?_
  obtain ⟨k, hk, hmem⟩ := Option.any_eq_true _ _ |>.mp hany
  exact hallowed k (List.contains_iff_mem.mp hmem) (h.first k hk)

theorem names : namesEndInColon after = false := by
  have hcomma : at? (.punct .comma) after = false := h.not_at? (by decide)
  have hcolon : at? (.punct .colon) after = false := h.not_at? (by decide)
  unfold namesEndInColon
  split
  · cases hcomma
  · cases hcolon
  · rfl

theorem outside : Outside after where
  extension := h.extension
  slash := h.not_at? (by decide)
  otherwise := h.not_at? (by decide)
  names := h.names

theorem same_at? {kind : TokenKind} (hkind : kind ∉ openers) : Same after Settled (at? kind) :=
  Form.same_at? (h.not_at? hkind)

/-- A test on two tokens, the second of which can be the one that a paragraph begins with. -/
theorem same_second {α : Type} (f : Option TokenKind → Option TokenKind → α)
    (hf : ∀ k ∈ closing, ∀ l ∈ openers, f (some k) (some l) = f (some k) none) :
    Same after Followed fun ks => f ks[0]? ks[1]? := by
  intro ks hks
  match ks, hks with
  | [], hks => exact absurd rfl hks.1
  | [k], hks =>
    have hsecond : f (some k) after[0]? = f (some k) none := by
      cases hfirst : after[0]? with
      | none => rfl
      | some l => exact hf k (hks.2 k rfl) l (h.first l hfirst)
    exact hsecond
  | _ :: _ :: _, _ => rfl

/-- A test that passes only in front of a token with which no paragraph begins or ends. -/
theorem same_behind {kind : TokenKind} (hclosing : kind ∉ closing) (hopeners : kind ∉ openers)
    {rest : List TokenKind → Bool}
    (hrest : ∀ ks, Followed ks → rest (kind :: (ks ++ after)) = rest (kind :: ks)) :
    Same after Settled fun ks => at? kind ks && rest ks := by
  intro ks hks
  match ks with
  | [] =>
    dsimp only
    rw [List.nil_append, h.not_at? hopeners]
    rfl
  | k :: ks =>
    dsimp only
    cases hk : at? kind (k :: ks) with
    | false =>
      have hfirst : at? kind (k :: ks ++ after) = false := hk
      rw [hfirst, Bool.false_and, Bool.false_and]
    | true =>
      obtain rfl := Option.some.inj (eq_of_beq hk)
      have hfirst : at? k (k :: ks ++ after) = true := hk
      rw [hfirst, List.cons_append, hrest ks ⟨hks.tail_ne_nil hclosing, hks.tail⟩]

/-- A test on the token behind such a token. -/
theorem same_next {kind : TokenKind} (hclosing : kind ∉ closing) (hopeners : kind ∉ openers)
    (test : Option TokenKind → Bool) :
    Same after Settled fun ks => at? kind ks && test ks[1]? := by
  refine h.same_behind hclosing hopeners fun ks hks => ?_
  cases ks with
  | nil => exact absurd rfl hks.1
  | cons => rfl

theorem same_scopeAhead : Same after Settled scopeAhead := by
  have hnumber : (after[0]? == some .number) = false := h.not_at? (by decide)
  refine h.same_behind (by decide) (by decide) fun ks hks => ?_
  match ks, hks with
  | [], hks => exact absurd rfl hks.1
  | [k], _ => simp [hnumber]
  | _ :: _ :: _, _ => rfl

theorem same_blockAhead : Same after Settled blockAhead :=
  h.same_behind (by decide) (by decide) fun ks hks =>
    congrArg Bool.not (same_declarationAhead h.names ks hks)

theorem same_universalAhead : Same after Settled universalAhead :=
  h.same_behind (by decide) (by decide) fun ks hks => same_declarationAhead h.names ks hks

theorem same_qualNameAhead : Same after Followed qualNameAhead :=
  h.same_second (fun k l => k.any TokenKind.isNameSegment
    || (k == some (.keyword .thisKw) && l == some (.punct .slash))) (by decide)

theorem same_labelAhead : Same after Followed labelAhead :=
  h.same_second (fun k l => k == some .ident && l == some (.punct .colon)) (by decide)

theorem same_namedBlockAhead : Same after Settled namedBlockAhead := by
  refine Same.settled (h.same_second (fun k l => k == some .ident && l == some (.punct .lbrace))
    (by decide)) ?_
  cases hident : at? .ident after with
  | false => rw [namedBlockAhead, hident]; rfl
  | true => rw [namedBlockAhead, hident, h.label hident]; rfl

theorem same_testAhead : Same after Followed testAhead := by
  intro ks hks
  rw [testAhead, testAhead, same_kind ks hks, h.same_qualNameAhead ks hks]

theorem same_segmentsEndInDot : Same after Settled segmentsEndInDot := by
  have hslash : at? (.punct .slash) after = false := h.not_at? (by decide)
  have hdot : at? (.punct .dot) after = false := h.not_at? (by decide)
  intro ks hks
  fun_induction segmentsEndInDot ks with
  | case1 k ks ih => rw [List.cons_append, List.cons_append, segmentsEndInDot, ih hks.tail.tail]
  | case2 ks => rfl
  | case3 ks hnot hnotDot =>
    match ks with
    | [] =>
      rw [List.nil_append]
      unfold segmentsEndInDot
      split
      · cases hslash
      · cases hdot
      · rfl
    | [k] =>
      have hk : k ≠ .punct .slash := by
        rintro rfl
        exact absurd (hks _ rfl) (by decide)
      unfold segmentsEndInDot
      split <;> simp_all
    | k :: k' :: ks => cases k <;> simp_all [segmentsEndInDot]

/-- Only a label is a part of a name. -/
theorem not_segment (hident : at? .ident after = false) :
    after[0]?.any TokenKind.isNameSegment = false := by
  have hsegment : ∀ k ∈ openers, k = .ident ∨ k.isNameSegment = false := by decide
  unfold at? at hident
  cases hafter : after[0]? with
  | none => rfl
  | some k =>
    obtain rfl | hk := hsegment k (h.first k hafter)
    · rw [hafter] at hident
      cases hident
    · exact hk

theorem not_segmentsAhead : segmentsAhead after = false := by
  cases hident : at? .ident after with
  | true =>
    have hcolon := h.label hident
    match after, hident with
    | k :: l :: ls, hident =>
      obtain rfl := Option.some.inj (eq_of_beq hident)
      obtain rfl := Option.some.inj hcolon
      rfl
  | false =>
    have hsegment := h.not_segment hident
    cases after with
    | nil => rfl
    | cons k ls => rw [segmentsAhead, show k.isNameSegment = false from hsegment, Bool.false_and]

theorem same_segmentsAhead : Same after Settled segmentsAhead := by
  intro ks hks
  cases ks with
  | nil => exact h.not_segmentsAhead
  | cons k ks => rw [List.cons_append, segmentsAhead, segmentsAhead, h.same_segmentsEndInDot ks hks.tail]

theorem same_receiverAhead : Same after Settled receiverAhead := by
  have hthis : at? (.keyword .thisKw) after = false := h.not_at? (by decide)
  have hslash : at? (.punct .slash) after = false := h.not_at? (by decide)
  have hsegments : ∀ ks, at? (.keyword .thisKw) ks = false ∨ at? (.punct .slash) ks.tail = false →
      receiverAhead ks = segmentsAhead ks := by
    intro ks hks
    unfold receiverAhead
    split
    · obtain hks | hks := hks <;> cases hks
    · rfl
  intro ks hks
  match ks, hks with
  | [], _ => rw [List.nil_append, hsegments _ (.inl hthis), h.not_segmentsAhead]; rfl
  | [k], hks =>
    rw [hsegments ([k] ++ after) (.inr hslash), hsegments [k] (.inr rfl), h.same_segmentsAhead [k] hks]
  | k :: k' :: ks, hks =>
    by_cases hreceiver : k = .keyword .thisKw ∧ k' = .punct .slash
    · obtain ⟨rfl, rfl⟩ := hreceiver
      exact h.same_segmentsAhead ks hks.tail.tail
    · have hnot : ∀ ls, at? (.keyword .thisKw) (k :: k' :: ls) = false ∨
          at? (.punct .slash) (k :: k' :: ls).tail = false := by
        intro ls
        refine (not_and_or.mp hreceiver).imp (fun hk => ?_) fun hk => ?_
        all_goals exact beq_false_of_ne fun heq => hk (Option.some.inj heq)
      rw [List.cons_append, List.cons_append, hsegments _ (hnot _), hsegments _ (hnot _)]
      exact h.same_segmentsAhead (k :: k' :: ks) hks

/-- What a paragraph begins with is told by its own tokens. -/
theorem same_paragraphStart :
    Same after Followed fun ks => ParagraphStart.ofTokens? ks[0]? ks[1]? ks[2]? := by
  have hclosing : ∀ k ∈ closing, k ≠ .keyword .testKw ∧ k ≠ .punct .colon := by decide
  have hcolon : (after[0]? == some (TokenKind.punct .colon)) = false := h.not_at? (by decide)
  intro ks hks
  match ks, hks with
  | [], hks => exact absurd rfl hks.1
  | [k], hks =>
    have hk := (hclosing k (hks.2 k rfl)).1
    simp only [List.cons_append, List.nil_append, List.getElem?_cons_zero,
      List.getElem?_cons_succ, List.getElem?_nil]
    unfold ParagraphStart.ofTokens?
    split <;> simp_all
  | [k, k'], hks =>
    have hk : (some k' == some (TokenKind.punct .colon)) = false :=
      beq_false_of_ne fun heq => (hclosing k' (hks.2 k' rfl)).2 (Option.some.inj heq)
    simp only [List.cons_append, List.nil_append, List.getElem?_cons_zero,
      List.getElem?_cons_succ, List.getElem?_nil, ParagraphStart.ofTokens?, hk, Bool.false_and]
  | _ :: _ :: _ :: _, _ => rfl

end Opened

end Form
end RelLang
