import RelLang.Proofs.Syntax.Context
import RelLang.Proofs.Syntax.Operand

/-!
# Bounds in context

Bounds stand one behind the other with nothing between them. What begins a bound, and
the brace behind the last one, continue none: they are no marks, and they are not what
is looked for behind a comma. So a bound in front of one of them is a bound in front of
each.
-/

namespace RelLang

open Grammar
open Tree (kinds)

/-- The tokens begin a bound, or end the bounds. -/
def Apart (after : List TokenKind) : Prop :=
  ∃ k ks, after = k :: ks ∧ (startsBound k = true ∨ k = .punct .rbrace)

namespace Form

variable {before after : List TokenKind}

/-! ### Tests at the end of a bound -/

/-- What does not begin a bound is not ahead. -/
theorem at?_of_apart (hafter : Apart after) {kind : TokenKind} (hstart : startsBound kind = false)
    (hbrace : kind ≠ .punct .rbrace) : at? kind after = false := by
  obtain ⟨k, ks, rfl, hk⟩ := hafter
  refine beq_false_of_ne fun heq => ?_
  obtain rfl := Option.some.inj heq
  obtain hk | rfl := hk
  · rw [hstart] at hk
    cases hk
  · exact hbrace rfl

theorem atAny_of_apart (hafter : Apart after) {allowed : List TokenKind}
    (h : ∀ k ∈ allowed, startsBound k = false ∧ k ≠ .punct .rbrace) :
    atAny allowed after = false := by
  obtain ⟨k, ks, rfl, hk⟩ := hafter
  refine Bool.eq_false_iff.mpr fun hmem => ?_
  obtain ⟨hstart, hbrace⟩ := h k (List.contains_iff_mem.mp hmem)
  obtain hk | rfl := hk
  · rw [hstart] at hk
    cases hk
  · exact hbrace rfl

theorem same_atAny {allowed : List TokenKind} (h : atAny allowed after = false) :
    Same after Settled (atAny allowed) := by
  intro ks _
  cases ks with
  | nil => exact h
  | cons => rfl

/-- A comma at the end has two tokens of the bound behind it, or one, and then the token behind the
bound is none that makes the name in front of it the next bound. -/
theorem same_valueBehind (hafter : Apart after) : Same after Settled valueBehind := by
  have hnext : after[0]? ≠ some (.punct .dot) ∧ after[0]?.any boundOperators.contains = false := by
    have hdot : (after[0]? == some (TokenKind.punct .dot)) = false :=
      at?_of_apart hafter rfl nofun
    exact ⟨ne_of_beq_false hdot, atAny_of_apart hafter (by decide)⟩
  have hcomma : at? (.punct .comma) after = false := at?_of_apart hafter rfl nofun
  have harrow : at? (.punct .arrow) after = false := at?_of_apart hafter rfl nofun
  intro ks hks
  match ks, hks with
  | [], _ =>
    have hfirst : (after[0]? == some (.punct .comma)) = false := hcomma
    rw [List.nil_append, valueBehind, tupleCommaAhead, harrow, hfirst]
    rfl
  | [k], hks =>
    have hk : k ≠ .punct .comma := by
      rintro rfl
      exact absurd (hks _ rfl) (by decide)
    have hfirst : (some k == some (TokenKind.punct .comma)) = false :=
      beq_false_of_ne fun heq => hk (Option.some.inj heq)
    simp only [valueBehind, tupleCommaAhead, List.cons_append, List.getElem?_cons_zero, hfirst,
      Bool.false_and, at?]
  | [k, k'], _ =>
    have hdot : (after[0]? != some (TokenKind.punct .dot)) = true := bne_iff_ne.mpr hnext.1
    simp only [valueBehind, tupleCommaAhead, List.cons_append, List.nil_append,
      List.getElem?_cons_zero, List.getElem?_cons_succ, hdot, hnext.2, at?]
    rfl
  | _ :: _ :: _ :: _, _ => rfl

/-- What is behind a bound value of one token decides nothing. -/
theorem same_boundValueForm (hafter : Apart after) :
    Same after Followed fun ks => BoundValueForm.ofTokens? ks[0]? ks[1]? := by
  have hslash : (after[0]? == some (TokenKind.punct .slash)) = false :=
    at?_of_apart hafter rfl nofun
  intro ks hks
  match ks, hks with
  | [], hks => exact absurd rfl hks.1
  | [k], hks =>
    have hk := hks.2 k rfl
    simp only [List.cons_append, List.nil_append, List.getElem?_cons_zero,
      List.getElem?_cons_succ, List.getElem?_nil]
    unfold BoundValueForm.ofTokens?
    split
    all_goals first
      | rfl
      | simp_all [closing]
  | _ :: _ :: _, _ => rfl

/-! ### How bounds end -/

variable {n : Nat} {C : List TokenKind → Prop}

theorem settles_boundGroup : Settles n (part .boundGroup) := by
  intro ts behind h
  obtain ⟨m, -, h⟩ := derives_part.mp h
  exact (settles_token (by decide)).last (begins_anyToken _) [_, _] ts behind h

theorem begins_anyQualName : Begins (fun _ => True) qualName :=
  begins_qualName.mono fun _ _ => trivial

/-- A bound value is of one of four forms. -/
theorem derives_boundValue {ts : List Tree} {behind : List TokenKind} :
    boundValue.Derives n ts behind ↔ ∃ us form, ts = [.node .bindRhsAtom us] ∧
      BoundValueForm.ofTokens? (kinds us ++ behind)[0]? (kinds us ++ behind)[1]? = some form ∧
      (ofBoundValue form).Derives n us behind := by
  rw [boundValue, derives_node]
  refine exists_congr fun us => ?_
  rw [derives_ahead]
  constructor
  · rintro ⟨rfl, h⟩
    split at h
    · next form hform => exact ⟨form, rfl, hform, h⟩
    · exact absurd h not_derives_never
  · rintro ⟨form, rfl, hform, h⟩
    rw [hform]
    exact ⟨rfl, h⟩

theorem begins_boundValue : Begins (fun _ => True) boundValue := by
  intro n ts behind hts
  obtain ⟨us, form, rfl, -, h⟩ := derives_boundValue.mp hts
  refine ((?_ : Begins (fun _ => True) (ofBoundValue form)).node _) n _ behind (.node h)
  cases form with
  | oneToken => exact begins_anyToken _
  | negativeNumber => exact (begins_anyToken _).append _
  | group =>
    intro n us behind h
    obtain ⟨m, -, hgroup⟩ := derives_part.mp h
    exact (begins_anyToken _).append _ _ _ _ hgroup
  | name => exact begins_anyQualName

theorem settles_boundValue : Settles n boundValue := by
  intro ts behind hts
  obtain ⟨us, form, rfl, -, h⟩ := derives_boundValue.mp hts
  refine ((?_ : Settles n (ofBoundValue form)).node _) _ behind (.node h)
  cases form with
  | oneToken => exact settles_token (by decide)
  | negativeNumber => exact (settles_token (by decide)).behind (begins_anyToken _) _
  | group => exact settles_boundGroup
  | name => exact settles_qualName

theorem settles_boundProduct : Settles n boundProduct :=
  (settles_boundValue.append (.whileAhead (settles_boundValue.behind begins_boundValue _))).node _

theorem begins_boundProduct : Begins (fun _ => True) boundProduct :=
  (begins_boundValue.append _).node _

theorem settles_boundUnion : Settles n boundUnion :=
  (settles_boundProduct.append
    (.whileAhead (settles_boundProduct.behind begins_boundProduct _))).node _

theorem begins_boundUnion : Begins (fun _ => True) boundUnion :=
  (begins_boundProduct.append _).node _

theorem settles_joined : Settles n (token [.punct .dot] ++ qualName) :=
  settles_qualName.behind begins_anyQualName _

theorem settles_boundPath (simple whole : Bool) : Settles n (boundPath simple whole) := by
  cases simple <;> cases whole
  · exact .whileAhead settles_joined
  · exact settles_token nofun
  · exact settles_look.append (settles_joined.append (.whileAhead settles_joined))
  · exact settles_look

theorem settles_boundLhs (simple : Bool) : Settles n (boundLhs simple) := by
  have hpath : ∀ b, Settles n (qualName ++ boundPath b simple) := fun b =>
    settles_qualName.append (settles_boundPath b simple)
  exact (Settles.given ((hpath false).behind (begins_anyQualName.append _) _) (hpath true)).node _

theorem begins_anyBoundLhs (simple : Bool) : Begins (fun _ => True) (boundLhs simple) :=
  (begins_boundLhs simple).mono fun _ _ => trivial

theorem settles_boundRhs : Settles n boundRhs := settles_boundUnion.behind begins_boundUnion _

/-- What stands behind the `no` of a bound. -/
theorem settles_anyBoundLhs : Settles n (Form.either (boundLhs true) (boundLhs false)) :=
  (settles_boundLhs true).either (settles_boundLhs false)

/-- A bound without a `no`. -/
theorem settles_related : Settles n (Form.either (boundLhs true ++ ifAhead (atAny boundOperators) boundRhs)
    (boundLhs false ++ boundRhs)) :=
  ((settles_boundLhs true).append settles_boundRhs.ifAhead).either
    ((settles_boundLhs false).append settles_boundRhs)

theorem settles_bound : Settles n bound :=
  ((settles_anyBoundLhs.behind ((begins_anyBoundLhs true).either (begins_anyBoundLhs false)) _).given
    settles_related).node _

/-! ### Bounds -/

section

variable (hbefore : Apart before) (hafter : Apart after)

include hbefore hafter

theorem stays_boundName : Stays before after n C Settled qualName :=
  stays_qualName (at?_of_apart hbefore rfl nofun) (at?_of_apart hafter rfl nofun)

theorem stays_boundValue (hgroup : Stays before after n C Settled (part .boundGroup)) :
    Stays before after n C Settled boundValue := by
  have hvalue : ∀ form, Stays before after n C Settled (ofBoundValue form) := by
    intro form
    cases form with
    | oneToken => exact stays_token
    | negativeNumber => exact stays_token.behindToken
    | group => exact hgroup
    | name => exact stays_boundName hbefore hafter
  intro ts ks hks hends h
  have hfollowed := settles_boundValue.turns_followed begins_boundValue ts ks _ hks h
  obtain ⟨us, form, rfl, hform, hus⟩ := derives_boundValue.mp h
  rw [Tree.kinds_node_cons, Tree.kinds_nil, List.append_nil] at hends hfollowed
  have htold : Told before after Followed fun ks => BoundValueForm.ofTokens? ks[0]? ks[1]? :=
    Same.told (same_boundValueForm hbefore) (same_boundValueForm hafter) fun _ => id
  refine derives_boundValue.mpr ⟨us, form, rfl, ?_, hvalue form us ks hks hends hus⟩
  rw [← List.append_assoc] at hform ⊢
  exact (htold _ hfollowed).symm.trans hform

theorem stays_boundUnion (hgroup : Stays before after n C Settled (part .boundGroup)) :
    Stays before after n C Settled boundUnion := by
  have hvalue := stays_boundValue hbefore hafter hgroup
  have hbehind : Told before after Settled valueBehind :=
    Same.told (same_valueBehind hbefore) (same_valueBehind hafter) fun _ => id
  have hmore : Settles n (token [.punct .arrow, .punct .comma] ++ boundValue) :=
    settles_boundValue.behind begins_boundValue _
  have hproduct : Stays before after n C Settled boundProduct :=
    (hvalue.append (Stays.whileSettled hbehind hvalue.behindToken hmore)
      (Settles.whileAhead hmore).turns).node _
  have hplus : Told before after Settled (at? (.punct .plus)) :=
    Same.told (same_at? (at?_of_apart hbefore rfl nofun)) (same_at? (at?_of_apart hafter rfl nofun))
      fun _ => id
  have hproducts : Settles n (token [.punct .plus] ++ boundProduct) :=
    settles_boundProduct.behind begins_boundProduct _
  exact (hproduct.append (Stays.whileSettled hplus hproduct.behindToken hproducts)
    (Settles.whileAhead hproducts).turns).node _

theorem stays_boundGroup : Stays before after n C Settled (part .boundGroup) := by
  induction n with
  | zero =>
    intro ts ks _ _ h
    obtain ⟨m, hm, -⟩ := derives_part.mp h
    cases hm
  | succ n ih =>
    have hclosed : Stays before after n C Settled boundGroup :=
      ((stays_boundUnion hbefore hafter ih).append stays_token
        (settles_token (by decide)).turns).behindToken
    intro ts ks hks hends h
    obtain ⟨m, hm, h⟩ := derives_part.mp h
    obtain rfl := Nat.succ.inj hm
    exact .part (hclosed ts ks hks hends h)

theorem stays_boundPath (simple whole : Bool) :
    Stays before after n C Settled (boundPath simple whole) := by
  have hdot : Told before after Settled (segmentBehind .dot) :=
    Same.told (same_segmentBehind (by decide) (at?_of_apart hbefore rfl nofun))
      (same_segmentBehind (by decide) (at?_of_apart hafter rfl nofun)) fun _ => id
  have hjoined : Stays before after n C Settled (token [.punct .dot] ++ qualName) :=
    (stays_boundName hbefore hafter).behindToken
  have hmore : Stays before after n C Settled (whileAhead (segmentBehind .dot)
      (token [.punct .dot] ++ qualName)) :=
    Stays.whileSettled hdot hjoined settles_joined
  cases simple <;> cases whole
  · exact hmore
  · exact stays_token
  · exact (stays_look_of_told hdot).append
      (hjoined.append hmore (Settles.whileAhead settles_joined).turns)
      (settles_joined.append (.whileAhead settles_joined)).turns
  · exact stays_look_of_told fun ks hks => congrArg Bool.not (hdot ks hks)

theorem stays_boundLhs (simple : Bool) : Stays before after n C Settled (boundLhs simple) := by
  have hpath : ∀ b, Settles n (qualName ++ boundPath b simple) := fun b =>
    settles_qualName.append (settles_boundPath b simple)
  have hname : ∀ b, Stays before after n C Settled (qualName ++ boundPath b simple) := fun b =>
    (stays_boundName hbefore hafter).append (stays_boundPath hbefore hafter b simple)
      (settles_boundPath b simple).turns
  have hbegins : ∀ b, Begins (fun _ => True) (qualName ++ boundPath b simple) := fun b =>
    begins_anyQualName.append _
  have hhash : Settles n (token [.punct .hash] ++ (qualName ++ boundPath false simple)) :=
    (hpath false).behind (hbegins false) _
  have hturn : Turns n Settled (given (at? (.punct .hash))
      (row [token [.punct .hash], qualName, boundPath false simple])
      (qualName ++ boundPath true simple)) Followed :=
    (hhash.given (hpath true)).turns_followed (((begins_anyToken _).append _).given (hbegins true))
  exact (Stays.given (Same.told same_kind same_kind fun _ => id) (hname false).behindToken (hname true)
    hturn).node _

/-- A bound in front of what begins another one, or ends the bounds, is one in front of anything
that does. -/
theorem stays_bound : Stays before after n C Settled bound := by
  have hrhs : Stays before after n C Settled boundRhs :=
    (stays_token.node _).append (stays_boundUnion hbefore hafter (stays_boundGroup hbefore hafter))
      settles_boundUnion.turns
  have hlhs : ∀ b, Stays before after n C Settled (boundLhs b) := stays_boundLhs hbefore hafter
  have hoperators : Told before after Settled (atAny boundOperators) :=
    Same.told (same_atAny (atAny_of_apart hbefore (by decide)))
      (same_atAny (atAny_of_apart hafter (by decide))) fun _ => id
  have hoptional : Stays before after n C Settled (ifAhead (atAny boundOperators) boundRhs) :=
    .given hoperators hrhs stays_nothing settles_boundRhs.ifAhead.turns
  have hbegins : ∀ b f, Begins (fun _ => True) (boundLhs b ++ f) := fun b f =>
    (begins_anyBoundLhs b).append f
  have hturn : Turns n Settled (given (at? (.keyword .noKw))
      (token [.keyword .noKw] ++ Form.either (boundLhs true) (boundLhs false))
      (Form.either (boundLhs true ++ ifAhead (atAny boundOperators) boundRhs)
        (boundLhs false ++ boundRhs))) Followed :=
    ((settles_anyBoundLhs.behind ((begins_anyBoundLhs true).either (begins_anyBoundLhs false)) _).given
      settles_related).turns_followed
        (((begins_anyToken _).append _).given ((hbegins _ _).either (hbegins _ _)))
  exact (Stays.given (Same.told same_kind same_kind fun _ => id)
    ((hlhs true).either (hlhs false)).behindToken
    (((hlhs true).append hoptional settles_boundRhs.ifAhead.turns).either
      ((hlhs false).append hrhs settles_boundRhs.turns)) hturn).node _

end

end Form
end RelLang
