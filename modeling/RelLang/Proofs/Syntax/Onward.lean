import RelLang.Proofs.Syntax.Ending

/-!
# Paragraphs with others behind them

What stands for a form at the end of a text stands for it with a paragraph behind it. What
is behind the form in its own text may be nothing. Behind an expression it may not be names
and nothing else, in front of a test that looks at two tokens it may not be nothing.
-/

namespace RelLang

open Grammar
open Tree (kinds)

namespace Form

variable {after : List TokenKind} {n : Nat} {f g : Form} {test : List TokenKind → Bool}
  {P : List TokenKind → Prop}

/-- What the form stands for in a text it stands for with others behind the text. -/
abbrev Onward (after : List TokenKind) (n : Nat) (P : List TokenKind → Prop) (f : Form) : Prop :=
  Stays [] after n (Over after) P f

/-- The tokens are not only names, if there are any. -/
def Loose (ks : List TokenKind) : Prop := ks = [] ∨ Fenced ks

/-! ### What is behind a part of a form -/

theorem turns_fenced : Turns n Fenced f Fenced := fun _ _ _ hks _ => hks.behind _

theorem Begins.turns_ne_nil (hf : Begins (fun _ => True) f) : Turns n P f (· ≠ []) :=
  fun _ _ _ _ hts => List.append_ne_nil_of_left_ne_nil (hf.kinds_ne_nil hts) _

/-- What begins with a token that ends names. -/
theorem Begins.turns_fenced (hf : Begins (· ∉ [.ident, .punct .comma, .keyword .disjKw]) f) :
    Turns n P f Fenced := by
  intro ts ks behind _ hts
  obtain ⟨k, ls, hkinds, hk⟩ := hf _ _ _ hts
  exact .append ⟨k, hkinds ▸ List.mem_cons_self, hk⟩ ks

/-- What stands for nothing leaves what is behind it. -/
theorem turns_look : Turns n P (look test) P := by
  intro ts ks behind hks hts
  obtain ⟨rfl, -⟩ := derives_look.mp hts
  exact hks

/-! ### Forms put together -/

theorem Onward.fenced (hf : Onward after n Loose f) : Onward after n Fenced f :=
  hf.imp fun _ => .inr

/-- What does not depend on what is behind it, in front of another form. -/
theorem Onward.followedBy (hf : Onward after n (fun _ => True) f) (hg : Onward after n P g) :
    Onward after n P (f ++ g) := hf.append hg turns_anything

theorem Onward.given (htest : Same after Settled test) (hf : Onward after n P f)
    (hg : Onward after n P g) : Onward after n P (given test f g) := by
  refine .ahead (Q := fun _ => True) (fun ks _ hks => ?_) (fun ks => ?_) turns_anything
  · rw [List.append_nil, htest ks hks.settled]
  · split
    · exact hf
    · exact hg

/-- A test on two tokens, in front of at least one. -/
theorem Onward.givenBefore (htest : Same after Followed test) (hf : Onward after n P f)
    (hg : Onward after n P g) (hturn : Turns n P (Form.given test f g) (· ≠ [])) :
    Onward after n P (Form.given test f g) := by
  refine .ahead (fun ks hne hks => ?_) (fun ks => ?_) hturn
  · rw [List.append_nil, htest ks ⟨hne, hks.settled⟩]
  · split
    · exact hf
    · exact hg

theorem Onward.ifAhead (htest : Same after Settled test) (hf : Onward after n P f) :
    Onward after n P (ifAhead test f) := .given htest hf stays_nothing

/-- What may be missing in front of what may not. -/
theorem Onward.ifBefore (htest : Same after Followed test) (hf : Onward after n (fun _ => True) f) :
    Onward after n (· ≠ []) (Form.ifAhead test f) :=
  .givenBefore htest (hf.imp fun _ _ => trivial) stays_nothing fun _ _ _ hks _ =>
    List.append_ne_nil_of_right_ne_nil _ hks

theorem Onward.look (htest : Same after Settled test) : Onward after n P (look test) :=
  .given htest stays_nothing stays_token

theorem Onward.whileAhead (htest : Same after Settled test) (hf : Onward after n P f)
    (hturn : ∀ {f}, Turns n P f P) : Onward after n P (whileAhead test f) :=
  (((Onward.look htest).append hf hturn).many hturn).append
    (Onward.look fun ks hks => congrArg Bool.not (htest ks hks)) hturn

theorem Onward.yields {α : Type} [DecidableEq α] {a b : α} (hf : Onward after n P f) :
    Onward after n P (yields a f b) := by
  unfold Form.yields
  split
  · exact hf
  · exact stays_token

/-- What stands between brackets. -/
theorem Onward.enclosed {opener closer : TokenKind}
    (hcloser : closer ∉ [.ident, .punct .comma, .keyword .disjKw]) (hf : Onward after n Fenced f) :
    Onward after n P (row [token [opener], f, token [closer]]) := by
  have hturn : Turns n P (token [closer]) Fenced :=
    Begins.turns_fenced (begins_token fun _ hk => List.mem_singleton.mp hk ▸ hcloser)
  exact (hf.append stays_token hturn).behindToken

/-- A token of which something is told together with what is behind it. -/
theorem stays_behindFirst {before : List TokenKind} {C : List TokenKind → Prop}
    {allowed : List TokenKind} (hf : ∀ k ∈ allowed, ∀ ts ks, P ks →
      Endings C (k :: (kinds ts ++ ks)) → Derives n f ts (ks ++ before) →
      Derives n f ts (ks ++ after)) : Stays before after n C P (token allowed ++ f) := by
  intro ts ks hks hends h
  obtain ⟨us, vs, rfl, hus, hvs⟩ := derives_append.mp h
  obtain ⟨k, text, hk, rfl⟩ := derives_token.mp hus
  exact derives_append.mpr ⟨_, vs, rfl, .token hk, hf k hk vs ks hks hends hvs⟩

/-- A choice that is told by what is in front of it too. -/
theorem Onward.chosen {ts : List Tree} {ks : List TokenKind} (hf : Onward after n (fun _ => True) f)
    (hg : Onward after n (fun _ => True) g) (hends : Endings (Over after) (kinds ts ++ ks))
    (hsame : test (kinds ts ++ ks ++ after) = test (kinds ts ++ ks))
    (hts : (Form.given test f g).Derives n ts (ks ++ [])) :
    (Form.given test f g).Derives n ts (ks ++ after) := by
  rw [derives_given, ← List.append_assoc, List.append_nil] at hts
  rw [derives_given, ← List.append_assoc, hsame]
  split at hts
  · next hyes =>
    rw [if_pos hyes]
    exact hf ts ks trivial hends hts
  · next hno =>
    rw [if_neg hno]
    exact hg ts ks trivial hends hts

section

variable (h : Opened after)

include h

theorem onward_optional {kind : TokenKind} (hkind : kind ∉ openers) :
    Onward after n P (optional kind) :=
  .ifAhead (h.same_at? hkind) stays_token

theorem onward_separated {mark : Punct} (hmark : .punct mark ∉ openers) (hf : Onward after n P f)
    (hturn : ∀ {f}, Turns n P f P) : Onward after n P (separated mark f) :=
  .whileAhead (h.same_at? hmark) hf.behindToken hturn

/-! ### Names -/

theorem onward_nameList : Onward after n P nameList := by
  have hcomma : Same after Settled commaName :=
    same_commaName.settled (by rw [commaName, h.not_at? (by decide)]; rfl)
  have hmore : Onward after n (fun _ => True) (whileAhead commaName (token [.punct .comma] ++ name)) :=
    .whileAhead hcomma stays_name.behindToken turns_anything
  exact (Onward.followedBy stays_name (hmore.imp fun _ _ => trivial)).node _

theorem onward_qualName : Onward after n P qualName := by
  intro ts ks _ hends hts
  have hsettled : Settled ks := (hends.of_append _ (List.suffix_refl _)).settled
  exact stays_qualName rfl (h.not_at? (by decide)) ts ks hsettled hends hts

theorem onward_qualNameList : Onward after n P qualNameList := by
  have hmore : Onward after n (fun _ => True) (separated .comma qualName) :=
    onward_separated h (by decide) (onward_qualName h) turns_anything
  exact (Onward.followedBy (onward_qualName h) (hmore.imp fun _ _ => trivial)).node _

/-! ### Expressions -/

theorem Stays.onward (hf : Stays [] after n (Parted after) AtEnd f) : Onward after n Loose f := by
  intro ts ks hks hends hts
  have hsettled : Settled ks := (hends.of_append _ (List.suffix_refl _)).settled
  exact hf ts ks (hks.imp id fun hfenced => ⟨hsettled, hfenced⟩) (parted_of_outside h.outside _) hts

theorem stays_anyExpr (level : Nat) : Stays [] after n (Parted after) AtEnd (exprAt level) :=
  stays_exprAt opened_nil.outside h.outside.toBeyond level

theorem onward_expr : Onward after n Loose expr := (stays_anyExpr h 0).onward h

theorem onward_block : Onward after n P block :=
  (Onward.enclosed (by decide) ((onward_expr h).fenced.many turns_fenced)).node _

theorem onward_arguments : Onward after n Fenced arguments := by
  have hmore : Onward after n Fenced (separated .comma expr) :=
    onward_separated h (by decide) (onward_expr h).fenced turns_fenced
  exact (stays_nothing.either ((onward_expr h).fenced.append hmore turns_fenced)).node _

/-- The arguments that may stand behind a name. -/
theorem onward_optionalArguments : Onward after n P optionalArguments :=
  .ifAhead (h.same_at? (by decide)) (.enclosed (by decide) (onward_arguments h))

omit h in
theorem onward_optionalMult {allowed : List TokenKind} :
    Onward after n (· ≠ []) (optionalMult allowed) :=
  .ifBefore (same_first (·.any allowed.contains)) (stays_token.node _)

theorem onward_declaration (kind : NodeKind) : Onward after n Fenced (declaration kind) := by
  have htype : Onward after n Fenced (optionalMult Operator.typeMultiplicities ++ expr) :=
    onward_optionalMult.append (onward_expr h).fenced (begins_anyExpr 0).turns_ne_nil
  exact (Onward.followedBy (onward_optional h (by decide)) (Onward.followedBy (onward_nameList h)
    htype.behindToken)).node _

/-! ### Bounds -/

theorem onward_bounds : Onward after n P bounds := by
  have hmany : Onward after n P (row [token [.punct .lbrace], many bound, token [.punct .rbrace]]) := by
    intro ts ks hks hends hts
    obtain ⟨us, vs, rfl, hus, hvs⟩ := derives_row_cons.mp hts
    obtain ⟨ws, xs, rfl, hws, hxs⟩ := derives_row_cons.mp hvs
    obtain ⟨k, text, hk, rfl⟩ := derives_token.mp hxs
    obtain rfl := List.mem_singleton.mp hk
    have hstays : Stays (.punct .rbrace :: (ks ++ [])) (.punct .rbrace :: (ks ++ after)) n
        (fun _ => True) Settled (many bound) :=
      (stays_bound ⟨_, _, rfl, .inr rfl⟩ ⟨_, _, rfl, .inr rfl⟩).many settles_bound.many.turns
    have hbounds := hstays ws [] settled_nil (fun _ _ => trivial) hws
    exact derives_row_cons.mpr ⟨us, _, rfl, derives_token.mpr (derives_token.mp hus),
      derives_row_cons.mpr ⟨ws, _, rfl, hbounds, .token hk⟩⟩
  exact (Onward.followedBy (onward_optional h (by decide))
    (Onward.given (h.same_at? (by decide)) hmany (onward_qualName h))).node _

/-! ### Scopes -/

theorem onward_typescopes : Onward after n P typescopes := by
  have hitem : ∀ {P}, Onward after n P typescope :=
    (Onward.followedBy (onward_optional h (by decide)) (onward_qualName h).behindToken).node _
  have hcomma : Same after Settled commaTypescope :=
    h.same_next (by decide) (by decide) (·.any [TokenKind.number, .keyword .exactlyKw].contains)
  have hmore : Onward after n (fun _ => True)
      (whileAhead commaTypescope (token [.punct .comma] ++ typescope)) :=
    .whileAhead hcomma hitem.behindToken turns_anything
  exact Onward.followedBy hitem (hmore.imp fun _ _ => trivial)

omit h in
theorem begins_anyTypescopes : Begins (fun _ => True) typescopes :=
  ((Begins.appendRight ((begins_anyToken _).append _) _).node _).append _

/-- Whether the number of a scope belongs to a name is told by the tokens of the scope. -/
theorem same_typescopeAhead {ks : List TokenKind} (hne : ks ≠ [])
    (hover : Over after (.keyword .forKw :: ks)) :
    typescopeAhead (ks ++ after) = typescopeAhead ks := by
  match ks, hne with
  | [], hne => exact absurd rfl hne
  | [k], _ =>
    by_cases hk : k = .number
    · subst hk
      have hident : at? .ident after = false := Bool.eq_false_iff.mpr fun hident =>
        hover.label hident ⟨_, by decide, List.suffix_refl _⟩
      have hsegment : after[0]?.any TokenKind.isNameSegment = false := h.not_segment hident
      have hthis : (after[0]? == some (.keyword .thisKw)) = false := h.not_at? (by decide)
      simp [typescopeAhead, at?, hsegment, hthis]
    · simp [typescopeAhead, at?, hk]
  | [k, k'], _ =>
    have hslash : (after[0]? == some (.punct .slash)) = false := h.not_at? (by decide)
    simp [typescopeAhead, at?, hslash]
  | _ :: _ :: _ :: _, _ => rfl

theorem onward_scope : Onward after n P scope := by
  have hmore : Onward after n (fun _ => True) (token [.number]
      ++ ifAhead (at? (.keyword .butKw)) (token [.keyword .butKw] ++ typescopes)) :=
    Onward.followedBy stays_token (.ifAhead (h.same_at? (by decide)) (onward_typescopes h).behindToken)
  have hbegins : Begins (fun _ => True) (given typescopeAhead typescopes (token [.number]
      ++ ifAhead (at? (.keyword .butKw)) (token [.keyword .butKw] ++ typescopes))) :=
    begins_anyTypescopes.given ((begins_anyToken _).append _)
  refine (stays_behindFirst fun k hk ts ks _ hends hts => ?_).node _
  obtain rfl := List.mem_singleton.mp hk
  have hne : kinds ts ++ ks ≠ [] := List.append_ne_nil_of_left_ne_nil (hbegins.kinds_ne_nil hts) ks
  exact (onward_typescopes h).chosen hmore hends.tail
    (same_typescopeAhead h hne (hends _ (List.suffix_refl _))) hts

theorem onward_scopeAndBounds : Onward after n P scopeAndBounds :=
  Onward.followedBy (.ifAhead h.same_scopeAhead (onward_scope h))
    (.ifAhead (h.same_at? (by decide)) (onward_bounds h).behindToken)

/-! ### Commands -/

/-- Whether a command has a name for its target is told by its tokens. -/
theorem same_targetAhead {k : TokenKind} (hk : k ∈ [.keyword .runKw, .keyword .checkKw])
    {ks : List TokenKind} (hover : Over after (k :: ks)) :
    qualNameAhead (ks ++ after) = qualNameAhead ks := by
  cases ks with
  | cons k' ks => exact h.same_qualNameAhead _ ⟨List.cons_ne_nil k' ks, hover.settled.tail⟩
  | nil =>
    have htaker : [k] ∈ nameTakers := by
      obtain rfl | rfl := by simpa using hk
      all_goals decide
    have hident : at? .ident after = false := Bool.eq_false_iff.mpr fun hident =>
      hover.label hident ⟨_, htaker, List.suffix_refl _⟩
    rw [List.nil_append, qualNameAhead, h.not_segment hident, h.not_at? (by decide)]
    rfl

theorem onward_cmdDecl : Onward after n P cmdDecl := by
  have hlabel : Onward after n (· ≠ []) (ifAhead (at? .ident) (name ++ token [.punct .colon])) :=
    .ifBefore same_kind (Onward.followedBy stays_name stays_token)
  have hblock : Onward after n (fun _ => True) (ifAhead (at? (.punct .lbrace)) block) :=
    .ifAhead (h.same_at? (by decide)) (onward_block h)
  have hrest : Onward after n P (token [.keyword .runKw, .keyword .checkKw]
      ++ (optionalTarget ++ scopeAndBounds)) := by
    refine stays_behindFirst fun k hk ts ks hks hends hts => ?_
    obtain ⟨us, vs, rfl, hus, hvs⟩ := derives_append.mp hts
    rw [Tree.kinds_append, List.append_assoc] at hends
    rw [← List.append_assoc] at hus
    refine derives_append.mpr ⟨us, vs, rfl, ?_, onward_scopeAndBounds h vs ks hks hends.tail.of_append hvs⟩
    rw [← List.append_assoc]
    exact (onward_qualName h).chosen hblock hends.tail
      (same_targetAhead h hk (hends _ (List.suffix_refl _))) hus
  exact (hlabel.append hrest ((begins_anyToken _).append _).turns_ne_nil).node _

theorem onward_instDecl : Onward after n P instDecl :=
  (Onward.followedBy stays_token (Onward.followedBy stays_name (Onward.followedBy (onward_bounds h)
    (.ifAhead h.same_scopeAhead (onward_scope h))))).node _

/-! ### Assertions -/

theorem onward_result {others : List TokenKind} : Onward after n P (result others) :=
  .given (h.same_at? (by decide))
    (Onward.followedBy stays_token (onward_optional h (by decide))) stays_token

theorem onward_ofAssertion (form : AssertionForm) : Onward after n P (ofAssertion form) := by
  have hnamed : ∀ {f}, Onward after n P f → Onward after n P (name ++ f) := fun hf =>
    Onward.followedBy stays_name hf
  cases form with
  | property => exact (hnamed (onward_scopeAndBounds h)).behindToken.behindToken
  | quantifiedProperty =>
    exact (hnamed (Onward.followedBy (onward_optionalArguments h)
      (onward_scopeAndBounds h))).behindToken.behindToken
  | satisfiability => exact Onward.followedBy (onward_result h) (onward_scopeAndBounds h)
  | consistency => exact (hnamed (onward_scopeAndBounds h)).behindToken.behindToken

theorem onward_assertedBlock (body : Asserted) : Onward after n Loose (assertedBlock body) := by
  have hblock : Onward after n Loose (extendedAt 0 block) :=
    (stays_extendedAt opened_nil.outside h.outside.toBeyond (stays_anyExpr h)
      (stays_block (stays_anyExpr h)) 0).onward h
  refine hblock.append (.ahead (Q := fun _ => True) (fun ks _ hks => ?_)
    (fun ks => Onward.yields stays_nothing) turns_anything) fun ts ks behind hks hts => ?_
  · rw [List.append_nil, h.same_at? (by decide) ks hks.settled]
  · have hend := derives_ahead.mp hts
    obtain ⟨-, hnothing⟩ := derives_yields.mp hend
    obtain rfl := derives_nothing.mp hnothing
    exact hks

theorem onward_assertedUniversal (body : Asserted) :
    Onward after n Loose (assertedUniversal body) := by
  have huniversal : Onward after n Loose universal :=
    Stays.onward h (((stays_quantDecls (stays_anyExpr h) opened_nil.outside).append
      (stays_binderBody (stays_anyExpr h)) noMore_binderBody).behindToken)
  have hproperty : Same after Settled propertyAhead :=
    h.same_next (by decide) (by decide)
      (·.any [TokenKind.keyword .sufficientKw, .keyword .necessaryKw].contains)
  have hother : Same after Settled fun ks => !propertyAhead ks := fun ks hks =>
    congrArg Bool.not (hproperty ks hks)
  cases body with
  | plain => exact stays_token
  | expression => exact (huniversal.node _).append (Onward.look hother) turns_look
  | quantified => exact huniversal.append (Onward.look hproperty) turns_look

theorem onward_asserted (body : Asserted) : Onward after n Loose (asserted body) :=
  .given h.same_namedBlockAhead (Onward.yields (Onward.followedBy stays_name (onward_block h))) <|
    Onward.given h.same_blockAhead (onward_assertedBlock h body) <|
      Onward.given h.same_universalAhead (onward_assertedUniversal h body)
        (Onward.yields (onward_expr h))

theorem onward_tagged (body : Asserted) (form : AssertionForm) :
    Onward after n P (tagged body form) := by
  have htag : Same after Settled (tagAhead (body == .quantified) form) :=
    h.same_next (by decide) (by decide)
      fun second => second.bind (AssertionForm.ofTag? (body == .quantified)) == some form
  have hrest : Onward after n P (given (tagAhead (body == .quantified) form)
      (token [.keyword .isKw] ++ ofAssertion form) never) :=
    .given htag (onward_ofAssertion h form).behindToken stays_token
  have hbegins : Begins (· ∉ [.ident, .punct .comma, .keyword .disjKw])
      (given (tagAhead (body == .quantified) form)
        (token [.keyword .isKw] ++ ofAssertion form) never) :=
    ((begins_token (by decide)).append _).given begins_never
  exact ((onward_asserted h body).fenced.behindToken.append hrest hbegins.turns_fenced).node _

theorem onward_admitted : Onward after n P (assertion true) :=
  (onward_tagged h _ _).either ((onward_tagged h _ _).either ((onward_tagged h _ _).either
    ((onward_tagged h _ _).either stays_token)))

theorem onward_assertDecl : Onward after n Loose (assertion false) :=
  (onward_asserted h .plain).behindToken.node _

/-! ### Predicates -/

theorem onward_optionalReceiver : Onward after n P optionalReceiver :=
  .ifAhead h.same_receiverAhead ((Onward.followedBy (onward_qualName h) stays_token).node _)

omit h in
theorem onward_commaList (hf : Onward after n Fenced f) : Onward after n Fenced (commaList f) :=
  ((hf.append stays_token turns_fenced).many turns_fenced).append (hf.either stays_nothing)
    turns_fenced

theorem onward_optionalParaDecls : Onward after n P optionalParaDecls := by
  have hdecls : Onward after n Fenced (commaList paraDecl) :=
    onward_commaList (onward_declaration h _)
  exact .ifAhead (same_atAny (h.not_atAny (by decide))) ((Onward.given (h.same_at? (by decide))
    (.enclosed (by decide) hdecls) (.enclosed (by decide) hdecls)).node _)

theorem onward_predDecl : Onward after n P predDecl :=
  (Onward.followedBy (.ifAhead (h.same_at? (by decide)) (stays_token.node _))
    (Onward.followedBy (onward_optionalReceiver h) (Onward.followedBy stays_name
      (Onward.followedBy (onward_optionalParaDecls h) (onward_block h))))).behindToken.node _

theorem onward_funDecl : Onward after n P funDecl := by
  have htype : Onward after n P (optionalMult Operator.typeMultiplicities ++ (expr ++ block)) :=
    onward_optionalMult.append ((onward_expr h).fenced.append (onward_block h)
      (beginsWith_block.mono fun _ hk => hk ▸ by decide).turns_fenced) ((begins_anyExpr 0).append _).turns_ne_nil
  exact (Onward.followedBy (onward_optionalReceiver h) (Onward.followedBy stays_name
    (Onward.followedBy (onward_optionalParaDecls h) htype.behindToken))).behindToken.node _

theorem onward_factDecl : Onward after n P factDecl := by
  have hname : Onward after n (· ≠ []) (ifAhead (at? .ident) name) := .ifBefore same_kind stays_name
  exact (hname.append (onward_block h)
    (beginsWith_block.mono fun _ _ => trivial).turns_ne_nil).behindToken.node _

/-! ### Signatures -/

theorem onward_fieldDecl : Onward after n Fenced fieldDecl := by
  have hvar : Onward after n (· ≠ []) (optional (.keyword .varKw)) := .ifBefore same_kind stays_token
  have htype : Onward after n Fenced
      (optionalMult Operator.fieldMultiplicities ++ exprAt Operator.arrowLevel) :=
    onward_optionalMult.append ((stays_anyExpr h _).onward h).fenced (begins_anyExpr _).turns_ne_nil
  exact (hvar.append (Onward.followedBy (onward_nameList h) htype.behindToken)
    ((beginsWith_nameList.mono fun _ _ => trivial).append _).turns_ne_nil).node _

theorem onward_sigExt : Onward after n P sigExt := by
  have hmore : Onward after n (fun _ => True) (separated .plus qualName) :=
    onward_separated h (by decide) (onward_qualName h) turns_anything
  exact (Onward.given (h.same_at? (by decide))
    (Onward.followedBy (onward_qualName h) (hmore.imp fun _ _ => trivial)).behindToken
    (onward_qualName h).behindToken).node _

theorem onward_sigDecl : Onward after n P sigDecl := by
  have hmodifiers : Onward after n (fun _ => True) (many sigModifier) :=
    (stays_token.either (stays_token.node _)).many turns_anything
  have hfields : Onward after n (fun _ => True) fieldList :=
    (Onward.enclosed (by decide) (onward_commaList (onward_fieldDecl h))).node _
  exact (Onward.followedBy hmodifiers (Onward.followedBy (onward_nameList h)
    (Onward.followedBy (.ifAhead (same_atAny (h.not_atAny (by decide))) (onward_sigExt h))
      (Onward.followedBy hfields (.ifAhead (h.same_at? (by decide)) (onward_block h))))).behindToken).node _

/-! ### Tests -/

omit h in
theorem onward_testBlock (hf : Onward after n Fenced f) : Onward after n P (testBlock f) :=
  (Onward.enclosed (by decide) (hf.many turns_fenced)).node _

theorem onward_testDecl : Onward after n P testDecl := by
  have hlabel : Onward after n (· ≠ []) (ifAhead labelAhead (name ++ token [.punct .colon])) :=
    .ifBefore h.same_labelAhead (Onward.followedBy stays_name stays_token)
  have htarget : Onward after n (· ≠ []) optionalTarget :=
    .givenBefore h.same_qualNameAhead (onward_qualName h)
      (.ifAhead (h.same_at? (by decide)) (onward_block h)) fun _ _ _ hks _ =>
        List.append_ne_nil_of_right_ne_nil _ hks
  have hrest : Onward after n P (scopeAndBounds ++ (token [.keyword .isKw]
      ++ result [.keyword .satKw, .keyword .unsatKw, .keyword .theoremKw])) :=
    Onward.followedBy (onward_scopeAndBounds h) (onward_result h).behindToken
  have hbegins : Begins (fun _ => True) (scopeAndBounds ++ (token [.keyword .isKw]
      ++ result [.keyword .satKw, .keyword .unsatKw, .keyword .theoremKw])) :=
    ((begins_anyToken _).append _).appendRight _
  exact (hlabel.append (htarget.append hrest hbegins.turns_ne_nil)
    (hbegins.appendRight _).turns_ne_nil).node _

theorem onward_testExpectDecl : Onward after n P testExpectDecl := by
  have hname : Onward after n (· ≠ []) (ifAhead (at? .ident) name) := .ifBefore same_kind stays_name
  have htest : Onward after n (· ≠ []) (optional (.keyword .testKw)) := .ifBefore same_kind stays_token
  have hitem : Onward after n Fenced testItem :=
    .givenBefore h.same_testAhead (onward_testDecl h) stays_token fun _ _ _ hks _ =>
      (hks.behind _).ne_nil
  have hrest : Onward after n P (ifAhead (at? .ident) name ++ testBlock testItem) :=
    hname.append (onward_testBlock hitem) (((begins_anyToken _).append _).node _).turns_ne_nil
  exact (htest.append hrest.behindToken ((begins_anyToken _).append _).turns_ne_nil).node _

theorem onward_exampleDecl : Onward after n P exampleDecl := by
  have hbody : Onward after n P (expr ++ (token [.keyword .forKw] ++ bounds)) :=
    (onward_expr h).fenced.append (onward_bounds h).behindToken
      ((begins_token (by decide)).append _).turns_fenced
  exact (Onward.followedBy stays_name hbody.behindToken).behindToken.node _

theorem onward_testSuiteDecl : Onward after n P testSuiteDecl := by
  have hitem : Onward after n Fenced suiteItem :=
    (onward_exampleDecl h).either ((onward_testExpectDecl h).either
      ((onward_admitted h).either stays_token))
  exact (Onward.followedBy stays_name
    (onward_testBlock hitem)).behindToken.behindToken.behindToken.node _

/-! ### Modules -/

theorem onward_moduleDecl : Onward after n P moduleDecl :=
  (Onward.followedBy (onward_qualName h) (.ifAhead (h.same_at? (by decide))
    (.enclosed (by decide) (onward_nameList h)))).behindToken.node _

theorem onward_importDecl : Onward after n P importDecl := by
  have hnames : Onward after n (fun _ => True) (qualName ++ ifAhead (at? (.punct .lbracket))
      (row [token [.punct .lbracket], qualNameList, token [.punct .rbracket]])) :=
    Onward.followedBy (onward_qualName h) (.ifAhead (h.same_at? (by decide))
      (.enclosed (by decide) (onward_qualNameList h)))
  have hbegins : Begins (fun _ => True) importTarget :=
    (begins_anyQualName.append _).given (begins_anyToken _)
  have htarget : Onward after n (fun _ => True) importTarget :=
    .givenBefore h.same_qualNameAhead hnames stays_token hbegins.turns_ne_nil
  have hrenamed : Onward after n P (ifAhead (at? (.keyword .asKw)) (token [.keyword .asKw] ++ name)) :=
    .ifAhead (h.same_at? (by decide)) stays_name.behindToken
  exact (Onward.followedBy htarget hrenamed).behindToken.node _

theorem onward_optionDecl : Onward after n P optionDecl := by
  have hvalue : Onward after n P optionValue :=
    .given (same_atAny (h.not_atAny (by decide))) stays_token
      (Onward.given (h.same_at? (by decide)) stays_token.behindToken (onward_qualName h))
  exact (Onward.followedBy (onward_qualName h) hvalue).behindToken.node _

omit h in
theorem begins_paragraph : Begins (fun _ => True) paragraph := by
  intro n ts behind hts
  have hahead := derives_ahead.mp hts
  split at hahead
  · next start _ => exact begins_paragraphStart start _ _ _ hahead
  · exact absurd hahead not_derives_never

theorem onward_ofParagraph (start : ParagraphStart) :
    Onward after n Loose (ofParagraph start) := by
  cases start with
  | sig => exact onward_sigDecl h
  | pred => exact onward_predDecl h
  | func => exact onward_funDecl h
  | fact => exact onward_factDecl h
  | assertion => exact (onward_admitted h).either (onward_assertDecl h)
  | command => exact onward_cmdDecl h
  | testSuite => exact onward_testSuiteDecl h
  | testExpect => exact onward_testExpectDecl h
  | exampleTest => exact onward_exampleDecl h
  | inst => exact onward_instDecl h
  | option => exact onward_optionDecl h
  | sexpr => exact stays_token.node _

theorem onward_paragraph : Onward after n Loose paragraph := by
  refine .ahead (fun ks hne hks => ?_) (fun ks => ?_) begins_paragraph.turns_ne_nil
  · have hsame : ParagraphStart.ofTokens? (ks ++ after)[0]? (ks ++ after)[1]? (ks ++ after)[2]?
        = ParagraphStart.ofTokens? ks[0]? ks[1]? ks[2]? :=
      h.same_paragraphStart ks ⟨hne, hks.settled⟩
    rw [List.append_nil, hsame]
  · split
    · next start _ => exact onward_ofParagraph h start
    · exact stays_token

end

end Form
end RelLang
