import RelLang.Proofs.Syntax.Names

/-!
# Expressions in context

What stands for an expression in front of some tokens stands for one in front of others
too, unless these can be taken for a part of it. Inside of an expression the tests on
the tokens ahead are decided by its own tokens: a test that asks for a second token is
made in front of a token that no expression ends with. At its end, only three tests are
left: for an operator, for the rest of a name and for an `else`. One test looks further:
names behind a quantifier are declared if they are names up to a colon, which can be
behind the expression.
-/

namespace RelLang

open Grammar
open Tree (kinds)

namespace Operator

/-- Whether the token extends the expression in front of it does not depend on the next one. -/
def decidedAlone (k : TokenKind) : Bool :=
  !isNegation k && !arrowMultiplicities.contains k && k != .keyword .isKw

theorem extension?_of_decidedAlone {k : TokenKind} (h : decidedAlone k = true)
    (second : Option TokenKind) : extension? k second = (infixRow? k).map .ofRow := by
  rw [decidedAlone, Bool.and_eq_true, Bool.and_eq_true, Bool.not_eq_true', Bool.not_eq_true',
    bne_iff_ne] at h
  rw [extension?, h.1.1, h.1.2, beq_false_of_ne h.2, Bool.false_and, Bool.false_and, Bool.false_and,
    if_neg Bool.false_ne_true, if_neg Bool.false_ne_true, if_neg Bool.false_ne_true]

end Operator

/-- Tokens that no expression in front of them goes on with, unless with names. -/
structure Beyond (after : List TokenKind) : Prop where
  extension : Operator.extensionOf after = none
  slash : Form.at? (.punct .slash) after = false
  otherwise : Form.at? (.keyword .elseKw) after = false

/-- Tokens that no expression in front of them takes for its own. -/
structure Outside (after : List TokenKind) : Prop extends Beyond after where
  /-- A name in front of them is not the last of the names of a declaration. -/
  names : namesEndInColon after = false

namespace Form

variable {after : List TokenKind}

/-! ### Tests on the tokens ahead -/

/-- Tells the same of tokens of a sort whether or not the others are behind them. -/
def Same {α : Type} (after : List TokenKind) (P : List TokenKind → Prop)
    (f : List TokenKind → α) : Prop :=
  ∀ ks, P ks → f (ks ++ after) = f ks

/-- A test on the current token. -/
theorem same_first {α : Type} (f : Option TokenKind → α) : Same after Followed fun ks => f ks[0]? := by
  intro ks hks
  cases ks with
  | nil => exact absurd rfl hks.1
  | cons => rfl

/-- A test on the next two tokens, which looks at the second only behind some that no expression
ends with. -/
theorem same_second {α : Type} (f : Option TokenKind → Option TokenKind → α)
    (h : ∀ k ∈ closing, ∀ second, f (some k) second = f (some k) none) :
    Same after Followed fun ks => f ks[0]? ks[1]? := by
  intro ks hks
  match ks, hks with
  | [], hks => exact absurd rfl hks.1
  | [k], hks => exact h k (hks.2 k rfl) _
  | _ :: _ :: _, _ => rfl

theorem same_kind {kind : TokenKind} : Same after Followed (at? kind) := same_first (· == some kind)

theorem same_commaName : Same after Followed commaName :=
  same_second (fun k k' => k == some (.punct .comma) && k' == some .ident) fun k hk second => by
    have hcomma : (some k == some (.punct .comma)) = false := by
      rw [beq_eq_false_iff_ne]
      rintro ⟨⟩
      revert hk
      decide
    rw [hcomma, Bool.false_and, Bool.false_and]

/-! ### Tests at the end of an expression -/

theorem same_at? {kind : TokenKind} (h : at? kind after = false) : Same after Settled (at? kind) := by
  intro ks _
  cases ks with
  | nil => exact h
  | cons => rfl

/-- A mark that no expression ends with, with a segment behind it. -/
theorem same_segmentBehind {mark : Punct} (hmark : .punct mark ∉ closing)
    (hafter : at? (.punct mark) after = false) : Same after Settled (segmentBehind mark) := by
  intro ks hks
  match ks, hks with
  | [], _ =>
    rw [List.nil_append, segmentBehind, hafter, Bool.false_and]
    rfl
  | [k], hks =>
    have hfirst : ∀ ks, at? (.punct mark) (k :: ks) = false := by
      intro ks
      refine beq_false_of_ne fun heq => ?_
      obtain rfl := Option.some.inj heq
      exact hmark (hks _ rfl)
    rw [List.cons_append, segmentBehind, segmentBehind, hfirst, hfirst]
    rfl
  | _ :: _ :: _, _ => rfl

theorem same_extensionOf (hafter : Beyond after) : Same after Settled Operator.extensionOf := by
  have hclosing : ∀ k ∈ closing, Operator.decidedAlone k = true := by decide
  intro ks hks
  match ks, hks with
  | [], _ => exact hafter.extension
  | [k], hks =>
    have hsecond := Operator.extension?_of_decidedAlone (hclosing k (hks k rfl))
    have hfirst : ∀ ks : List TokenKind, (k :: ks)[0]? = some k := fun _ => rfl
    unfold Operator.extensionOf
    rw [List.cons_append, hfirst, hfirst, Option.bind_some, Option.bind_some, hsecond, hsecond]
  | _ :: _ :: _, _ => rfl

/-- What is behind an atom of one token decides nothing. -/
theorem ofTokens?_append (hafter : Beyond after) {k : TokenKind} {ks : List TokenKind}
    (hks : Settled (k :: ks)) :
    AtomForm.ofTokens? (some k) (ks ++ after)[0]? = AtomForm.ofTokens? (some k) ks[0]? := by
  cases ks with
  | cons => rfl
  | nil =>
    have hk := hks k rfl
    have hslash : ((after[0]? : Option TokenKind) == some (.punct .slash)) = false := hafter.slash
    unfold AtomForm.ofTokens?
    split
    all_goals first
      | rfl
      | simp_all [closing]

/-! ### What forms derive in front of other tokens -/

/-- All that tokens end with is of a sort. -/
def Endings (C : List TokenKind → Prop) (ks : List TokenKind) : Prop := ∀ ls, ls <:+ ks → C ls

theorem Endings.of_append {C : List TokenKind → Prop} {ks ls : List TokenKind}
    (h : Endings C (ks ++ ls)) : Endings C ls :=
  fun _ hls => h _ (hls.trans (List.suffix_append ks ls))

theorem Endings.tail {C : List TokenKind → Prop} {k : TokenKind} {ks : List TokenKind}
    (h : Endings C (k :: ks)) : Endings C ks :=
  fun _ hls => h _ (hls.trans (List.suffix_cons k ks))

/-- If names go on behind the tokens, they are no quantifier with a name, which would be declared. -/
def Parted (after ks : List TokenKind) : Prop :=
  namesEndInColon after = true → ∀ k ∈ Operator.quantifiers, ks ≠ [k, .ident]

theorem parted_of_outside (hafter : Outside after) (ks : List TokenKind) :
    Endings (Parted after) ks := by
  intro ls _ hnames
  rw [hafter.names] at hnames
  cases hnames

/-- In front of tokens of a sort, the form derives with the ones behind them what it derives with
the others, if together with them that ends as it should. -/
def Stays (before after : List TokenKind) (n : Nat) (C P : List TokenKind → Prop) (f : Form) :
    Prop :=
  ∀ ts ks, P ks → Endings C (kinds ts ++ ks) → Derives n f ts (ks ++ before) →
    Derives n f ts (ks ++ after)

/-- Tokens of one sort with what the form stands for in front of them are tokens of another. -/
def Turns (n : Nat) (P : List TokenKind → Prop) (f : Form) (Q : List TokenKind → Prop) : Prop :=
  ∀ ts ks behind, P ks → Derives n f ts behind → Q (kinds ts ++ ks)

/-- Tells the same of tokens of a sort in front of the ones and in front of the others. -/
def Told {α : Type} (before after : List TokenKind) (P : List TokenKind → Prop)
    (f : List TokenKind → α) : Prop :=
  ∀ ks, P ks → f (ks ++ before) = f (ks ++ after)

/-- Inside of an expression there are tokens of it left, and not only names. -/
def Inside (ks : List TokenKind) : Prop := Settled ks ∧ Fenced ks

/-- At the end of an expression there may be none. -/
def AtEnd (ks : List TokenKind) : Prop := ks = [] ∨ Inside ks

/-- Behind declarations there is no comma, which could have one more behind it. -/
def NoMore (ks : List TokenKind) : Prop := Inside ks ∧ at? (.punct .comma) ks = false

theorem Inside.followed {ks : List TokenKind} (h : Inside ks) : Followed ks := ⟨h.2.ne_nil, h.1⟩

theorem AtEnd.settled {ks : List TokenKind} (h : AtEnd ks) : Settled ks := by
  obtain rfl | h := h
  · exact settled_nil
  · exact h.1

theorem atEnd_nil : AtEnd [] := .inl rfl

variable {before : List TokenKind} {n : Nat} {f g : Form} {test : List TokenKind → Bool}
  {C P Q : List TokenKind → Prop}

theorem Same.told {α : Type} {f : List TokenKind → α} (hbefore : Same before Q f)
    (hafter : Same after Q f) (h : ∀ ks, P ks → Q ks) : Told before after P f :=
  fun ks hks => (hbefore ks (h ks hks)).trans (hafter ks (h ks hks)).symm

/-- Inside, tests on the next tokens are decided. -/
theorem told_inside {α : Type} {f : List TokenKind → α} (h : ∀ {after}, Same after Followed f) :
    Told before after Inside f :=
  Same.told h h fun _ => Inside.followed

/-! ### What stands behind a part of a form -/

theorem turns_anything : Turns n P f fun _ => True := fun _ _ _ _ _ => trivial

/-- Inside of an expression there is always something of it left. -/
theorem turns_inside : Turns n Inside f Inside := fun _ _ _ hks _ =>
  ⟨(hks.followed.append _).2, hks.2.behind _⟩

theorem turns_followed : Turns n Followed f Followed := fun _ _ _ hks _ => hks.append _

theorem turns_nothing : Turns n P .nothing P := by
  intro ts ks behind hks hts
  obtain rfl := derives_nothing.mp hts
  exact hks

theorem Settles.turns (hf : Settles n f) : Turns n Settled f Settled :=
  fun _ _ _ hks hts => hks.append fun _ => hf _ _ hts

theorem Settles.turns_followed (hf : Settles n f) (hbegins : Begins (fun _ => True) f) :
    Turns n Settled f Followed :=
  fun _ ks _ hks hts => ⟨List.append_ne_nil_of_left_ne_nil (hbegins.kinds_ne_nil hts) ks,
    hf.turns _ _ _ hks hts⟩

/-- What begins with a token that ends names. -/
theorem Settles.turns_inside (hf : Settles n f)
    (hbegins : Begins (· ∉ [.ident, .punct .comma, .keyword .disjKw]) f) :
    Turns n AtEnd f Inside := by
  intro ts ks behind hks hts
  obtain ⟨k, ls, hkinds, hk⟩ := hbegins _ _ _ hts
  exact ⟨hf.turns ts ks behind hks.settled hts, .append ⟨k, hkinds ▸ List.mem_cons_self, hk⟩ ks⟩

theorem Turns.noMore (hf : Turns n AtEnd f Inside) (hbegins : Begins (· ≠ .punct .comma) f) :
    Turns n AtEnd f NoMore := by
  intro ts ks behind hks hts
  obtain ⟨k, ls, hkinds, hk⟩ := hbegins _ _ _ hts
  refine ⟨hf ts ks behind hks hts, ?_⟩
  rw [hkinds]
  exact beq_false_of_ne fun heq => hk (Option.some.inj heq)

/-- What may be missing at the end. -/
theorem Turns.atEnd (hf : Turns n AtEnd f Inside) : Turns n AtEnd (ifAhead test f) AtEnd := by
  intro ts ks behind hks hts
  rw [ifAhead, derives_given] at hts
  split at hts
  · exact .inr (hf ts ks behind hks hts)
  · exact turns_nothing ts ks behind hks hts

/-! ### Forms put together -/

theorem Stays.imp (hf : Stays before after n C Q f) (h : ∀ ks, P ks → Q ks) :
    Stays before after n C P f :=
  fun ts ks hks => hf ts ks (h ks hks)

theorem Stays.inside (hf : Stays before after n C AtEnd f) : Stays before after n C Inside f :=
  hf.imp fun _ => .inr

theorem stays_nothing : Stays before after n C P .nothing := fun ts ks _ _ h => by
  rwa [derives_nothing] at h ⊢

theorem stays_token {allowed : List TokenKind} : Stays before after n C P (.token allowed) :=
  fun ts ks _ _ h => by rwa [derives_token] at h ⊢

theorem Stays.append (hf : Stays before after n C Q f) (hg : Stays before after n C P g)
    (hturn : Turns n P g Q) : Stays before after n C P (f ++ g) := by
  intro ts ks hks hends h
  obtain ⟨us, vs, rfl, hus, hvs⟩ := derives_append.mp h
  rw [Tree.kinds_append, List.append_assoc] at hends
  refine derives_append.mpr ⟨us, vs, rfl, ?_, hg _ _ hks hends.of_append hvs⟩
  rw [← List.append_assoc] at hus ⊢
  exact hf _ _ (hturn _ _ _ hks hvs) hends hus

theorem Stays.behindToken {allowed : List TokenKind} (hg : Stays before after n C P g) :
    Stays before after n C P (token allowed ++ g) :=
  stays_token.append hg turns_anything

theorem Stays.either (hf : Stays before after n C P f) (hg : Stays before after n C P g) :
    Stays before after n C P (.either f g) := by
  intro ts ks hks hends h
  rw [derives_either] at h ⊢
  exact h.imp (hf _ _ hks hends) (hg _ _ hks hends)

theorem Stays.node (hf : Stays before after n C P f) (kind : NodeKind) :
    Stays before after n C P (.node kind f) := by
  intro ts ks hks hends h
  obtain ⟨us, rfl, hus⟩ := derives_node.mp h
  rw [Tree.kinds_node_cons, Tree.kinds_nil, List.append_nil] at hends
  exact .node (hf _ _ hks hends hus)

theorem Stays.many (hf : Stays before after n C P f) (hturn : Turns n P (.many f) P) :
    Stays before after n C P (.many f) := by
  intro ts ks hks hends h
  generalize hform : Form.many f = form at h
  generalize hbehind : ks ++ before = behind at h
  induction h with
  | stop => exact hform ▸ .stop
  | @round _ _ us vs _ first rest _ ih =>
    obtain rfl := Form.many.inj hform
    subst hbehind
    rw [Tree.kinds_append, List.append_assoc] at hends
    rw [← List.append_assoc] at first
    refine .round ?_ (ih hf hturn hends.of_append rfl rfl)
    rw [← List.append_assoc]
    exact hf _ _ (hturn _ _ _ hks rest) hends first
  | _ => cases hform

/-- What the tokens ahead ask for, if they ask for the same. -/
theorem Stays.ahead {choice : List TokenKind → Form}
    (htold : ∀ ks, Q ks → C ks → choice (ks ++ before) = choice (ks ++ after))
    (hchoice : ∀ ks, Stays before after n C P (choice ks)) (hturn : Turns n P (.ahead choice) Q) :
    Stays before after n C P (.ahead choice) := by
  intro ts ks hks hends h
  have hsame := htold _ (hturn _ _ _ hks h) (hends _ (List.suffix_refl _))
  rw [derives_ahead, ← List.append_assoc] at h ⊢
  exact hchoice _ _ _ hks hends (hsame ▸ h)

theorem Stays.given (htest : Told before after Q test) (hf : Stays before after n C P f)
    (hg : Stays before after n C P g) (hturn : Turns n P (given test f g) Q) :
    Stays before after n C P (given test f g) := by
  refine .ahead (fun ks hks _ => by rw [htest ks hks]) (fun ks => ?_) hturn
  split
  · exact hf
  · exact hg

/-- A test that has to pass. -/
theorem Stays.givenElseNever (htest : ∀ ks, Q ks → test (ks ++ before) = true →
      test (ks ++ after) = true) (hf : Stays before after n C P f) (hturn : Turns n P f Q) :
    Stays before after n C P (Form.given test f never) := by
  intro ts ks hks hends h
  rw [derives_given] at h ⊢
  split at h
  · next hyes =>
    rw [← List.append_assoc] at hyes
    rw [← List.append_assoc, htest _ (hturn _ _ _ hks h) hyes, if_pos rfl]
    exact hf _ _ hks hends h
  · exact absurd h not_derives_never

theorem stays_look (htest : ∀ ks, P ks → test (ks ++ before) = true → test (ks ++ after) = true) :
    Stays before after n C P (look test) :=
  .givenElseNever htest stays_nothing turns_nothing

theorem stays_look_of_told (htest : Told before after P test) :
    Stays before after n C P (look test) :=
  stays_look fun ks hks h => by rwa [htest ks hks] at h

theorem Stays.rounds (htest : Told before after P test) (hf : Stays before after n C P f)
    (hfirst : Turns n P f P) (hmany : Turns n P (.many (look test ++ f)) P)
    (hlook : Turns n P (look fun ks => !test ks) P) :
    Stays before after n C P (whileAhead test f) :=
  (((stays_look_of_told htest).append hf hfirst).many hmany).append
    (stays_look_of_told fun ks hks => congrArg Bool.not (htest ks hks)) hlook

/-- Items of which each ends as expressions do. -/
theorem Stays.whileSettled (htest : Told before after Settled test)
    (hf : Stays before after n C Settled f) (hsettles : Settles n f) :
    Stays before after n C Settled (whileAhead test f) :=
  .rounds htest hf hsettles.turns (settles_look.append hsettles).many.turns settles_look.turns

/-! ### Inside of an expression -/

theorem Stays.chain (hf : Stays before after n C Inside f) (hg : Stays before after n C Inside g) :
    Stays before after n C Inside (f ++ g) := hf.append hg turns_inside

theorem Stays.ifInside (htest : Told before after Inside test)
    (hf : Stays before after n C Inside f) : Stays before after n C Inside (ifAhead test f) :=
  .given htest hf stays_nothing turns_inside

theorem Stays.whileInside (htest : Told before after Inside test)
    (hf : Stays before after n C Inside f) : Stays before after n C Inside (whileAhead test f) :=
  .rounds htest hf turns_inside turns_inside turns_inside

theorem Stays.separated {mark : Punct} (hf : Stays before after n C Inside f) :
    Stays before after n C Inside (separated mark f) :=
  .whileInside (told_inside same_kind) hf.behindToken

theorem stays_optional {kind : TokenKind} : Stays before after n C Inside (optional kind) :=
  .ifInside (told_inside same_kind) stays_token

/-! ### At the end of an expression -/

/-- The last form of an expression, with others in front of it. -/
theorem Stays.last {forms : List Form} (hforms : ∀ f ∈ forms, Stays before after n C Inside f)
    (hg : Stays before after n C AtEnd g) (hturn : Turns n AtEnd g Inside) :
    Stays before after n C AtEnd (row (forms ++ [g])) ∧ Turns n AtEnd (row (forms ++ [g])) Inside := by
  induction forms with
  | nil => exact ⟨hg, hturn⟩
  | cons f forms ih =>
    obtain ⟨hf, hrest⟩ := List.forall_mem_cons.mp hforms
    have hboth : ∀ g, Stays before after n C AtEnd g ∧ Turns n AtEnd g Inside →
        Stays before after n C AtEnd (f ++ g) ∧ Turns n AtEnd (f ++ g) Inside := by
      rintro g ⟨hg, hturn⟩
      refine ⟨hf.append hg hturn, fun ts ks behind hks hts => ?_⟩
      obtain ⟨us, vs, rfl, hus, hvs⟩ := derives_append.mp hts
      rw [Tree.kinds_append, List.append_assoc]
      exact turns_inside us _ _ (hturn vs ks behind hks hvs) hus
    cases forms with
    | nil => exact hboth _ ⟨hg, hturn⟩
    | cons => exact hboth _ (ih hrest)

/-- A closing bracket with its inside in front. -/
theorem Stays.closed {kind : TokenKind} (hkind : kind ∈ closing)
    (hfence : kind ∉ [.ident, .punct .comma, .keyword .disjKw]) {forms : List Form}
    (hforms : ∀ f ∈ forms, Stays before after n C Inside f) :
    Stays before after n C AtEnd (row (forms ++ [token [kind]])) :=
  (Stays.last hforms stays_token (Settles.turns_inside
    (settles_token fun _ hk => List.mem_singleton.mp hk ▸ hkind)
    (begins_token fun _ hk => List.mem_singleton.mp hk ▸ hfence))).1

/-! ### Names -/

theorem stays_name : Stays before after n C P name := stays_token.node _

theorem stays_nameList : Stays before after n C Inside nameList :=
  (stays_name.chain (.whileInside (told_inside same_commaName) stays_name.behindToken)).node _

theorem stays_qualName (hbefore : at? (.punct .slash) before = false)
    (hafter : at? (.punct .slash) after = false) : Stays before after n C Settled qualName := by
  have hsegment : Settles n (token [.punct .slash] ++ token segmentKinds) :=
    (settles_token (by decide)).behind (begins_anyToken _) _
  have hslash : Told before after Settled (segmentBehind .slash) :=
    Same.told (same_segmentBehind (by decide) hbefore) (same_segmentBehind (by decide) hafter)
      fun _ => id
  have hmore : Stays before after n C Settled (whileAhead (segmentBehind .slash)
      (token [.punct .slash] ++ token segmentKinds)) :=
    .whileSettled hslash stays_token.behindToken hsegment
  have hthis : Stays before after n C Followed
      (ifAhead (at? (.keyword .thisKw)) (token [.keyword .thisKw] ++ token [.punct .slash])) :=
    .given (Same.told same_kind same_kind fun _ => id) stays_token.behindToken stays_nothing turns_followed
  exact (hthis.append hmore.behindToken (((settles_token (by decide)).append
    (.whileAhead hsegment)).turns_followed ((begins_anyToken _).append _))).node _

/-- `Mult?` in front of an expression. -/
theorem stays_optionalMult {allowed : List TokenKind} :
    Stays before after n C Followed (optionalMult allowed) := by
  have hfirst : ∀ {after}, Same after Followed (atAny allowed) := same_first (·.any allowed.contains)
  exact .given (Same.told hfirst hfirst fun _ => id) (stays_token.node _) stays_nothing
    turns_followed

/-! ### Declared names -/

section

variable (hbefore : Outside before)

include hbefore

/-- Behind a token that no expression ends with, a declaration that is seen is seen whatever is behind
the expression. -/
theorem declarationBehind_of_followed {k : TokenKind} {ks : List TokenKind} (hk : k ∉ closing)
    (hks : Followed (k :: ks)) (h : declarationBehind (k :: ks ++ before) = true) :
    declarationBehind (k :: ks ++ after) = true :=
  declarationAhead_of_followed hbefore.names ⟨hks.2.tail_ne_nil hk, hks.2.tail⟩ h

theorem commaDeclaration_of_followed {ks : List TokenKind} (hks : Followed ks)
    (h : commaDeclaration (ks ++ before) = true) : commaDeclaration (ks ++ after) = true := by
  obtain ⟨k, ks, rfl⟩ := List.exists_cons_of_ne_nil hks.1
  obtain ⟨hcomma, hnames⟩ := Bool.and_eq_true_iff.mp h
  obtain rfl : k = .punct .comma := Option.some.inj (eq_of_beq hcomma)
  exact Bool.and_eq_true_iff.mpr
    ⟨rfl, declarationBehind_of_followed hbefore (by decide) hks hnames⟩

theorem quantifierAhead_of_followed {ks : List TokenKind} (hks : Followed ks)
    (h : quantifierAhead (ks ++ before) = true) : quantifierAhead (ks ++ after) = true := by
  have hclosing : ∀ k ∈ Operator.quantifiers, k ∉ closing := by decide
  obtain ⟨k, ks, rfl⟩ := List.exists_cons_of_ne_nil hks.1
  obtain ⟨hquantifier, hnames⟩ := Bool.and_eq_true_iff.mp h
  exact Bool.and_eq_true_iff.mpr ⟨hquantifier, declarationBehind_of_followed hbefore
    (hclosing k (List.contains_iff_mem.mp hquantifier)) hks hnames⟩

theorem binderAhead_of_followed {ks : List TokenKind} (hks : Followed ks)
    (h : binderAhead (ks ++ before) = true) : binderAhead (ks ++ after) = true := by
  refine Bool.or_eq_true_iff.mpr ((Bool.or_eq_true_iff.mp h).imp (fun honly => ?_)
    (quantifierAhead_of_followed hbefore hks))
  obtain ⟨k, ks, rfl⟩ := List.exists_cons_of_ne_nil hks.1
  exact honly

end

/-- A declaration that is seen only with the other tokens behind an expression has a name for the
expression, which is the last of its tokens. -/
theorem declared_of_after {m level : Nat} {us : List Tree} {ks behind : List TokenKind}
    (hus : Derives m (exprAt level) us behind) (hks : AtEnd ks)
    (hafter : declarationAhead (kinds us ++ (ks ++ after)) = true)
    (hbefore : declarationAhead (kinds us ++ (ks ++ before)) = false) :
    kinds us = [.ident] ∧ ks = [] ∧ namesEndInColon after = true := by
  obtain ⟨hident, hnames⟩ := kinds_of_declarationAhead hus hafter
  obtain rfl | hinside := hks
  · exact ⟨hident, rfl, hnames⟩
  · rw [namesEndInColon_of_fenced hinside.2 after before] at hnames
    rw [hident] at hbefore
    exact absurd (hnames.symm.trans hbefore) Bool.noConfusion

/-- A quantifier does not declare an expression behind it because of the other tokens. -/
theorem quantifierAhead_of_operand {m level : Nat} {us : List Tree} {k : TokenKind}
    {ks behind : List TokenKind} (hus : Derives m (exprAt level) us behind) (hks : AtEnd ks)
    (hparted : Endings (Parted after) (k :: (kinds us ++ ks)))
    (h : quantifierAhead (k :: (kinds us ++ (ks ++ after))) = true) :
    quantifierAhead (k :: (kinds us ++ (ks ++ before))) = true := by
  obtain ⟨hquantifier, hnames⟩ := Bool.and_eq_true_iff.mp h
  refine Bool.and_eq_true_iff.mpr ⟨hquantifier, ?_⟩
  refine Decidable.byContradiction fun hno => ?_
  obtain ⟨hident, rfl, hcolon⟩ := declared_of_after hus hks hnames (Bool.eq_false_iff.mpr hno)
  rw [hident, List.append_nil] at hparted
  exact hparted _ (List.suffix_refl _) hcolon k (List.contains_iff_mem.mp hquantifier) rfl

/-! ### Binders and atoms -/

theorem turns_binderBody : Turns n AtEnd binderBody Inside :=
  (settles_binderBody settles_exprAt).turns_inside (begins_binderBody.mono (by decide))

theorem noMore_binderBody : Turns n AtEnd binderBody NoMore :=
  turns_binderBody.noMore (begins_binderBody.mono (by decide))

/-- What is behind the declarations of a comprehension. -/
theorem begins_comprehensionEnd : Begins (· ∈ [.punct .bar, .punct .lbrace, .punct .rbrace])
    (given (at? (.punct .bar)) (token [.punct .bar] ++ expr) (ifAhead (at? (.punct .lbrace)) block)
      ++ token [.punct .rbrace]) := by
  intro n ts behind hts
  rw [derives_given_append] at hts
  split at hts
  · exact (((begins_token (by decide)).append _).append _) _ _ _ hts
  rw [ifAhead, derives_given_append] at hts
  split at hts
  · exact ((beginsWith_block.mono fun k hk => by simp [hk]).append _) _ _ _ hts
  · exact begins_token (by decide) _ _ _ (derives_nothing_append.mp hts)

theorem kinds_block {ts : List Tree} {behind : List TokenKind} (h : Derives n block ts behind) :
    ∃ ks, kinds ts = .punct .lbrace :: (ks ++ [.punct .rbrace]) := by
  obtain ⟨us, rfl, hus⟩ := derives_node.mp h
  obtain ⟨front, us, rfl, hfront, hus⟩ := derives_row_cons.mp hus
  obtain ⟨inner, back, rfl, -, hback⟩ := derives_row_cons.mp hus
  obtain ⟨k, text, hk, rfl⟩ := derives_token.mp hfront
  obtain ⟨k', text', hk', rfl⟩ := derives_token.mp hback
  obtain rfl := List.mem_singleton.mp hk
  obtain rfl := List.mem_singleton.mp hk'
  exact ⟨kinds inner, by simp⟩

section

variable (hexpr : ∀ level, Stays before after n (Parted after) AtEnd (exprAt level))

include hexpr

theorem stays_block : Stays before after n (Parted after) AtEnd block := by
  have hitems : Stays before after n (Parted after) Inside (many expr) := (hexpr 0).inside.many turns_inside
  exact (Stays.closed (by decide) (by decide) (List.forall_mem_cons.mpr
    ⟨stays_token, List.forall_mem_singleton.mpr hitems⟩)).node _

theorem stays_quantDecl : Stays before after n (Parted after) Inside quantDecl :=
  (stays_optional.chain (stays_nameList.chain ((stays_optionalMult.imp
    fun _ => Inside.followed).chain (hexpr 0).inside).behindToken)).node _

theorem stays_quantDecls (hbefore : Outside before) : Stays before after n (Parted after) NoMore quantDecls := by
  have hdecl : Stays before after n (Parted after) Inside quantDecl := stays_quantDecl hexpr
  have hround : Stays before after n (Parted after) Inside
      (look commaDeclaration ++ (token [.punct .comma] ++ quantDecl)) :=
    (stays_look fun ks hks => commaDeclaration_of_followed hbefore hks.followed).chain
      hdecl.behindToken
  have hlook : Stays before after n (Parted after) NoMore (look fun ks => !commaDeclaration ks) := by
    refine stays_look_of_told fun ks hks => ?_
    have hno : ∀ xs, commaDeclaration (ks ++ xs) = false := fun xs => by
      rw [commaDeclaration, same_kind ks hks.1.followed, hks.2, Bool.false_and]
    rw [hno, hno]
  have hmore : Stays before after n (Parted after) NoMore
      (whileAhead commaDeclaration (token [.punct .comma] ++ quantDecl)) :=
    (hround.many turns_inside).append hlook fun ts ks behind hks hts =>
      turns_inside ts ks behind hks.1 hts
  exact hdecl.append hmore fun ts ks behind hks hts => turns_inside ts ks behind hks.1 hts

theorem stays_binderBody : Stays before after n (Parted after) AtEnd binderBody :=
  .given (told_inside same_kind) (hexpr 0).behindToken (stays_block hexpr) turns_binderBody

theorem stays_quantified (hbefore : Outside before) (k : TokenKind) :
    Stays before after n (Parted after) AtEnd (quantified k) := by
  have hdecls : Stays before after n (Parted after) NoMore (given declarationAhead quantDecls never) :=
    .givenElseNever (fun ks => declarationAhead_of_followed hbefore.names)
      (stays_quantDecls hexpr hbefore) fun ts ks behind hks hts =>
        (turns_inside ts ks behind hks.1 hts).followed
  exact (hdecls.append (stays_binderBody hexpr) noMore_binderBody).behindToken.node _

theorem stays_bindings (kind : NodeKind) (k : TokenKind) :
    Stays before after n (Parted after) AtEnd (bindings kind k) := by
  have hletDecl : Stays before after n (Parted after) Inside letDecl :=
    (stays_name.chain (hexpr 0).inside.behindToken).node _
  have hmore : Stays before after n (Parted after) Inside
      (whileAhead commaName (token [.punct .comma] ++ letDecl)) :=
    .whileInside (told_inside same_commaName) hletDecl.behindToken
  exact (Stays.last (List.forall_mem_cons.mpr ⟨stays_token, List.forall_mem_cons.mpr
    ⟨hletDecl, List.forall_mem_singleton.mpr hmore⟩⟩) (stays_binderBody hexpr) turns_binderBody).1.node _

theorem stays_binder (hbefore : Outside before) (k : TokenKind) :
    Stays before after n (Parted after) AtEnd (binder k) := by
  unfold binder
  split
  · exact stays_bindings hexpr _ _
  · exact stays_bindings hexpr _ _
  · exact stays_quantified hexpr hbefore k

theorem stays_comprehension (hbefore : Outside before) :
    Stays before after n (Parted after) AtEnd comprehension := by
  have hbody : Stays before after n (Parted after) Inside (given (at? (.punct .bar)) (token [.punct .bar] ++ expr)
      (ifAhead (at? (.punct .lbrace)) block)) :=
    .given (told_inside same_kind) (hexpr 0).inside.behindToken
      (.ifInside (told_inside same_kind) (stays_block hexpr).inside) turns_inside
  have hbrace : Turns n AtEnd (token [.punct .rbrace]) Inside :=
    (settles_token (by decide)).turns_inside (begins_token (by decide))
  obtain ⟨hend, hturn⟩ := Stays.last (List.forall_mem_singleton.mpr hbody) stays_token hbrace
  have hnoMore := hturn.noMore (begins_comprehensionEnd.mono (by decide))
  exact ((stays_quantDecls hexpr hbefore).append hend hnoMore).behindToken.node _

/-- Whether a brace opens a comprehension or a block is told by what is behind the brace. -/
theorem stays_braced (hbefore : Outside before) :
    Stays before after n (Parted after) AtEnd (given declarationBehind comprehension block) := by
  intro ts ks hks hparted h
  rw [derives_given] at h ⊢
  split at h
  · next hyes =>
    have hsettles : Settles n comprehension :=
      ((settles_token (by decide)).last (begins_anyToken _) [_, _, _]).node _
    have hfollowed := hsettles.turns_followed (beginsWith_comprehension.mono fun _ _ => trivial) ts ks _
      hks.settled h
    obtain ⟨k, ls, hkinds, rfl⟩ := beginsWith_comprehension _ _ _ h
    rw [← List.append_assoc, hkinds, List.cons_append] at hyes ⊢
    rw [hkinds, List.cons_append] at hfollowed
    rw [declarationBehind_of_followed hbefore (by decide) hfollowed hyes, if_pos rfl]
    exact stays_comprehension hexpr hbefore _ _ hks hparted h
  · next hno =>
    obtain ⟨ls, hkinds⟩ := kinds_block h
    have hfenced : Fenced (ls ++ [.punct .rbrace]) := .behind ⟨_, List.mem_cons_self, by decide⟩ _
    rw [hkinds, List.cons_append, declarationBehind, List.tail_cons,
      declarationAhead_of_fenced hfenced _ (ks ++ after)] at hno
    rw [hkinds, List.cons_append, declarationBehind, List.tail_cons, if_neg hno]
    exact stays_block hexpr _ _ hks hparted h

theorem stays_ofAtom (hbefore : Outside before) (hafter : Beyond after) (k : TokenKind)
    (form : AtomForm) : Stays before after n (Parted after) AtEnd (ofAtom k form) := by
  cases form with
  | oneToken kind => exact stays_token.node _
  | negativeNumber => exact stays_token.behindToken.node _
  | nameRef =>
    exact ((stays_qualName hbefore.slash hafter.slash).imp fun _ => AtEnd.settled).node _
  | atName => exact stays_name.behindToken.node _
  | parenthesized =>
    exact (Stays.closed (by decide) (by decide) (List.forall_mem_cons.mpr
      ⟨stays_token, List.forall_mem_singleton.mpr (hexpr 0).inside⟩)).node _
  | braced => exact stays_braced hexpr hbefore

omit hexpr in
/-- What is read as an operator or an atom in front of the ones is no binder in front of the others. -/
theorem not_binderAhead_of_operandHead {ts : List Tree} {ks : List TokenKind}
    (h : Derives n operandHead ts (ks ++ before)) (hks : AtEnd ks)
    (hparted : Endings (Parted after) (kinds ts ++ ks))
    (hno : ¬ binderAhead (kinds ts ++ (ks ++ before)) = true) :
    ¬ binderAhead (kinds ts ++ (ks ++ after)) = true := by
  intro hyes
  obtain ⟨k, ls, hkinds, -⟩ := begins_operandHead _ _ _ h
  have hahead := derives_ahead.mp h
  rw [hkinds, List.cons_append] at hahead hparted hno hyes
  have hquantifier : quantifierAhead (k :: (ls ++ (ks ++ after))) = true :=
    (Bool.or_eq_true_iff.mp hyes).resolve_left fun honly => hno (Bool.or_eq_true_iff.mpr (.inl honly))
  have hmem : k ∈ Operator.quantifiers :=
    List.contains_iff_mem.mp (Bool.and_eq_true_iff.mp hquantifier).1
  simp only [List.getElem?_cons_zero, if_neg hno] at hahead
  split at hahead
  · obtain ⟨parts, rfl, hparts⟩ := derives_node.mp hahead
    obtain ⟨first, us, rfl, hfirst, hus⟩ := derives_append.mp hparts
    obtain ⟨k', text, hk', rfl⟩ := derives_token.mp hfirst
    obtain rfl : kinds us = ls := by simpa using (List.cons.inj (by simpa using hkinds)).2
    exact hno (Bool.or_eq_true_iff.mpr
      (.inr (quantifierAhead_of_operand hus hks hparted hquantifier)))
  · have hnone : ∀ k ∈ Operator.quantifiers, ∀ second, AtomForm.ofTokens? (some k) second = none := by
      intro k hk second
      simp only [Operator.quantifiers, List.mem_cons, List.not_mem_nil, or_false] at hk
      rcases hk with rfl | rfl | rfl | rfl | rfl | rfl | rfl
      all_goals rfl
    rw [hnone k hmem] at hahead
    exact not_derives_never hahead

theorem stays_operandHead (hbefore : Outside before) (hafter : Beyond after) :
    Stays before after n (Parted after) AtEnd operandHead := by
  intro ts ks hks hparted h
  have hfollowed : Followed (kinds ts ++ ks) :=
    (settles_operandHead settles_exprAt).turns_followed (begins_operandHead.mono fun _ _ => trivial)
      ts ks _ hks.settled h
  have hyes : binderAhead (kinds ts ++ ks ++ before) = true →
      binderAhead (kinds ts ++ ks ++ after) = true := binderAhead_of_followed hbefore hfollowed
  have hno := not_binderAhead_of_operandHead h hks hparted
  rw [List.append_assoc, List.append_assoc] at hyes
  obtain ⟨k, ls, hkinds, -⟩ := begins_operandHead _ _ _ h
  have hatom : ∀ {after}, Beyond after → AtomForm.ofTokens? (some k) (ls ++ (ks ++ after))[0]?
      = AtomForm.ofTokens? (some k) (ls ++ ks)[0]? := by
    intro after hafter
    rw [← List.append_assoc]
    exact ofTokens?_append hafter (by simpa [hkinds] using hfollowed.2)
  have hahead := derives_ahead.mp h
  refine derives_ahead.mpr ?_
  simp only [hkinds, List.cons_append] at hyes hno
  rw [hkinds, List.cons_append] at hahead ⊢
  simp only [List.getElem?_cons_zero, List.getElem?_cons_succ, hatom hafter,
    hatom hbefore.toBeyond] at hahead ⊢
  split at hahead
  · next hbinder =>
    rw [if_pos (hyes hbinder)]
    exact stays_binder hexpr hbefore k _ _ hks hparted hahead
  next hbinder =>
  rw [if_neg (hno hbinder)]
  split at hahead
  · exact (hexpr _).behindToken.node _ _ _ hks hparted hahead
  split at hahead
  · next form hform =>
    exact stays_ofAtom hexpr hbefore hafter k form _ _ hks hparted hahead
  · exact absurd hahead not_derives_never

end

/-! ### Operators -/

theorem beginsWith_tail (k : TokenKind) (e : Operator.Extension) : BeginsWith k (tail k e) := by
  have hinfix : BeginsWith k (infixOperator e.node k) := by
    unfold infixOperator compareOperator arrowOperator
    split
    · split
      · exact ((beginsWith_token k).append _).node _
      · exact (beginsWith_token k).node _
    · split
      · exact (((beginsWith_token k).append _).append _).node _
      · exact ((beginsWith_token k).append _).node _
    · exact beginsWith_token k
  unfold tail
  split
  · exact hinfix.append _
  · split
    · exact (beginsWith_token k).append _
    · exact beginsWith_token k

/-- A part of names extends no expression. -/
theorem not_mem_names_of_extension {k : TokenKind} {second : Option TokenKind}
    {e : Operator.Extension} (h : Operator.extension? k second = some e) :
    k ∉ [.ident, .punct .comma, .keyword .disjKw] := by
  simp only [List.mem_cons, List.not_mem_nil, or_false]
  rintro (rfl | rfl | rfl)
  all_goals
    rw [Operator.extension?_of_decidedAlone rfl] at h
    cases h

theorem turns_tail {k : TokenKind} {second : Option TokenKind} {e : Operator.Extension}
    (h : Operator.extension? k second = some e) : Turns n AtEnd (tail k e) Inside :=
  (settles_tail settles_exprAt h).turns_inside
    ((beginsWith_tail k e).mono fun _ hk => hk ▸ not_mem_names_of_extension h)

/-- The tokens begin with an expression that has others behind it. -/
def OperandAhead (n : Nat) (ks : List TokenKind) : Prop :=
  ∃ level us ls behind, ks = kinds us ++ ls ∧ Derives n (exprAt level) us behind ∧ AtEnd ls

theorem turns_operand {level : Nat} (hg : Turns n AtEnd g AtEnd) :
    Turns n AtEnd (exprAt level ++ g) (OperandAhead n) := by
  intro ts ks behind hks hts
  obtain ⟨us, vs, rfl, hus, hvs⟩ := derives_append.mp hts
  exact ⟨level, us, kinds vs ++ ks, _, by rw [Tree.kinds_append, List.append_assoc], hus,
    hg vs ks behind hks hvs⟩

theorem OperandAhead.followed {ks : List TokenKind} (h : OperandAhead n ks) : Followed ks := by
  obtain ⟨level, us, ls, behind, rfl, hus, hls⟩ := h
  exact (settles_exprAt level).turns_followed (begins_anyExpr level) us ls behind hls.settled hus

theorem arrowMultAhead_iff {k second : TokenKind} {ks : List TokenKind} :
    arrowMultAhead (k :: second :: ks) = true ↔ k ∈ Operator.arrowMultiplicities ∧
      ¬ quantifierAhead (k :: second :: ks) = true ∧ Operator.startsExpr second = true := by
  simp [arrowMultAhead, atAny, and_assoc]

/-- A multiplicity that belongs to the arrow only in front of the ones declares the operand with the
others. -/
theorem arrowMultAhead_of_followed {ks : List TokenKind} (hbefore : Outside before)
    (hks : Followed ks) (h : arrowMultAhead (ks ++ after) = true) :
    arrowMultAhead (ks ++ before) = true := by
  have hclosing : ∀ k ∈ closing, k ∉ Operator.arrowMultiplicities := by decide
  have hquantifier : quantifierAhead (ks ++ before) = true → quantifierAhead (ks ++ after) = true :=
    quantifierAhead_of_followed hbefore hks
  match ks, hks with
  | [], hks => exact absurd rfl hks.1
  | [k], hks =>
    rw [arrowMultAhead, Bool.and_eq_true, Bool.and_eq_true] at h
    exact absurd (List.contains_iff_mem.mp h.1.1) (hclosing k (hks.2 k rfl))
  | k :: second :: ks, _ =>
    obtain ⟨hmult, hno, hsecond⟩ := arrowMultAhead_iff.mp h
    exact arrowMultAhead_iff.mpr ⟨hmult, fun hyes => hno (hquantifier hyes), hsecond⟩

/-- The multiplicity behind an arrow, in front of the operand. -/
theorem stays_arrowMult (hbefore : Outside before) : Stays before after n (Parted after) (OperandAhead n)
    (ifAhead arrowMultAhead (token Operator.arrowMultiplicities)) := by
  intro ts ks hks hparted h
  have hfollowed := hks.followed
  obtain ⟨level, us, ls, behind, rfl, hus, hls⟩ := hks
  rw [ifAhead, derives_given] at h ⊢
  split at h
  · next hyes =>
    obtain ⟨k, text, hk, rfl⟩ := derives_token.mp h
    have hquantifier : quantifierAhead (k :: (kinds us ++ (ls ++ after))) = true →
        quantifierAhead (k :: (kinds us ++ (ls ++ before))) = true :=
      quantifierAhead_of_operand hus hls hparted
    obtain ⟨first, rest, hkinds, hfirst⟩ := begins_exprAt level _ _ _ hus
    have hafter : arrowMultAhead (kinds [.token k text] ++ (kinds us ++ ls ++ after)) = true := by
      rw [Tree.kinds_token_cons, Tree.kinds_nil, List.append_assoc, hkinds] at hyes ⊢
      rw [hkinds] at hquantifier
      obtain ⟨-, hno, -⟩ := arrowMultAhead_iff.mp hyes
      exact arrowMultAhead_iff.mpr ⟨hk, fun h => hno (hquantifier h), hfirst⟩
    rw [if_pos hafter]
    exact .token hk
  · next hno =>
    obtain rfl := derives_nothing.mp h
    have hbehind : arrowMultAhead (kinds us ++ ls ++ after) = true →
        arrowMultAhead (kinds us ++ ls ++ before) = true :=
      arrowMultAhead_of_followed hbefore hfollowed
    rw [Tree.kinds_nil, List.nil_append] at hno ⊢
    rw [if_neg fun hyes => hno (hbehind hyes)]
    exact .nothing

theorem stays_infixOperator (hbefore : Outside before) (kind : NodeKind) (k : TokenKind) :
    Stays before after n (Parted after) (OperandAhead n) (infixOperator kind k) := by
  have hmult : Stays before after n (Parted after) (OperandAhead n)
      (ifAhead arrowMultAhead (token Operator.arrowMultiplicities)) := stays_arrowMult hbefore
  unfold infixOperator compareOperator arrowOperator
  split
  · split
    · exact stays_token.behindToken.node _
    · exact stays_token.node _
  · split
    · exact (stays_token.behindToken.append hmult turns_anything).node _
    · exact hmult.behindToken.node _
  · exact stays_token

section

variable (hbefore : Outside before) (hafter : Beyond after)
  (hexpr : ∀ level, Stays before after n (Parted after) AtEnd (exprAt level))

include hbefore hafter hexpr

theorem stays_tail (k : TokenKind) (e : Operator.Extension) :
    Stays before after n (Parted after) AtEnd (tail k e) := by
  have htoken : Turns n AtEnd (token [.keyword .elseKw] ++ exprAt Operator.impliesLevel) Inside :=
    ((settles_exprAt _).behind (begins_anyExpr _) _).turns_inside
      ((begins_token (by decide)).append _)
  have helse : Told before after AtEnd (at? (.keyword .elseKw)) :=
    Same.told (same_at? hbefore.otherwise) (same_at? hafter.otherwise) fun _ => AtEnd.settled
  have hotherwise : Stays before after n (Parted after) AtEnd otherwise :=
    .given helse (hexpr _).behindToken stays_nothing htoken.atEnd
  have harguments : Stays before after n (Parted after) Inside arguments :=
    (stays_nothing.either ((hexpr 0).inside.chain (.separated (hexpr 0).inside))).node _
  have hbinary : ∀ level f, Stays before after n (Parted after) AtEnd f → Turns n AtEnd f AtEnd →
      Stays before after n (Parted after) AtEnd (row [infixOperator e.node k, exprAt level, f]) := by
    intro level f hf hturn
    exact (stays_infixOperator hbefore _ _).append ((hexpr level).append hf hturn)
      (turns_operand hturn)
  unfold tail
  split
  · split
    · exact hbinary _ _ hotherwise htoken.atEnd
    · exact hbinary _ _ stays_nothing turns_nothing
  · split
    · exact Stays.closed (by decide) (by decide) (List.forall_mem_cons.mpr
        ⟨stays_token, List.forall_mem_singleton.mpr harguments⟩)
    · exact stays_token

/-- An expression that is extended by operators, behind a beginning of any form. -/
theorem stays_extended {head : Form} (hhead : Stays before after n (Parted after) AtEnd head) (level : Nat) :
    Stays before after n (Parted after) AtEnd (.extended level head) := by
  intro ts ks hks hparted h
  generalize hform : Form.extended level head = form at h
  generalize hbehind : ks ++ before = behind at h
  induction h generalizing ks with
  | head h =>
    obtain ⟨rfl, rfl⟩ := Form.extended.inj hform
    subst hbehind
    exact .head (hhead _ _ hks hparted h)
  | @extend _ _ _ ts us k e _ _ asked tight back ihFront _ =>
    obtain ⟨rfl, rfl⟩ := Form.extended.inj hform
    subst hbehind
    rw [Tree.kinds_node_cons, Tree.kinds_nil, List.append_nil, Tree.kinds_append,
      List.append_assoc] at hparted
    obtain ⟨-, he⟩ := Operator.extensionOf_eq_some.mp asked
    have hinside := turns_tail he us ks _ hks back
    refine .extend ?_ ?_ tight (stays_tail hbefore hafter hexpr _ _ _ _ hks hparted.of_append back)
    · rw [← List.append_assoc]
      exact ihFront hexpr hhead (kinds us ++ ks) (.inr hinside) hparted rfl (by rw [List.append_assoc])
    · rw [← List.append_assoc, same_extensionOf hafter _ hinside.1]
      rw [← List.append_assoc, same_extensionOf hbefore.toBeyond _ hinside.1] at asked
      exact asked
  | _ => cases hform

theorem stays_extendedAt {head : Form} (hhead : Stays before after n (Parted after) AtEnd head) (level : Nat) :
    Stays before after n (Parted after) AtEnd (extendedAt level head) := by
  have hextension : Told before after AtEnd Operator.extensionOf :=
    Same.told (same_extensionOf hbefore.toBeyond) (same_extensionOf hafter) fun _ => AtEnd.settled
  exact (stays_extended hbefore hafter hexpr hhead level).append
    (stays_look_of_told fun ks hks => by
      rw [Operator.stopsAt, hextension ks hks, Operator.stopsAt]) fun ts ks behind hks hts => by
        obtain ⟨rfl, -⟩ := derives_look.mp hts
        exact hks

end

/-- What stands for an expression in front of some tokens stands for one in front of others, if no
expression goes on with either of them. -/
theorem stays_exprAt (hbefore : Outside before) (hafter : Beyond after) (level : Nat) :
    Stays before after n (Parted after) AtEnd (exprAt level) := by
  induction n generalizing level with
  | zero =>
    intro ts ks _ _ h
    obtain ⟨m, hm, -⟩ := derives_part.mp h
    cases hm
  | succ n ih =>
    intro ts ks hks hparted h
    obtain ⟨m, hm, h⟩ := derives_part.mp h
    obtain rfl := Nat.succ.inj hm
    exact .part (stays_extendedAt hbefore hafter ih (stays_operandHead ih hbefore hafter) level _ _
      hks hparted h)

/-- What stands for an expression at the end of a text stands for one in front of tokens that no
expression goes on with. -/
theorem Derives.outside {level : Nat} {ts : List Tree} (h : Derives n (exprAt level) ts [])
    (hafter : Outside after) : Derives n (exprAt level) ts after :=
  stays_exprAt ⟨⟨rfl, rfl, rfl⟩, rfl⟩ hafter.toBeyond level ts [] atEnd_nil (parted_of_outside hafter _) h

end Form
end RelLang
