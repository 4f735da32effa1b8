import RelLang.Proofs.Syntax.Apart
import RelLang.Proofs.Syntax.Prefix
import RelLang.Proofs.Syntax.Whole

/-!
# Expressions and bounds with `this/` in front of names

What a form derives it derives with `this/` in front of names too, in its parts and in
what is behind it. Most tests tell the same then. Where one looks for declared names, the
form that is derived behind it shows that it still holds; only whether a multiplicity
belongs to the arrow in front of it is told by names of an expression that has not been
derived yet, so that expressions have to keep what is told of their beginning.
-/

namespace RelLang

open Grammar
open Tree (kinds PrefixedAll)

namespace Form

variable {n : Nat} {f g : Form} {ts us : List Tree} {ks ks' : List TokenKind}
  {test : List TokenKind → Bool}

/-! ### What shows a test -/

/-- A token, and behind it what shows that the rest passes. -/
theorem Shows.behind {kind : TokenKind} (h : Shows test f) :
    Shows (fun ks => at? kind ks && test ks.tail) (token [kind] ++ f) := by
  intro n ts behind hts
  obtain ⟨us, vs, rfl, hus, hvs⟩ := derives_append.mp hts
  obtain ⟨k, text, hk, rfl⟩ := derives_token.mp hus
  obtain rfl := List.mem_singleton.mp hk
  simpa [at?] using h _ _ _ hvs

/-- A declared name is one token. -/
theorem Shows.behindName (h : Shows test f) :
    Shows (fun ks => at? .ident ks && test ks.tail) (name ++ f) := by
  intro n ts behind hts
  obtain ⟨us, vs, rfl, hus, hvs⟩ := derives_append.mp hts
  obtain ⟨name, rfl, hname⟩ := derives_node.mp hus
  have hident : Shows (fun ks => at? .ident ks && test ks.tail) (token [.ident] ++ f) := h.behind
  have hboth := hident n (name ++ vs) behind (derives_append.mpr ⟨name, vs, rfl, hname, hvs⟩)
  simpa using hboth

theorem shows_name : Shows (at? .ident) name := beginsWith_name.at?

theorem shows_commaName (h : Shows (at? .ident) f) : Shows commaName (token [.punct .comma] ++ f) :=
  h.behind.mono fun ks hks => by simpa [commaName, at?] using hks

theorem shows_labelAhead : Shows labelAhead (name ++ token [.punct .colon]) :=
  (beginsWith_token _).at?.behindName.mono fun ks hks => by simpa [labelAhead, at?] using hks

theorem shows_namedBlockAhead : Shows namedBlockAhead (name ++ block) :=
  beginsWith_block.at?.behindName.mono fun ks hks => by simpa [namedBlockAhead, at?] using hks

theorem shows_segmentBehind (mark : Punct) :
    Shows (segmentBehind mark) (token [.punct mark] ++ token segmentKinds) := by
  have hsegment : Shows (fun ks => ks[0]?.any TokenKind.isNameSegment) (token segmentKinds) :=
    Begins.any (begins_token fun k hk => (isNameSegment_iff k).mpr hk)
  exact hsegment.behind.mono fun ks hks => by simpa [segmentBehind, at?] using hks

/-- Names in front of a colon. -/
theorem namesAhead_of_nameList (h : Derives n nameList ts ks)
    (hcolon : at? (.punct .colon) ks = true) : namesAhead (kinds ts ++ ks) = true := by
  obtain ⟨ts, rfl, hts⟩ := derives_node.mp h
  obtain ⟨first, more, rfl, hfirst, hmore⟩ := derives_append.mp hts
  obtain ⟨first, rfl, hident⟩ := derives_node.mp hfirst
  obtain ⟨k, text, hk, rfl⟩ := derives_token.mp hident
  obtain rfl := List.mem_singleton.mp hk
  obtain ⟨hmore, -⟩ := derives_append_look.mp hmore
  have hnames : namesEndInColon (kinds more ++ ks) = true := by
    refine hmore.many_induction (p := fun ts => namesEndInColon (kinds ts ++ ks) = true) ?_ ?_
    · obtain ⟨k, ks, rfl⟩ := List.exists_cons_of_ne_nil (l := ks) (by rintro rfl; cases hcolon)
      obtain rfl := Option.some.inj (eq_of_beq hcolon)
      rfl
    · intro us vs hus hvs
      obtain ⟨-, hus⟩ := derives_look_append.mp hus
      obtain ⟨comma, name, rfl, hcomma, hname⟩ := derives_append.mp hus
      obtain ⟨k, text, hk, rfl⟩ := derives_token.mp hcomma
      obtain rfl := List.mem_singleton.mp hk
      obtain ⟨name, rfl, hident⟩ := derives_node.mp hname
      obtain ⟨k, text, hk, rfl⟩ := derives_token.mp hident
      obtain rfl := List.mem_singleton.mp hk
      simpa [namesEndInColon] using hvs
  simpa [namesAhead] using hnames

theorem shows_declaration (kind : NodeKind) : Shows declarationAhead (declaration kind) := by
  refine Shows.node ?_ kind
  intro n ts behind hts
  obtain ⟨disj, rest, rfl, hdisj, hrest⟩ := derives_row_cons.mp hts
  obtain ⟨names, rest, rfl, hnames, hrest⟩ := derives_row_cons.mp hrest
  have hcolon := ((beginsWith_token (.punct .colon)).append _).at? _ _ _ hrest
  have hahead := namesAhead_of_nameList hnames hcolon
  obtain ⟨k, ls, hk, rfl⟩ := beginsWith_nameList _ _ _ hnames
  rw [optional, ifAhead, derives_given] at hdisj
  split at hdisj
  · obtain ⟨k, text, hk, rfl⟩ := derives_token.mp hdisj
    obtain rfl := List.mem_singleton.mp hk
    simpa [declarationAhead] using hahead
  · obtain rfl := derives_nothing.mp hdisj
    rw [List.nil_append, Tree.kinds_append, List.append_assoc]
    rw [hk] at hahead ⊢
    exact (declarationAhead_of_ne_disj (by decide) _).trans hahead

theorem shows_quantDecls : Shows declarationAhead quantDecls := (shows_declaration _).append _

theorem shows_commaDeclaration (kind : NodeKind) :
    Shows commaDeclaration (token [.punct .comma] ++ declaration kind) :=
  (shows_declaration kind).behind

/-- A brace with a declaration behind it. -/
def comprehensionAhead (ks : List TokenKind) : Bool :=
  at? (.punct .lbrace) ks && declarationBehind ks

theorem shows_comprehensionAhead : Shows comprehensionAhead comprehension :=
  (shows_quantDecls.append _).behind.node _

theorem shows_comprehension : Shows declarationBehind comprehension :=
  shows_comprehensionAhead.mono fun _ hks => (Bool.and_eq_true_iff.mp hks).2

theorem shows_universal : Shows universalAhead universal := (shows_quantDecls.append _).behind

theorem shows_quantifierAhead {k : TokenKind} (hk : Operator.quantifiers.contains k = true) :
    Shows quantifierAhead (quantified k) := by
  have hboth : Shows (fun ks => at? k ks && declarationAhead ks.tail) (quantified k) :=
    ((shows_given_never.mono fun ks hks => hks).append _ |>.behind).node _
  refine hboth.mono fun ks hks => ?_
  obtain ⟨hfirst, hahead⟩ := Bool.and_eq_true_iff.mp hks
  refine Bool.and_eq_true_iff.mpr ⟨?_, hahead⟩
  rw [atAny, eq_of_beq hfirst]
  exact hk

/-! ### Forms that are derived with the prefixes too -/

/-- Whatever is derived is derived with prefixes in it and behind it too. -/
def Carries (n : Nat) (f : Form) : Prop :=
  ∀ ts us ks ks', PrefixedAll none ts us → Prefixed ks ks' → Derives n f ts ks → Derives n f us ks'

theorem carries_nothing : Carries n .nothing := by
  intro ts us ks ks' hus _ h
  obtain rfl := derives_nothing.mp h
  cases hus
  exact .nothing

theorem carries_token {allowed : List TokenKind} : Carries n (.token allowed) := by
  intro ts us ks ks' hus _ h
  obtain ⟨k, text, hk, rfl⟩ := derives_token.mp h
  obtain rfl := hus.token
  exact .token hk

theorem Carries.append (hf : Carries n f) (hg : Carries n g) : Carries n (f ++ g) := by
  intro ts us ks ks' hus hks h
  obtain ⟨xs, ys, rfl, hxs, hys⟩ := derives_append.mp h
  obtain ⟨us₁, us₂, rfl, hus₁, hus₂⟩ := hus.split
  refine derives_append.mpr ⟨us₁, us₂, rfl, ?_, hg _ _ _ _ hus₂.forget hks hys⟩
  exact hf _ _ _ _ hus₁ ((prefixed_kindsAll hus₂).append hks) hxs

theorem Carries.assoc {h : Form} (hfgh : Carries n (f ++ g ++ h)) : Carries n (f ++ (g ++ h)) :=
  fun ts us ks ks' hus hks hts =>
    derives_append_assoc.mp (hfgh ts us ks ks' hus hks (derives_append_assoc.mpr hts))

theorem Carries.either (hf : Carries n f) (hg : Carries n g) : Carries n (.either f g) := by
  intro ts us ks ks' hus hks h
  rw [derives_either] at h ⊢
  exact h.imp (hf _ _ _ _ hus hks) (hg _ _ _ _ hus hks)

theorem carries_anyOf {forms : List Form} (h : ∀ f ∈ forms, Carries n f) :
    Carries n (anyOf forms) := by
  intro ts us ks ks' hus hks hts
  rw [derives_anyOf] at hts ⊢
  obtain ⟨f, hf, hts⟩ := hts
  exact ⟨f, hf, h f hf _ _ _ _ hus hks hts⟩

theorem Carries.node (hf : Carries n f) (kind : NodeKind) (hkind : kind ≠ .qualName) :
    Carries n (.node kind f) := by
  intro ts us ks ks' hus hks h
  obtain ⟨parts, rfl, hparts⟩ := derives_node.mp h
  obtain ⟨parts', rfl, hparts'⟩ := hus.node hkind
  exact .node (hf _ _ _ _ hparts' hks hparts)

theorem Carries.many (hf : Carries n f) : Carries n (.many f) := by
  intro ts us ks ks' hus hks h
  generalize hform : Form.many f = form at h
  induction h generalizing us with
  | stop =>
    cases hus
    exact hform ▸ .stop
  | round first rest _ ih =>
    obtain rfl := Form.many.inj hform
    obtain ⟨us₁, us₂, rfl, hus₁, hus₂⟩ := hus.split
    refine .round ?_ (ih hf us₂ hus₂.forget hks rfl)
    exact hf _ _ _ _ hus₁ ((prefixed_kindsAll hus₂).append hks) first
  | _ => cases hform

/-- What is asked for by tests that tell the same. -/
theorem Carries.ahead {choice : List TokenKind → Form} (h : ∀ ks, Carries n (choice ks))
    (heven : Even choice) : Carries n (.ahead choice) := by
  intro ts us ks ks' hus hks hts
  rw [derives_ahead] at hts ⊢
  rw [heven _ _ ((prefixed_kindsAll hus).append hks)]
  exact h _ _ _ _ _ hus hks hts

theorem Carries.given (heven : Even test) (hf : Carries n f) (hg : Carries n g) :
    Carries n (given test f g) := by
  refine Carries.ahead (fun ks => ?_) fun ks ks' hks => by rw [heven ks ks' hks]
  split
  · exact hf
  · exact hg

/-- What is asked for by a test that the form itself shows. -/
theorem Carries.givenShown (hreflected : Reflected test) (hshows : Shows test f) (hf : Carries n f)
    (hg : Carries n g) : Carries n (Form.given test f g) := by
  intro ts us ks ks' hus hks h
  rw [derives_given] at h ⊢
  split at h
  · have hus := hf _ _ _ _ hus hks h
    rwa [if_pos (hshows _ _ _ hus)]
  · next hno =>
    have hno' : ¬ test (kinds us ++ ks') = true := fun hyes =>
      hno (hreflected _ _ ((prefixed_kindsAll hus).append hks) hyes)
    rw [if_neg hno']
    exact hg _ _ _ _ hus hks h

theorem Carries.ifAhead (heven : Even test) (hf : Carries n f) : Carries n (ifAhead test f) :=
  .given heven hf carries_nothing

theorem Carries.ifShown (hreflected : Reflected test) (hshows : Shows test f) (hf : Carries n f) :
    Carries n (Form.ifAhead test f) :=
  .givenShown hreflected hshows hf carries_nothing

theorem carries_look (heven : Even test) : Carries n (look test) :=
  .given heven carries_nothing carries_token

theorem carries_lookNot (hreflected : Reflected test) : Carries n (look fun ks => !test ks) := by
  intro ts us ks ks' hus hks h
  obtain ⟨rfl, hno⟩ := derives_look.mp h
  cases hus
  refine derives_look.mpr ⟨rfl, ?_⟩
  rw [Bool.not_eq_true', Bool.eq_false_iff] at hno ⊢
  exact fun hyes => hno (hreflected _ _ hks hyes)

/-- Rounds that show the test in front of them. -/
theorem Carries.whileShown (hreflected : Reflected test) (hshows : Shows test f) (hf : Carries n f) :
    Carries n (whileAhead test f) := by
  have hround : Carries n (look test ++ f) := by
    intro ts us ks ks' hus hks h
    obtain ⟨-, hts⟩ := derives_look_append.mp h
    have hus := hf _ _ _ _ hus hks hts
    exact derives_look_append.mpr ⟨hshows _ _ _ hus, hus⟩
  exact hround.many.append (carries_lookNot hreflected)

/-- Rounds in front of which the test tells the same. -/
theorem Carries.whileAhead (heven : Even test) (hf : Carries n f) : Carries n (whileAhead test f) :=
  ((carries_look heven).append hf).many.append (carries_lookNot heven.reflected)

theorem Carries.separated {mark : Punct} (hf : Carries n f) : Carries n (separated mark f) :=
  .whileAhead (even_punct mark) (carries_token.append hf)

theorem carries_optional {kind : TokenKind} (h : kind ∉ .keyword .thisKw :: segmentKinds) :
    Carries n (optional kind) := by
  rw [List.mem_cons, not_or] at h
  exact .ifAhead (even_at? h.2 h.1) carries_token

theorem Carries.yields {α : Type} [DecidableEq α] {a b : α} (hf : Carries n f) :
    Carries n (yields a f b) := by
  unfold Form.yields
  split
  · exact hf
  · exact carries_token

/-! ### Names -/

theorem carries_name : Carries n name := carries_token.node _ nofun

theorem carries_nameList : Carries n nameList :=
  (carries_name.append (.whileShown reflected_commaName (shows_commaName shows_name)
    (carries_token.append carries_name))).node _ nofun

theorem carries_optionalMult {allowed : List TokenKind}
    (h : ∀ k ∈ .keyword .thisKw :: segmentKinds, allowed.contains k = false) :
    Carries n (optionalMult allowed) :=
  .ifAhead (even_atAny h) (carries_token.node _ nofun)

/-- A qualified name without `this/`. -/
def segments : Form := token segmentKinds ++
  whileAhead (segmentBehind .slash) (token [.punct .slash] ++ token segmentKinds)

theorem carries_segments : Carries n segments :=
  carries_token.append (.whileShown (reflected_segmentBehind _) (shows_segmentBehind _)
    (carries_token.append carries_token))

theorem begins_segments : Begins (· ∈ segmentKinds) segments :=
  (begins_token fun _ hk => hk).append _

/-- The prefix is there or is not. -/
theorem derives_qualName : Derives n qualName [.node .qualName ts] ks ↔ Derives n segments ts ks ∨
    ∃ a b us, ts = .token (.keyword .thisKw) a :: .token (.punct .slash) b :: us ∧
      Derives n segments us ks := by
  have hno : ∀ {us}, Derives n segments us ks → at? (.keyword .thisKw) (kinds us ++ ks) = false :=
    (begins_segments.mono fun k hk heq => absurd (heq ▸ hk) (by decide)).not_at?
  constructor
  · intro h
    obtain ⟨parts, heq, hparts⟩ := derives_node.mp h
    obtain rfl := (Tree.node.inj (List.cons.inj heq).1).2
    obtain ⟨this, us, rfl, hthis, hus⟩ := derives_row_cons.mp hparts
    rw [ifAhead, derives_given] at hthis
    split at hthis
    · obtain ⟨first, second, rfl, hfirst, hsecond⟩ := derives_append.mp hthis
      obtain ⟨k, a, hk, rfl⟩ := derives_token.mp hfirst
      obtain rfl := List.mem_singleton.mp hk
      obtain ⟨k, b, hk, rfl⟩ := derives_token.mp hsecond
      obtain rfl := List.mem_singleton.mp hk
      exact .inr ⟨a, b, us, rfl, hus⟩
    · obtain rfl := derives_nothing.mp hthis
      exact .inl hus
  · rintro (hus | ⟨a, b, us, rfl, hus⟩)
    · refine .node (derives_row_cons.mpr ⟨[], ts, rfl, ?_, hus⟩)
      rw [ifAhead, derives_given, Tree.kinds_nil, List.nil_append, hno hus]
      exact .nothing
    · refine .node (derives_row_cons.mpr ⟨[_, _], us, rfl, ?_, hus⟩)
      rw [ifAhead, derives_given]
      exact Derives.one.one_append

theorem carries_qualName : Carries n qualName := by
  intro ts us ks ks' hus hks h
  obtain ⟨parts, rfl, -⟩ := derives_node.mp h
  obtain ⟨u, rfl, hu, -⟩ := hus.single
  have hparts := derives_qualName.mp h
  cases hu with
  | node hin =>
    obtain hsegments | ⟨a, b, rest, rfl, hsegments⟩ := hparts
    · exact derives_qualName.mpr (.inl (carries_segments _ _ _ _ hin hks hsegments))
    · obtain ⟨_, rfl, hslash⟩ := hin.behindToken
      obtain ⟨us, rfl, hrest⟩ := hslash.behindToken
      exact derives_qualName.mpr (.inr ⟨a, b, us, rfl,
        carries_segments _ _ _ _ hrest.forget hks hsegments⟩)
  | name hk =>
    obtain hsegments | ⟨a, b, rest, heq, -⟩ := hparts
    · exact derives_qualName.mpr (.inr ⟨"this", "/", _, rfl,
        carries_segments _ _ _ _ (.refl none _) hks hsegments⟩)
    · obtain ⟨rfl, -⟩ := Tree.token.inj (List.cons.inj heq).1
      exact absurd hk (by decide)

theorem carries_qualNameList : Carries n qualNameList :=
  (carries_qualName.append (.separated carries_qualName)).node _ nofun

/-! ### Bounds -/

/-- What is behind the first token of a value tells the same. -/
theorem valueBehind_cons {first second : TokenKind} (hks : Prefixed ks ks') :
    valueBehind (first :: second :: ks') = valueBehind (first :: second :: ks) := by
  have hthird : Even fun ks => tupleCommaAhead (some first) (some second) ks[0]? :=
    even_first _ (forall_segmentKinds.mpr ⟨rfl, rfl, rfl⟩)
  exact congrArg (at? (.punct .arrow) (first :: second :: ks) || ·) (hthird ks ks' hks)

theorem reflected_valueBehind : Reflected valueBehind := by
  intro ks ks' hks htest
  cases hks with
  | nil => exact htest
  | this => cases htest
  | @cons first _ _ hks =>
    cases hks with
    | nil => exact htest
    | cons hks => rwa [valueBehind_cons hks] at htest
    | this =>
      -- behind a comma, no value begins with `this`
      have hcomma : ∀ ls, tupleCommaAhead (some first) (some (.keyword .thisKw)) ls = false :=
        fun _ => Bool.and_false _
      rw [valueBehind] at htest ⊢
      simp only [List.getElem?_cons_zero, List.getElem?_cons_succ, hcomma, Bool.or_false] at htest
      exact Bool.or_eq_true_iff.mpr (.inl htest)

section Parts

variable (hpart : ∀ symbol, Carries n (.part symbol))

include hpart

theorem carries_ofBoundValue (form : BoundValueForm) : Carries n (ofBoundValue form) := by
  cases form with
  | oneToken => exact carries_token
  | negativeNumber => exact carries_token.append carries_token
  | group => exact hpart _
  | name => exact carries_qualName

theorem carries_boundValue : Carries n boundValue := by
  refine Carries.node (.ahead (fun ks => ?_) fun ks ks' hks => ?_) _ nofun
  · split
    · exact carries_ofBoundValue hpart _
    · exact carries_token
  · have heven : BoundValueForm.ofTokens? ks'[0]? ks'[1]? = BoundValueForm.ofTokens? ks[0]? ks[1]? :=
      even_boundValueForm ks ks' hks
    rw [heven]

omit hpart in
theorem begins_plainValue {form : BoundValueForm} (h : form ≠ .name) :
    Begins (startsPlainValue · = true) (ofBoundValue form) := by
  cases form with
  | oneToken => exact begins_token (by decide)
  | negativeNumber => exact (begins_token (by decide)).append _
  | group =>
    intro n ts behind hts
    obtain ⟨m, -, hgroup⟩ := derives_part.mp hts
    exact ((begins_token (by decide)).append _) _ _ _ hgroup
  | name => exact absurd rfl h

/-- Behind a comma, a value that is a name is left as it is; other values begin with the token that
the comma is told by. -/
theorem carries_tupleItem :
    Carries n (look valueBehind ++ (token [.punct .arrow, .punct .comma] ++ boundValue)) := by
  intro ts us ks ks' hus hks h
  obtain ⟨htest, hts⟩ := derives_look_append.mp h
  obtain ⟨mark, value, rfl, hmark, hvalue⟩ := derives_append.mp hts
  obtain ⟨k, text, hk, rfl⟩ := derives_token.mp hmark
  obtain ⟨value', rfl, hvalue'⟩ := PrefixedAll.behindToken hus
  have hcarried := carries_boundValue hpart _ _ _ _ hvalue'.forget hks hvalue
  refine derives_look_append.mpr ⟨?_, derives_append.mpr ⟨[_], value', rfl, .token hk, hcarried⟩⟩
  obtain rfl | rfl : k = .punct .arrow ∨ k = .punct .comma := by simpa using hk
  · rfl
  obtain ⟨parts, form, rfl, -, hparts⟩ := derives_boundValue.mp hvalue
  by_cases hname : form = .name
  · subst hname
    obtain ⟨name, rfl, -⟩ := derives_node.mp hparts
    obtain ⟨u, rfl, -, hleft⟩ := hvalue'.single
    obtain rfl := hleft rfl
    obtain ⟨k, ls, hkinds, -⟩ := begins_boundValue _ _ _ hvalue
    rw [List.singleton_append, Tree.kinds_token_cons, hkinds] at htest
    rw [Tree.kinds_token_cons, hkinds]
    exact (valueBehind_cons ((Prefixed.refl ls).append hks)).trans htest
  · obtain ⟨parts', rfl, hparts'⟩ := hvalue'.node nofun
    obtain ⟨k, ls, hkinds, hplain⟩ := begins_plainValue hname _ _ _
      (carries_ofBoundValue hpart form _ _ _ _ hparts' hks hparts)
    rw [Tree.kinds_token_cons, Tree.kinds_node_cons, hkinds]
    simp [valueBehind, tupleCommaAhead, hplain]

theorem carries_boundUnion : Carries n boundUnion := by
  have hproduct : Carries n boundProduct :=
    ((carries_boundValue hpart).append
      ((carries_tupleItem hpart).many.append (carries_lookNot reflected_valueBehind))).node _ nofun
  exact (hproduct.append (.separated hproduct)).node _ nofun

theorem carries_boundGroup : Carries n boundGroup :=
  carries_token.append ((carries_boundUnion hpart).append carries_token)

omit hpart

/-- Behind a dot a name is left as it is. -/
theorem carries_joined :
    Carries n (look (segmentBehind .dot) ++ (token [.punct .dot] ++ qualName)) := by
  intro ts us ks ks' hus hks h
  obtain ⟨htest, hts⟩ := derives_look_append.mp h
  obtain ⟨mark, joined, rfl, hmark, hjoined⟩ := derives_append.mp hts
  obtain ⟨k, text, hk, rfl⟩ := derives_token.mp hmark
  obtain rfl := List.mem_singleton.mp hk
  obtain ⟨joined', rfl, hjoined'⟩ := PrefixedAll.behindToken hus
  obtain ⟨parts, rfl, -⟩ := derives_node.mp hjoined
  obtain ⟨u, rfl, -, hleft⟩ := hjoined'.single
  obtain rfl := hleft rfl
  have hcarried := carries_qualName _ _ _ _ (.refl none _) hks hjoined
  refine derives_look_append.mpr ⟨?_, hcarried.one_append⟩
  obtain ⟨k, ls, hkinds, -⟩ := begins_qualName _ _ _ hjoined
  rw [List.singleton_append, Tree.kinds_token_cons, hkinds] at htest
  rw [Tree.kinds_token_cons, hkinds]
  exact htest

theorem carries_boundPath (simple whole : Bool) : Carries n (boundPath simple whole) := by
  have hmany : Carries n (whileAhead (segmentBehind .dot) (token [.punct .dot] ++ qualName)) :=
    carries_joined.many.append (carries_lookNot (reflected_segmentBehind _))
  cases simple <;> cases whole
  · exact hmany
  · exact carries_token
  · exact (carries_joined.append hmany).assoc
  · exact carries_lookNot (reflected_segmentBehind _)

theorem carries_boundLhs (simple : Bool) : Carries n (boundLhs simple) :=
  (Carries.given (even_punct _)
    (carries_token.append (carries_qualName.append (carries_boundPath false simple)))
    (carries_qualName.append (carries_boundPath true simple))).node _ nofun

include hpart

theorem carries_bound : Carries n bound := by
  have hrhs : Carries n boundRhs :=
    (carries_token.node .compareOp nofun).append (carries_boundUnion hpart)
  have hno : Even (at? (.keyword .noKw)) := even_at? (by decide) nofun
  refine (Carries.given hno ?_ ?_).node _ nofun
  · exact carries_token.append ((carries_boundLhs true).either (carries_boundLhs false))
  · exact ((carries_boundLhs true).append (.ifAhead (even_atAny (by decide)) hrhs)).either
      ((carries_boundLhs false).append hrhs)

theorem carries_bounds : Carries n bounds :=
  ((carries_optional (by decide)).append (.given (even_punct _)
    (carries_token.append ((carries_bound hpart).many.append carries_token)) carries_qualName)).node _
      nofun

/-! ### Blocks and binders -/

theorem carries_expr (level : Nat) : Carries n (exprAt level) := hpart _

theorem carries_block : Carries n block :=
  (carries_token.append ((carries_expr hpart 0).many.append carries_token)).node _ nofun

theorem carries_declaration (kind : NodeKind) (hkind : kind ≠ .qualName) :
    Carries n (declaration kind) :=
  ((carries_optional (by decide)).append (carries_nameList.append (carries_token.append
    ((carries_optionalMult (by decide)).append (carries_expr hpart 0))))).node _ hkind

theorem carries_quantDecls : Carries n quantDecls := by
  have hdecl : Carries n quantDecl := carries_declaration hpart _ nofun
  exact hdecl.append (.whileShown reflected_commaDeclaration (shows_commaDeclaration _)
    (carries_token.append hdecl))

theorem carries_arguments : Carries n arguments :=
  (carries_nothing.either ((carries_expr hpart 0).append (.separated (carries_expr hpart 0)))).node _
    nofun

theorem carries_binderBody : Carries n binderBody :=
  .given (even_punct _) (carries_token.append (carries_expr hpart 0)) (carries_block hpart)

theorem carries_binder (k : TokenKind) : Carries n (binder k) := by
  have hletDecl : Carries n letDecl :=
    (carries_name.append (carries_token.append (carries_expr hpart 0))).node _ nofun
  have hshows : Shows (at? .ident) letDecl := (shows_name.append _).node _
  have hbindings : ∀ kind, kind ≠ .qualName → Carries n (bindings kind k) := fun kind hkind =>
    (carries_token.append (hletDecl.append (.append (.whileShown reflected_commaName
      (shows_commaName hshows) (carries_token.append hletDecl)) (carries_binderBody hpart)))).node
        _ hkind
  have hdecls : Carries n (given declarationAhead quantDecls never) :=
    .givenShown reflected_declarationAhead shows_quantDecls (carries_quantDecls hpart) carries_token
  unfold binder
  split
  · exact hbindings _ nofun
  · exact hbindings _ nofun
  · exact (carries_token.append (hdecls.append (carries_binderBody hpart))).node _ nofun

/-! ### Expressions -/

theorem carries_comprehension : Carries n comprehension :=
  (carries_token.append ((carries_quantDecls hpart).append (.append
    (.given (even_punct _) (carries_token.append (carries_expr hpart 0))
      (.ifAhead (even_punct _) (carries_block hpart))) carries_token))).node _ nofun

theorem carries_ofAtom (k : TokenKind) (form : AtomForm) (h : form ≠ .oneToken .qualName) :
    Carries n (ofAtom k form) := by
  cases form with
  | oneToken kind => exact carries_token.node _ fun heq => h (heq ▸ rfl)
  | negativeNumber => exact (carries_token.append carries_token).node _ nofun
  | nameRef => exact carries_qualName.node _ nofun
  | atName => exact (carries_token.append carries_name).node _ nofun
  | parenthesized =>
    exact (carries_token.append ((carries_expr hpart 0).append carries_token)).node _ nofun
  | braced =>
    exact .givenShown reflected_declarationBehind shows_comprehension (carries_comprehension hpart)
      (carries_block hpart)

omit hpart in
theorem ofTokens?_ne_qualName (first second : Option TokenKind) :
    AtomForm.ofTokens? first second ≠ some (.oneToken .qualName) := by
  intro h
  unfold AtomForm.ofTokens? at h
  split at h <;> (try split at h) <;> cases h

omit hpart in
/-- The token behind the first of an atom tells the same, unless it is that of a declared name. -/
theorem even_atomForm {k : TokenKind} (hk : k ≠ .punct .atSign) :
    Even fun ks => AtomForm.ofTokens? (some k) ks[0]? := by
  refine even_first (AtomForm.ofTokens? (some k)) (forall_segmentKinds.mpr ?_)
  unfold AtomForm.ofTokens?
  split <;> first | exact ⟨rfl, rfl, rfl⟩ | simp_all

omit hpart in
theorem not_binderAhead_prefixed (hks : Prefixed ks ks') (h : binderAhead ks = false) :
    binderAhead ks' = false := by
  have honly : Reflected fun ks => ks[0]?.any isBinderOnly :=
    reflected_first (·.any isBinderOnly) rfl
  rw [binderAhead, Bool.or_eq_false_iff, Bool.eq_false_iff, Bool.eq_false_iff] at h ⊢
  exact ⟨mt (honly ks ks' hks) h.1, mt (reflected_quantifierAhead ks ks' hks) h.2⟩

omit hpart in
theorem binder_of_quantifier {k : TokenKind} (hk : Operator.quantifiers.contains k = true) :
    binder k = quantified k := by
  unfold binder
  split
  · exact absurd hk (by decide)
  · exact absurd hk (by decide)
  · rfl

omit hpart in
/-- What a binder stands for shows that a binder is ahead. -/
theorem shows_binder {k : TokenKind} {ls : List TokenKind} (h : binderAhead (k :: ls) = true) :
    Shows binderAhead (binder k) := by
  obtain honly | hquantifier := Bool.or_eq_true_iff.mp h
  · refine (beginsWith_binder k).at?.mono fun ks hks => Bool.or_eq_true_iff.mpr (.inl ?_)
    rw [eq_of_beq hks]
    exact honly
  · have hk := (Bool.and_eq_true_iff.mp hquantifier).1
    rw [binder_of_quantifier hk]
    exact (shows_quantifierAhead hk).mono fun ks hks => Bool.or_eq_true_iff.mpr (.inr hks)

/-- The atom that a token begins, whatever the token behind it has become. -/
theorem carries_atomAhead {k : TokenKind} {ls ls' : List TokenKind} {form : AtomForm}
    (hus : PrefixedAll none ts us) (hks : Prefixed ks ks') (hls : Prefixed ls ls')
    (hcurrent : kinds us ++ ks' = k :: ls') (hform : AtomForm.ofTokens? (some k) ls[0]? = some form)
    (h : Derives n (ofAtom k form) ts ks) :
    AtomForm.ofTokens? (some k) ls'[0]? = some form ∧ Derives n (ofAtom k form) us ks' := by
  have hne : form ≠ .oneToken .qualName := fun heq => ofTokens?_ne_qualName _ _ (heq ▸ hform)
  have hcarried := carries_ofAtom hpart k form hne _ _ _ _ hus hks h
  refine ⟨?_, hcarried⟩
  by_cases hk : k = .punct .atSign
  · subst hk
    have hboth : AtomForm.ofTokens? (some (.punct .atSign)) ls[0]?
        = if ls[0]? == some .ident then some .atName else none := rfl
    rw [hboth] at hform
    split at hform
    · obtain rfl := Option.some.inj hform
      have hname : Shows (fun ks => at? (.punct .atSign) ks && at? .ident ks.tail)
          (ofAtom (.punct .atSign) .atName) := shows_name.behind.node _
      have hshown := hname _ _ _ hcarried
      rw [hcurrent] at hshown
      exact if_pos (Bool.and_eq_true_iff.mp hshown).2
    · cases hform
  · exact (even_atomForm hk _ _ hls).trans hform

theorem carries_operandHead : Carries n operandHead := by
  intro ts us ks ks' hus hks h
  have hls := (prefixed_kindsAll hus).append hks
  unfold operandHead at h ⊢
  rw [derives_ahead] at h ⊢
  generalize hbefore : kinds ts ++ ks = ls at h hls
  generalize hcurrent : kinds us ++ ks' = ls' at hls ⊢
  cases hls with
  | nil => exact absurd h not_derives_never
  | @this k ls ls' hk rest =>
    have hname : ∀ k ∈ segmentKinds, ∀ ls, binderAhead (k :: ls) = false ∧
        Operator.frontRow? k = none ∧ AtomForm.ofTokens? (some k) ls[0]? = some .nameRef :=
      forall_segmentKinds.mpr
        ⟨fun _ => ⟨rfl, rfl, rfl⟩, fun _ => ⟨rfl, rfl, rfl⟩, fun _ => ⟨rfl, rfl, rfl⟩⟩
    obtain ⟨hbinder, hfront, hatom⟩ := hname k hk ls
    simp only [List.getElem?_cons_zero, List.getElem?_cons_succ, hbinder, hfront, hatom] at h
    exact carries_qualName.node .nameRef nofun _ _ _ _ hus hks h
  | @cons k ls ls' rest =>
    simp only [List.getElem?_cons_zero, List.getElem?_cons_succ] at h ⊢
    cases hbinder : binderAhead (k :: ls) with
    | true =>
      rw [hbinder, if_pos rfl] at h
      have hcarried := carries_binder hpart k _ _ _ _ hus hks h
      have hshown := shows_binder hbinder _ _ _ hcarried
      rw [hcurrent] at hshown
      rwa [hshown, if_pos rfl]
    | false =>
      rw [hbinder, if_neg Bool.false_ne_true] at h
      rw [not_binderAhead_prefixed (.cons rest) hbinder, if_neg Bool.false_ne_true]
      split
      · next row hrow =>
        simp only [hrow] at h
        have hnode : ∀ row ∈ Operator.table, row.node ≠ .qualName := by decide
        have hrow := hnode row (Operator.mem_table_of_frontRow? hrow)
        exact (carries_token.append (carries_expr hpart _)).node _ hrow _ _ _ _ hus hks h
      · next hnone =>
        simp only [hnone] at h
        split at h
        · next form hform =>
          obtain ⟨hform', hcarried⟩ := carries_atomAhead hpart hus hks rest hcurrent hform h
          rwa [hform']
        · exact absurd h not_derives_never

/-! ### Declarations at the beginning of an expression -/

omit hpart

/-- The tests that tell what an expression begins with by the names that are declared there. -/
inductive TellsDeclaration : (List TokenKind → Bool) → Prop
  | quantifier : TellsDeclaration quantifierAhead
  | comprehension : TellsDeclaration comprehensionAhead

/-- In front of what the form stands for the test holds with the prefixes if it holds without. -/
def Keeps (n : Nat) (test : List TokenKind → Bool) (f : Form) : Prop :=
  ∀ ts us ks ks', PrefixedAll none ts us → Prefixed ks ks' → Derives n f ts ks →
    test (kinds ts ++ ks) = true → test (kinds us ++ ks') = true

theorem Keeps.append (hf : Keeps n test f) (g : Form) : Keeps n test (f ++ g) := by
  intro ts us ks ks' hus hks h htest
  obtain ⟨xs, ys, rfl, hxs, -⟩ := derives_append.mp h
  obtain ⟨us₁, us₂, rfl, hus₁, hus₂⟩ := hus.split
  rw [Tree.kinds_append, List.append_assoc] at htest ⊢
  exact hf _ _ _ _ hus₁ ((prefixed_kindsAll hus₂).append hks) hxs htest

theorem quantified_of_operandHead (h : Derives n operandHead ts ks)
    (hahead : quantifierAhead (kinds ts ++ ks) = true) :
    ∃ k, Operator.quantifiers.contains k = true ∧ Derives n (quantified k) ts ks := by
  have hbinder : binderAhead (kinds ts ++ ks) = true := Bool.or_eq_true_iff.mpr (.inr hahead)
  unfold operandHead at h
  rw [derives_ahead] at h
  cases hls : kinds ts ++ ks with
  | nil =>
    rw [hls] at hahead
    cases hahead
  | cons k ls =>
    rw [hls] at h hahead hbinder
    have hk := (Bool.and_eq_true_iff.mp hahead).1
    simp only [List.getElem?_cons_zero, hbinder, if_true] at h
    exact ⟨k, hk, binder_of_quantifier hk ▸ h⟩

theorem comprehension_of_operandHead (h : Derives n operandHead ts ks)
    (hahead : comprehensionAhead (kinds ts ++ ks) = true) : Derives n comprehension ts ks := by
  obtain ⟨hbrace, hdeclaration⟩ := Bool.and_eq_true_iff.mp hahead
  unfold operandHead at h
  rw [derives_ahead] at h
  cases hls : kinds ts ++ ks with
  | nil =>
    rw [hls] at hbrace
    cases hbrace
  | cons k ls =>
    rw [hls] at h hbrace hdeclaration
    obtain rfl := Option.some.inj (eq_of_beq hbrace)
    have hbraced : Derives n (given declarationBehind comprehension block) ts ks := h
    rwa [derives_given, hls, if_pos hdeclaration] at hbraced

include hpart

theorem keeps_operandHead (htest : TellsDeclaration test) : Keeps n test operandHead := by
  cases htest with
  | quantifier =>
    intro ts us ks ks' hus hks h hahead
    obtain ⟨k, hk, hquantified⟩ := quantified_of_operandHead h hahead
    have hcarried := carries_binder hpart k _ _ _ _ hus hks (binder_of_quantifier hk ▸ hquantified)
    exact shows_quantifierAhead hk _ _ _ (binder_of_quantifier hk ▸ hcarried)
  | comprehension =>
    intro ts us ks ks' hus hks h hahead
    have hcomprehension := comprehension_of_operandHead h hahead
    exact shows_comprehensionAhead _ _ _ (carries_comprehension hpart _ _ _ _ hus hks hcomprehension)

/-! ### Operators -/

omit hpart in
/-- Whether a multiplicity belongs to the arrow in front of it is told the same, if a quantifier that
is ahead stays one. -/
theorem arrowMultAhead_prefixed (hks : Prefixed ks ks')
    (hquantifier : quantifierAhead ks = true → quantifierAhead ks' = true) :
    arrowMultAhead ks' = arrowMultAhead ks := by
  have hmult : Even fun ks =>
      atAny Operator.arrowMultiplicities ks && ks[1]?.any Operator.startsExpr := by
    refine even_second (fun a b => a.any Operator.arrowMultiplicities.contains &&
      b.any Operator.startsExpr) ?_ ?_
    · exact forall_segmentKinds.mpr ⟨fun _ => rfl, fun _ => rfl, fun _ => rfl⟩
    · exact forall_segmentKinds.mpr ⟨fun _ => rfl, fun _ => rfl, fun _ => rfl⟩
  have hsame : quantifierAhead ks' = quantifierAhead ks :=
    Bool.eq_iff_iff.mpr ⟨reflected_quantifierAhead ks ks' hks, hquantifier⟩
  have hboth : (atAny Operator.arrowMultiplicities ks' && ks'[1]?.any Operator.startsExpr)
      = (atAny Operator.arrowMultiplicities ks && ks[1]?.any Operator.startsExpr) := hmult ks ks' hks
  rw [arrowMultAhead, arrowMultAhead, hsame, Bool.and_right_comm, hboth, Bool.and_right_comm]

variable (hkeeps : ∀ test, TellsDeclaration test → ∀ level, Keeps n test (exprAt level))

include hkeeps

/-- An arrow and the expression behind it. The test for a multiplicity is made in front of that
expression, and may run over all the names that are declared at its beginning. -/
theorem carries_arrow (k : TokenKind) (level : Nat) (hg : Carries n g) :
    Carries n (arrowOperator k ++ (exprAt level ++ g)) := by
  intro ts us ks ks' hus hks h
  obtain ⟨op, side, rfl, hop, hside⟩ := derives_append.mp h
  obtain ⟨op', side', rfl, hop', hside'⟩ := hus.split
  have hls := (prefixed_kindsAll hside').append hks
  refine derives_append.mpr ⟨op', side', rfl, ?_,
    (carries_expr hpart level).append hg _ _ _ _ hside'.forget hks hside⟩
  obtain ⟨parts, rfl, hparts⟩ := derives_node.mp hop
  obtain ⟨parts', rfl, hparts'⟩ := hop'.node nofun
  obtain ⟨arrow, mult, rfl, harrow, hmult⟩ := derives_append.mp hparts
  obtain ⟨arrow', mult', rfl, harrow', hmult'⟩ := hparts'.split
  refine .node (derives_append.mpr ⟨arrow', mult', rfl, ?_, ?_⟩)
  · have htokens : Carries n (if Operator.arrowMultiplicities.contains k then
        token [k] ++ token [.punct .arrow] else token [k]) := by
      split
      · exact carries_token.append carries_token
      · exact carries_token
    exact htokens _ _ _ _ harrow' ((prefixed_kindsAll hmult').append hls) harrow
  · have hcarried := (prefixed_kindsAll hmult').append hls
    rw [ifAhead, derives_given] at hmult ⊢
    rw [arrowMultAhead_prefixed hcarried]
    · split at hmult
      · next hyes =>
        rw [if_pos hyes]
        exact carries_token _ _ _ _ hmult'.forget hls hmult
      · next hno =>
        rw [if_neg hno]
        exact carries_nothing _ _ _ _ hmult'.forget hls hmult
    · intro hahead
      split at hmult
      · next hyes =>
        simp [arrowMultAhead, hahead] at hyes
      -- the quantifier begins the expression
      · obtain rfl := derives_nothing.mp hmult
        cases hmult'
        exact (hkeeps _ .quantifier level).append g side side' ks ks' hside'.forget hks hside hahead

theorem carries_tail (k : TokenKind) (e : Operator.Extension) : Carries n (tail k e) := by
  have hotherwise : Carries n (if e.node = .impliesExpr then otherwise else .nothing) := by
    split
    · exact .ifAhead (even_at? (by decide) nofun) (carries_token.append (carries_expr hpart _))
    · exact carries_nothing
  unfold tail
  split
  · next level _ =>
    have hside := (carries_expr hpart level).append hotherwise
    unfold infixOperator
    split
    · unfold compareOperator
      split
      · exact ((carries_token.append carries_token).node .compareOp nofun).append hside
      · exact (carries_token.node .compareOp nofun).append hside
    · exact carries_arrow hpart hkeeps k level hotherwise
    · exact carries_token.append hside
  · split
    · exact carries_token.append ((carries_arguments hpart).append carries_token)
    · exact carries_token

omit hpart hkeeps in
theorem node_ne_qualName {ls : List TokenKind} {k : TokenKind} {e : Operator.Extension}
    (h : Operator.extensionOf ls = some (k, e)) : e.node ≠ .qualName := by
  obtain ⟨row, hrow, -, rfl, -⟩ := row_of_extensionOf h
  have hnode : ∀ row ∈ Operator.table, row.node ≠ .qualName := by decide
  exact hnode row hrow

/-- An expression with operators behind its beginning. -/
theorem carries_extended (level : Nat) (hf : Carries n f) : Carries n (.extended level f) := by
  intro ts us ks ks' hus hks h
  generalize hform : Form.extended level f = form at h
  induction h generalizing us ks' with
  | head h =>
    obtain ⟨rfl, rfl⟩ := Form.extended.inj hform
    exact .head (hf _ _ _ _ hus hks h)
  | extend _ asked tight back ih =>
    obtain ⟨rfl, rfl⟩ := Form.extended.inj hform
    obtain ⟨parts', rfl, hparts'⟩ := hus.node (node_ne_qualName asked)
    obtain ⟨front', back', rfl, hfront', hback'⟩ := hparts'.split
    have hbehind := (prefixed_kindsAll hback').append hks
    refine .extend (ih hpart hkeeps hf _ _ hfront' hbehind rfl) ?_ tight
      (carries_tail hpart hkeeps _ _ _ _ _ _ hback'.forget hks back)
    exact (even_extensionOf _ _ hbehind).trans asked
  | _ => cases hform

omit hpart hkeeps in
theorem Keeps.extended (h : Keeps n test f) (level : Nat) : Keeps n test (.extended level f) := by
  intro ts us ks ks' hus hks hts htest
  generalize hform : Form.extended level f = form at hts
  induction hts generalizing us ks' with
  | head hts =>
    obtain ⟨rfl, rfl⟩ := Form.extended.inj hform
    exact h _ _ _ _ hus hks hts htest
  | extend _ asked _ _ ih =>
    obtain ⟨rfl, rfl⟩ := Form.extended.inj hform
    obtain ⟨parts', rfl, hparts'⟩ := hus.node (node_ne_qualName asked)
    obtain ⟨front', back', rfl, hfront', hback'⟩ := hparts'.split
    rw [Tree.kinds_node_cons, Tree.kinds_append, Tree.kinds_nil, List.append_nil,
      List.append_assoc] at htest ⊢
    exact ih h _ _ hfront' ((prefixed_kindsAll hback').append hks) htest rfl
  | _ => cases hform

end Parts

/-- The nonterminals, and what they keep of the declarations that they begin with. The two go
together, by induction on how deep expressions are nested. -/
theorem carries_part_keeps : (∀ symbol, Carries n (.part symbol)) ∧
    ∀ test, TellsDeclaration test → ∀ level, Keeps n test (exprAt level) := by
  induction n with
  | zero =>
    have hnone : ∀ symbol ts ks, ¬ Derives 0 (.part symbol) ts ks := by
      intro symbol ts ks h
      obtain ⟨m, hm, -⟩ := derives_part.mp h
      cases hm
    exact ⟨fun symbol ts us ks ks' _ _ h => absurd h (hnone symbol ts ks),
      fun _ _ level ts us ks ks' _ _ h => absurd h (hnone _ ts ks)⟩
  | succ n ih =>
    obtain ⟨hpart, hkeeps⟩ := ih
    have hexpression : ∀ level, Carries n (expression level) := fun level =>
      (carries_extended hpart hkeeps level (carries_operandHead hpart)).append
        (carries_look (even_stopsAt level))
    have hsymbol : ∀ symbol, Carries n (ofNonterminal symbol) := by
      intro symbol
      cases symbol with
      | expression level => exact hexpression level
      | boundGroup => exact carries_boundGroup hpart
    have hhead : ∀ test, TellsDeclaration test → ∀ level, Keeps n test (expression level) :=
      fun test htest level => ((keeps_operandHead hpart htest).extended level).append _
    refine ⟨fun symbol ts us ks ks' hus hks h => ?_,
      fun test htest level ts us ks ks' hus hks h => ?_⟩
    · obtain ⟨m, hm, h⟩ := derives_part.mp h
      obtain rfl := Nat.succ.inj hm
      exact .part (hsymbol symbol _ _ _ _ hus hks h)
    · obtain ⟨m, hm, h⟩ := derives_part.mp h
      obtain rfl := Nat.succ.inj hm
      exact hhead test htest level _ _ _ _ hus hks h

end Form
end RelLang
