import RelLang.Proofs.Syntax.Begins

/-!
# Names with `this/` in front

A qualified name may begin with `this/`. What the tokens ahead say is then asked of one
more word, and the tests on them were not all written with it in mind. Most tell the
same with it and without it. Those that look for a name that is declared, or for a part of
a longer name, hold with it only if they hold without it, and then it is left to
what is derived that they hold.
-/

namespace RelLang

open Grammar

namespace Tree

/-- A name that is looked for by its first segment: behind a dot on the left of a bound, or behind
a comma in a tuple of values. -/
def bySegment : Tree → Tree → Bool
  | .token (.punct .dot) _, .node .qualName _ => true
  | .token (.punct .comma) _, .node .bindRhsAtom [.node .qualName _] => true
  | _, _ => false

mutual

/-- The same tree, with `this/` in front of some of its names. -/
inductive Prefixed : Tree → Tree → Prop
  | token {kind text} : Prefixed (.token kind text) (.token kind text)
  | node {kind ts us} (h : PrefixedAll none ts us) : Prefixed (.node kind ts) (.node kind us)
  | name {kind text ts} (h : kind ∈ Form.segmentKinds) :
      Prefixed (.node .qualName (.token kind text :: ts))
        (.node .qualName (.token (.keyword .thisKw) "this" :: .token (.punct .slash) "/" ::
          .token kind text :: ts))

/-- The same trees, behind the tree in front if there is one. A name that is looked for by its
first segment is left as it is. -/
inductive PrefixedAll : Option Tree → List Tree → List Tree → Prop
  | nil {front} : PrefixedAll front [] []
  | cons {front t u ts us} (first : Prefixed t u) (left : front.any (bySegment · t) = true → u = t)
      (rest : PrefixedAll (some t) ts us) : PrefixedAll front (t :: ts) (u :: us)

end

variable {front : Option Tree} {ts us vs : List Tree}

mutual

theorem Prefixed.refl : ∀ t : Tree, Prefixed t t
  | .token _ _ => .token
  | .node _ children => .node (PrefixedAll.refl none children)

theorem PrefixedAll.refl : ∀ (front : Option Tree) (ts : List Tree), PrefixedAll front ts ts
  | _, [] => .nil
  | _, t :: ts => .cons (Prefixed.refl t) (fun _ => rfl) (PrefixedAll.refl (some t) ts)

end

/-- One of the trees may be another one. -/
theorem PrefixedAll.middle (ts : List Tree) {t u : Tree} (h : Prefixed t u)
    (hfree : (ts.getLast? <|> front).any (bySegment · t) = false) (vs : List Tree) :
    PrefixedAll front (ts ++ t :: vs) (ts ++ u :: vs) := by
  induction ts generalizing front with
  | nil => exact .cons h (fun heq => absurd (hfree.symm.trans heq) Bool.false_ne_true) (.refl _ vs)
  | cons v ts ih =>
    refine .cons (.refl v) (fun _ => rfl) (ih ?_)
    rw [List.getLast?_cons] at hfree
    cases hlast : ts.getLast? with
    | none => rwa [hlast] at hfree
    | some => rwa [hlast] at hfree

theorem PrefixedAll.forget (h : PrefixedAll front ts us) : PrefixedAll none ts us := by
  cases h with
  | nil => exact .nil
  | cons first _ rest => exact .cons first nofun rest

theorem PrefixedAll.split (h : PrefixedAll front (ts ++ vs) us) :
    ∃ us₁ us₂, us = us₁ ++ us₂ ∧ PrefixedAll front ts us₁ ∧
      PrefixedAll (ts.getLast? <|> front) vs us₂ := by
  induction ts generalizing front us with
  | nil => exact ⟨[], us, rfl, .nil, h⟩
  | cons t ts ih =>
    cases h with
    | cons first left rest =>
      obtain ⟨us₁, us₂, rfl, hts, hvs⟩ := ih rest
      refine ⟨_ :: us₁, us₂, rfl, .cons first left hts, ?_⟩
      rw [List.getLast?_cons]
      cases hlast : ts.getLast? with
      | none => rwa [hlast] at hvs
      | some => rwa [hlast] at hvs

theorem PrefixedAll.single {t : Tree} (h : PrefixedAll front [t] us) :
    ∃ u, us = [u] ∧ Prefixed t u ∧ (front.any (bySegment · t) = true → u = t) := by
  cases h with
  | cons first left rest =>
    cases rest
    exact ⟨_, rfl, first, left⟩

theorem PrefixedAll.behindToken {kind : TokenKind} {text : String}
    (h : PrefixedAll front (.token kind text :: ts) us) :
    ∃ vs, us = .token kind text :: vs ∧ PrefixedAll (some (.token kind text)) ts vs := by
  cases h with
  | cons first _ rest =>
    cases first
    exact ⟨_, rfl, rest⟩

theorem PrefixedAll.token {kind : TokenKind} {text : String}
    (h : PrefixedAll front [.token kind text] us) : us = [.token kind text] := by
  obtain ⟨_, rfl, hrest⟩ := h.behindToken
  cases hrest
  rfl

/-- A node other than that of a name has the same parts. -/
theorem PrefixedAll.node {kind : NodeKind} (h : PrefixedAll front [.node kind ts] us)
    (hkind : kind ≠ .qualName) : ∃ vs, us = [.node kind vs] ∧ PrefixedAll none ts vs := by
  obtain ⟨u, rfl, hu, -⟩ := h.single
  cases hu with
  | node hparts => exact ⟨_, rfl, hparts⟩
  | name => exact absurd rfl hkind

end Tree

namespace Form

/-- The same tokens, with `this/` in front of some segments. -/
inductive Prefixed : List TokenKind → List TokenKind → Prop
  | nil : Prefixed [] []
  | cons {k ks ks'} (rest : Prefixed ks ks') : Prefixed (k :: ks) (k :: ks')
  | this {k ks ks'} (h : k ∈ segmentKinds) (rest : Prefixed ks ks') :
      Prefixed (k :: ks) (.keyword .thisKw :: .punct .slash :: k :: ks')

open Tree (kinds PrefixedAll)

variable {ks ks' ls ls' : List TokenKind}

theorem Prefixed.refl : ∀ ks, Prefixed ks ks
  | [] => .nil
  | _ :: ks => .cons (refl ks)

theorem Prefixed.append (h : Prefixed ks ks') (hls : Prefixed ls ls') :
    Prefixed (ks ++ ls) (ks' ++ ls') := by
  induction h with
  | nil => exact hls
  | cons _ ih => exact .cons ih
  | this hk _ ih => exact .this hk ih

/-- What does not begin with `this` begins with the same token. -/
theorem Prefixed.of_cons {k : TokenKind} (h : Prefixed ks (k :: ks')) (hk : k ≠ .keyword .thisKw) :
    ∃ ls, ks = k :: ls ∧ Prefixed ls ks' := by
  cases h with
  | cons rest => exact ⟨_, rfl, rest⟩
  | this => exact absurd rfl hk

mutual

theorem prefixed_kinds {t u : Tree} (h : t.Prefixed u) : Prefixed (kinds [t]) (kinds [u]) := by
  cases h with
  | token => exact .cons .nil
  | node h => simpa using prefixed_kindsAll h
  | name h => simpa using .this h (.refl _)

theorem prefixed_kindsAll {front : Option Tree} {ts us : List Tree} (h : PrefixedAll front ts us) :
    Prefixed (kinds ts) (kinds us) := by
  cases h with
  | nil => exact .nil
  | @cons _ t u ts us first _ rest =>
    have hts : kinds (t :: ts) = kinds [t] ++ kinds ts := Tree.kinds_append [t] ts
    have hus : kinds (u :: us) = kinds [u] ++ kinds us := Tree.kinds_append [u] us
    rw [hts, hus]
    exact (prefixed_kinds first).append (prefixed_kindsAll rest)

end

/-! ### Tests that tell the same -/

/-- Tells the same with the prefixes and without them. -/
def Even {α : Type} (f : List TokenKind → α) : Prop := ∀ ks ks', Prefixed ks ks' → f ks' = f ks

section Even

variable {α : Type}

theorem forall_segmentKinds {P : TokenKind → Prop} :
    (∀ k ∈ segmentKinds, P k) ↔ P .ident ∧ P (.keyword .intKw) ∧ P (.keyword .seqKw) := by
  simp [segmentKinds]

/-- A test on the current token. -/
theorem even_first (p : Option TokenKind → α)
    (h : ∀ k ∈ segmentKinds, p (some (.keyword .thisKw)) = p (some k)) :
    Even fun ks => p ks[0]? := by
  intro ks ks' hks
  cases hks with
  | nil => rfl
  | cons => rfl
  | this hk => exact h _ hk

/-- A test on three tokens. -/
theorem even_third (p : Option TokenKind → Option TokenKind → Option TokenKind → α)
    (hfirst : ∀ k ∈ segmentKinds, ∀ b c,
      p (some (.keyword .thisKw)) (some (.punct .slash)) (some k) = p (some k) b c)
    (hsecond : ∀ k ∈ segmentKinds, ∀ a c,
      p (some a) (some (.keyword .thisKw)) (some (.punct .slash)) = p (some a) (some k) c)
    (hthird : ∀ k ∈ segmentKinds, ∀ a b,
      p (some a) (some b) (some (.keyword .thisKw)) = p (some a) (some b) (some k)) :
    Even fun ks => p ks[0]? ks[1]? ks[2]? := by
  intro ks ks' hks
  cases hks with
  | nil => rfl
  | this hk => exact hfirst _ hk _ _
  | cons hks =>
    cases hks with
    | nil => rfl
    | this hk => exact hsecond _ hk _ _
    | cons hks =>
      cases hks with
      | nil => rfl
      | cons => rfl
      | this hk => exact hthird _ hk _ _

/-- A test on two tokens. -/
theorem even_second (p : Option TokenKind → Option TokenKind → α)
    (hfirst : ∀ k ∈ segmentKinds, ∀ b,
      p (some (.keyword .thisKw)) (some (.punct .slash)) = p (some k) b)
    (hsecond : ∀ k ∈ segmentKinds, ∀ a, p (some a) (some (.keyword .thisKw)) = p (some a) (some k)) :
    Even fun ks => p ks[0]? ks[1]? :=
  even_third (fun a b _ => p a b) (fun k hk b _ => hfirst k hk b) (fun k hk a _ => hsecond k hk a)
    fun _ _ _ _ => rfl

theorem even_at? {kind : TokenKind} (h : kind ∉ segmentKinds) (hthis : kind ≠ .keyword .thisKw) :
    Even (at? kind) := by
  refine even_first (· == some kind) fun k hk => ?_
  have hk : k ≠ kind := fun heq => h (heq ▸ hk)
  rw [beq_false_of_ne fun heq => hthis (Option.some.inj heq).symm,
    beq_false_of_ne fun heq => hk (Option.some.inj heq)]

theorem even_punct (mark : Punct) : Even (at? (.punct mark)) := by
  refine even_at? ?_ nofun
  simp [segmentKinds]

theorem even_atAny {allowed : List TokenKind}
    (h : ∀ k ∈ .keyword .thisKw :: segmentKinds, allowed.contains k = false) :
    Even (atAny allowed) := by
  obtain ⟨hthis, hsegments⟩ := List.forall_mem_cons.mp h
  refine even_first (·.any allowed.contains) fun k hk => ?_
  rw [Option.any_some, Option.any_some, hthis, hsegments k hk]

theorem even_isEmpty : Even List.isEmpty := by
  intro ks ks' hks
  cases hks <;> rfl

theorem even_qualNameAhead : Even qualNameAhead := by
  refine even_second (fun a b => a.any TokenKind.isNameSegment ||
    (a == some (.keyword .thisKw) && b == some (.punct .slash))) ?_ ?_
  · exact forall_segmentKinds.mpr ⟨fun _ => rfl, fun _ => rfl, fun _ => rfl⟩
  · exact forall_segmentKinds.mpr ⟨fun _ => rfl, fun _ => rfl, fun _ => rfl⟩

theorem even_testAhead : Even testAhead := by
  intro ks ks' hks
  rw [testAhead, testAhead, even_punct .lbrace ks ks' hks, even_qualNameAhead ks ks' hks]

theorem even_boundValueForm : Even fun ks => BoundValueForm.ofTokens? ks[0]? ks[1]? := by
  refine even_second BoundValueForm.ofTokens? ?_ ?_
  · exact forall_segmentKinds.mpr ⟨fun _ => rfl, fun _ => rfl, fun _ => rfl⟩
  · refine forall_segmentKinds.mpr ⟨?_, ?_, ?_⟩ <;>
    · intro a
      unfold BoundValueForm.ofTokens?
      split <;> rfl

theorem even_extensionOf : Even Operator.extensionOf := by
  have hnone : ∀ k ∈ .keyword .thisKw :: segmentKinds, ∀ b, Operator.extension? k b = none :=
    List.forall_mem_cons.mpr
      ⟨fun _ => rfl, forall_segmentKinds.mpr ⟨fun _ => rfl, fun _ => rfl, fun _ => rfl⟩⟩
  obtain ⟨hthis, hsegments⟩ := List.forall_mem_cons.mp hnone
  refine even_second (fun a b => a.bind fun k => (Operator.extension? k b).map (k, ·)) ?_ ?_
  · intro k hk b
    rw [Option.bind_some, Option.bind_some, hthis, hsegments k hk]
    rfl
  · exact forall_segmentKinds.mpr ⟨fun _ => rfl, fun _ => rfl, fun _ => rfl⟩

theorem even_stopsAt (level : Nat) : Even (Operator.stopsAt level) := by
  intro ks ks' hks
  rw [Operator.stopsAt, even_extensionOf ks ks' hks, Operator.stopsAt]

/-- A test on the token behind some other one. -/
theorem even_marked (kind : TokenKind) (hkind : kind ∉ .keyword .thisKw :: segmentKinds)
    (p : Option TokenKind → Bool) (hp : ∀ k ∈ segmentKinds, p (some (.keyword .thisKw)) = p (some k)) :
    Even fun ks => at? kind ks && p ks[1]? := by
  have hne : ∀ k ∈ .keyword .thisKw :: segmentKinds, (some k == some kind) = false := fun k hk =>
    beq_false_of_ne fun heq => hkind (Option.some.inj heq ▸ hk)
  obtain ⟨hthis, hsegments⟩ := List.forall_mem_cons.mp hne
  refine even_second (fun a b => a == some kind && p b) ?_ ?_
  · intro k hk b
    rw [hthis, hsegments k hk, Bool.false_and, Bool.false_and]
  · intro k hk a
    rw [hp k hk]

theorem even_scopeAhead : Even scopeAhead := by
  refine even_third (fun a b c => a == some (.keyword .forKw)
      && (b == some .number || (b == some (.keyword .exactlyKw) && c == some .number))) ?_ ?_ ?_
  · exact forall_segmentKinds.mpr ⟨fun _ _ => rfl, fun _ _ => rfl, fun _ _ => rfl⟩
  · exact forall_segmentKinds.mpr ⟨fun _ _ => rfl, fun _ _ => rfl, fun _ _ => rfl⟩
  · exact forall_segmentKinds.mpr ⟨fun _ _ => rfl, fun _ _ => rfl, fun _ _ => rfl⟩

theorem even_typescopeAhead : Even typescopeAhead := by
  refine even_third (fun a b c => a == some (.keyword .exactlyKw)
      || (a == some .number && (b.any TokenKind.isNameSegment
        || (b == some (.keyword .thisKw) && c == some (.punct .slash))))) ?_ ?_ ?_
  · exact forall_segmentKinds.mpr ⟨fun _ _ => rfl, fun _ _ => rfl, fun _ _ => rfl⟩
  · exact forall_segmentKinds.mpr ⟨fun _ _ => rfl, fun _ _ => rfl, fun _ _ => rfl⟩
  · exact forall_segmentKinds.mpr ⟨fun _ _ => rfl, fun _ _ => rfl, fun _ _ => rfl⟩

theorem even_commaTypescope : Even commaTypescope :=
  even_marked (.punct .comma) (by decide)
    (·.any ([.number, .keyword .exactlyKw] : List TokenKind).contains) (by decide)

theorem even_propertyAhead : Even propertyAhead :=
  even_marked (.keyword .isKw) (by decide)
    (·.any ([.keyword .sufficientKw, .keyword .necessaryKw] : List TokenKind).contains) (by decide)

theorem even_tagAhead (quantified : Bool) (form : AssertionForm) :
    Even (tagAhead quantified form) :=
  even_marked (.keyword .isKw) (by decide) (·.bind (AssertionForm.ofTag? quantified) == some form)
    (forall_segmentKinds.mpr ⟨rfl, rfl, rfl⟩)

end Even

/-! ### Tests for declared names and for parts of names -/

/-- Holds with the prefixes only if it holds without them. -/
def Reflected (test : List TokenKind → Bool) : Prop :=
  ∀ ks ks', Prefixed ks ks' → test ks' = true → test ks = true

variable {test : List TokenKind → Bool}

theorem Even.reflected (h : Even test) : Reflected test := fun ks ks' hks htest =>
  (h ks ks' hks).symm.trans htest

/-- A test on the current token. -/
theorem reflected_first (p : Option TokenKind → Bool) (hp : p (some (.keyword .thisKw)) = false) :
    Reflected fun ks => p ks[0]? := by
  intro ks ks' hks htest
  cases hks with
  | nil => exact htest
  | cons => exact htest
  | this => exact absurd (hp.symm.trans htest) Bool.false_ne_true

theorem reflected_ident : Reflected (at? .ident) := reflected_first (· == some .ident) rfl

/-- The current token passes, and so do those behind it. -/
theorem Reflected.behind (h : Reflected test) (p : Option TokenKind → Bool)
    (hp : p (some (.keyword .thisKw)) = false) : Reflected fun ks => p ks[0]? && test ks.tail := by
  intro ks ks' hks htest
  rw [Bool.and_eq_true] at htest ⊢
  refine ⟨reflected_first p hp ks ks' hks htest.1, ?_⟩
  cases hks with
  | nil => exact htest.2
  | cons rest => exact h _ _ rest htest.2
  | this => exact absurd (hp.symm.trans htest.1) Bool.false_ne_true

/-- A test on two tokens. -/
theorem reflected_second (p q : Option TokenKind → Bool) (hp : p (some (.keyword .thisKw)) = false)
    (hq : q (some (.keyword .thisKw)) = false) : Reflected fun ks => p ks[0]? && q ks[1]? := by
  intro ks ks' hks htest
  have hboth := (reflected_first q hq).behind p hp ks ks' hks (by simpa using htest)
  simpa using hboth

theorem reflected_segmentBehind (mark : Punct) : Reflected (segmentBehind mark) :=
  reflected_second (· == some (.punct mark)) (fun b => b.any TokenKind.isNameSegment) rfl rfl

theorem reflected_commaName : Reflected commaName :=
  reflected_second (· == some (.punct .comma)) (· == some .ident) rfl rfl

theorem reflected_labelAhead : Reflected labelAhead :=
  reflected_second (· == some .ident) (· == some (.punct .colon)) rfl rfl

theorem reflected_namedBlockAhead : Reflected namedBlockAhead :=
  reflected_second (· == some .ident) (· == some (.punct .lbrace)) rfl rfl

theorem reflected_namesEndInColon : Reflected namesEndInColon := by
  intro ks ks' hks htest
  induction ks' using namesEndInColon.induct generalizing ks with
  | case1 ks' ih =>
    obtain ⟨ls, rfl, hls⟩ := hks.of_cons nofun
    obtain ⟨ms, rfl, hms⟩ := hls.of_cons nofun
    exact ih ms hms htest
  | case2 ks' =>
    obtain ⟨ls, rfl, -⟩ := hks.of_cons nofun
    rfl
  | case3 ks' hcomma hcolon =>
    unfold namesEndInColon at htest
    split at htest
    · exact absurd rfl (hcomma _)
    · exact absurd rfl (hcolon _)
    · cases htest

theorem reflected_namesAhead : Reflected namesAhead := by
  intro ks ks' hks htest
  unfold namesAhead at htest
  split at htest
  · obtain ⟨ls, rfl, hls⟩ := hks.of_cons nofun
    exact reflected_namesEndInColon ls _ hls htest
  · cases htest

theorem reflected_declarationAhead : Reflected declarationAhead := by
  intro ks ks' hks htest
  unfold declarationAhead at htest
  split at htest
  · obtain ⟨ls, rfl, hls⟩ := hks.of_cons nofun
    exact reflected_namesAhead ls _ hls htest
  · have hnames := reflected_namesAhead ks ks' hks htest
    unfold declarationAhead
    split
    · cases hnames
    · exact hnames

theorem reflected_declarationBehind : Reflected declarationBehind := by
  intro ks ks' hks htest
  cases hks with
  | nil => cases htest
  | cons rest => exact reflected_declarationAhead _ _ rest htest
  | this => cases htest

theorem reflected_commaDeclaration : Reflected commaDeclaration :=
  reflected_declarationAhead.behind (· == some (.punct .comma)) rfl

theorem reflected_quantifierAhead : Reflected quantifierAhead :=
  reflected_declarationAhead.behind (fun a => a.any Operator.quantifiers.contains) rfl

theorem reflected_universalAhead : Reflected universalAhead :=
  reflected_declarationAhead.behind (· == some (.keyword .allKw)) rfl

theorem reflected_segmentsEndInDot : Reflected segmentsEndInDot := by
  intro ks ks' hks htest
  induction ks' using segmentsEndInDot.induct generalizing ks with
  | case1 k ks' ih =>
    obtain ⟨ls, rfl, hls⟩ := hks.of_cons nofun
    rw [segmentsEndInDot, Bool.and_eq_true] at htest
    obtain ⟨ms, rfl, hms⟩ := hls.of_cons (by rintro rfl; cases htest.1)
    exact Bool.and_eq_true_iff.mpr ⟨htest.1, ih ms hms htest.2⟩
  | case2 ks' =>
    obtain ⟨ls, rfl, -⟩ := hks.of_cons nofun
    rfl
  | case3 ks' hslash hdot =>
    unfold segmentsEndInDot at htest
    split at htest
    · exact absurd rfl (hslash _ _)
    · exact absurd rfl (hdot _)
    · cases htest

theorem reflected_segmentsAhead : Reflected segmentsAhead := by
  intro ks ks' hks htest
  cases ks' with
  | nil => cases htest
  | cons k ks' =>
    rw [segmentsAhead, Bool.and_eq_true] at htest
    obtain ⟨ls, rfl, hls⟩ := hks.of_cons (by rintro rfl; cases htest.1)
    exact Bool.and_eq_true_iff.mpr ⟨htest.1, reflected_segmentsEndInDot ls ks' hls htest.2⟩

theorem receiverAhead_of_segment {k : TokenKind} (hk : k ∈ segmentKinds) (ks : List TokenKind) :
    receiverAhead (k :: ks) = segmentsAhead (k :: ks) := by
  unfold receiverAhead
  split
  · next heq =>
    obtain ⟨rfl, -⟩ := List.cons.inj heq
    exact absurd hk (by decide)
  · rfl

theorem reflected_receiverAhead : Reflected receiverAhead := by
  intro ks ks' hks htest
  cases hks with
  | nil => exact htest
  | this hk rest =>
    rw [receiverAhead_of_segment hk]
    exact reflected_segmentsAhead _ _ (.cons rest) htest
  | @cons k ks ks' rest =>
    unfold receiverAhead at htest
    split at htest
    · next heq =>
      obtain ⟨rfl, rfl⟩ := List.cons.inj heq
      obtain ⟨ls, rfl, hls⟩ := rest.of_cons nofun
      exact reflected_segmentsAhead _ _ hls htest
    · have hsegments := reflected_segmentsAhead _ _ (.cons rest) htest
      have hk : k ∈ segmentKinds :=
        (isNameSegment_iff k).mp (Bool.and_eq_true_iff.mp hsegments).1
      rwa [receiverAhead_of_segment hk]

end Form
end RelLang
