import RelLang.Proofs.Grammar.Decide
import RelLang.Grammar.Predicate
import RelLang.Proofs.Rule.Consume

/-!
# What is seen ahead is what is taken

The tests that go over many tokens ahead accept declarations and receivers of any length. What they
accept is given here as lists of tokens, and the rules that read it consume just these lists.
-/

namespace RelLang.Grammar

open Rule

/-! ### Names with a colon behind them -/

/-- `(',' Name)*`. -/
def commaNames (n : Nat) : List TokenKind := (List.replicate n [.punct .comma, .ident]).flatten

/-- `'disj'? Name (',' Name)* ':'`, with some names behind the first. -/
def declarationHeader (disj : Bool) (names : Nat) : List TokenKind :=
  (if disj then [.keyword .disjKw] else []) ++ .ident :: (commaNames names ++ [.punct .colon])

theorem namesEndInColon_iff {ks : List TokenKind} :
    namesEndInColon ks = true ↔ ∃ n behind, ks = commaNames n ++ .punct .colon :: behind := by
  constructor
  · intro h
    induction ks using namesEndInColon.induct with
    | case1 ks ih =>
      obtain ⟨n, behind, rfl⟩ := ih h
      exact ⟨n + 1, behind, rfl⟩
    | case2 ks => exact ⟨0, ks, rfl⟩
    | case3 ks hcomma hcolon =>
      rw [namesEndInColon.eq_3 ks hcomma hcolon] at h
      cases h
  · rintro ⟨n, behind, rfl⟩
    induction n with
    | zero => rfl
    | succ n ih => exact ih

theorem namesAhead_iff {ks : List TokenKind} :
    namesAhead ks = true ↔
      ∃ n behind, ks = .ident :: (commaNames n ++ .punct .colon :: behind) := by
  unfold namesAhead
  split
  · rw [namesEndInColon_iff]
    simp only [List.cons.injEq, true_and]
  · next hother =>
    refine ⟨nofun, ?_⟩
    rintro ⟨n, behind, rfl⟩
    exact absurd rfl (hother _)

/-- A declaration is ahead where its header is. -/
theorem declarationAhead_iff {ks : List TokenKind} :
    declarationAhead ks = true ↔ ∃ disj n behind, ks = declarationHeader disj n ++ behind := by
  have hheader (disj : Bool) (n : Nat) (behind : List TokenKind) :
      declarationHeader disj n ++ behind = (if disj then [.keyword .disjKw] else []) ++
        .ident :: (commaNames n ++ .punct .colon :: behind) := by
    simp [declarationHeader]
  simp only [hheader]
  unfold declarationAhead
  split
  · next ks =>
    rw [namesAhead_iff]
    constructor
    · rintro ⟨n, behind, rfl⟩
      exact ⟨true, n, behind, rfl⟩
    · rintro ⟨disj, n, behind, h⟩
      cases disj with
      | false => cases h
      | true => exact ⟨n, behind, (List.cons.inj h).2⟩
  · next hother =>
    rw [namesAhead_iff]
    constructor
    · rintro ⟨n, behind, rfl⟩
      exact ⟨false, n, behind, rfl⟩
    · rintro ⟨disj, n, behind, rfl⟩
      cases disj with
      | false => exact ⟨n, behind, rfl⟩
      | true => exact absurd rfl (hother _)

/-! ### Qualified names with a dot behind them -/

/-- `('this' '/')? Segment ('/' Segment)*`. -/
def qualifiedPath (this : Bool) (first : TokenKind) (segments : List TokenKind) : List TokenKind :=
  (if this then [.keyword .thisKw, .punct .slash] else []) ++
    first :: (segments.map fun k => [.punct .slash, k]).flatten

theorem segmentsEndInDot_iff {ks : List TokenKind} :
    segmentsEndInDot ks = true ↔ ∃ (segments behind : List TokenKind),
      (∀ k ∈ segments, k.isNameSegment = true) ∧
      ks = (segments.map fun k => [.punct .slash, k]).flatten ++ .punct .dot :: behind := by
  constructor
  · intro h
    induction ks using segmentsEndInDot.induct with
    | case1 k ks ih =>
      obtain ⟨hk, hrest⟩ := Bool.and_eq_true_iff.mp h
      obtain ⟨segments, behind, hsegments, rfl⟩ := ih hrest
      exact ⟨k :: segments, behind, List.forall_mem_cons.mpr ⟨hk, hsegments⟩, rfl⟩
    | case2 ks => exact ⟨[], ks, List.forall_mem_nil _, rfl⟩
    | case3 ks hslash hdot =>
      rw [segmentsEndInDot.eq_3 ks hslash hdot] at h
      cases h
  · rintro ⟨segments, behind, hsegments, rfl⟩
    induction segments with
    | nil => rfl
    | cons k segments ih =>
      obtain ⟨hk, hrest⟩ := List.forall_mem_cons.mp hsegments
      exact Bool.and_eq_true_iff.mpr ⟨hk, ih hrest⟩

theorem segmentsAhead_iff {ks : List TokenKind} :
    segmentsAhead ks = true ↔ ∃ first segments behind, first.isNameSegment = true ∧
      (∀ k ∈ segments, k.isNameSegment = true) ∧
      ks = qualifiedPath false first segments ++ .punct .dot :: behind := by
  cases ks with
  | nil => exact ⟨nofun, fun ⟨_, _, _, _, _, h⟩ => nomatch h⟩
  | cons k ks =>
    rw [segmentsAhead, Bool.and_eq_true, segmentsEndInDot_iff]
    constructor
    · rintro ⟨hk, segments, behind, hsegments, rfl⟩
      exact ⟨k, segments, behind, hk, hsegments, rfl⟩
    · rintro ⟨first, segments, behind, hfirst, hsegments, h⟩
      obtain ⟨rfl, hrest⟩ := List.cons.inj h
      exact ⟨hfirst, segments, behind, hsegments, hrest⟩

/-- A receiver is ahead where a qualified name is with a dot behind it. -/
theorem receiverAhead_iff {ks : List TokenKind} :
    receiverAhead ks = true ↔ ∃ this first segments behind, first.isNameSegment = true ∧
      (∀ k ∈ segments, k.isNameSegment = true) ∧
      ks = qualifiedPath this first segments ++ .punct .dot :: behind := by
  unfold receiverAhead
  split
  · next ks =>
    rw [segmentsAhead_iff]
    constructor
    · rintro ⟨first, segments, behind, hfirst, hsegments, rfl⟩
      exact ⟨true, first, segments, behind, hfirst, hsegments, rfl⟩
    · rintro ⟨this, first, segments, behind, hfirst, hsegments, h⟩
      cases this with
      | false =>
        -- the keyword is no segment
        obtain ⟨rfl, -⟩ := List.cons.inj h
        cases hfirst
      | true =>
        exact ⟨first, segments, behind, hfirst, hsegments, (List.cons.inj (List.cons.inj h).2).2⟩
  · next hother =>
    rw [segmentsAhead_iff]
    constructor
    · rintro ⟨first, segments, behind, hfirst, hsegments, rfl⟩
      exact ⟨false, first, segments, behind, hfirst, hsegments, rfl⟩
    · rintro ⟨this, first, segments, behind, hfirst, hsegments, rfl⟩
      cases this with
      | false => exact ⟨first, segments, behind, hfirst, hsegments, rfl⟩
      | true => exact absurd rfl (hother _)

/-! ### What takes them -/

section

variable {ν : Type} {setting : Setting} {enter : ν → State → Bool × State}
  {behind : List TokenKind}

theorem consumes_name (henter : Steady enter) :
    Consumes setting enter (name : Rule ν Bool) true [.ident] behind := by
  refine .look (a := true) (fun s hkinds => ?_)
    (.yielding henter ((consumes_bump .ident).node .name) (consumes_pure true))
  rw [run_currentIs, State.kindAt_eq, hkinds]
  rfl

/-- One round of what reads the names behind the first. -/
def commaName : Rule ν Bool := do
  let more ← atCommaName
  when more do
    bump
    ignore name
  return more

theorem run_atCommaName (s : State) : (atCommaName : Rule ν Bool).run setting enter s
    = (s.kindAt 0 == some (.punct .comma) && s.kindAt 1 == some .ident, s) :=
  run_andAlso_look (run_currentIs _ s) (run_nthIs 1 _ s)

theorem consumes_commaName (henter : Steady enter) :
    Consumes setting enter (commaName : Rule ν Bool) true [.punct .comma, .ident] behind := by
  have hboth : Consumes setting enter (do bump; ignore name : Rule ν Unit) ()
      ([.punct .comma] ++ [.ident]) behind :=
    .bind henter (consumes_bump _) (consumes_name henter).ignore
  refine .look (a := true) (fun s hkinds => ?_)
    (.yielding henter hboth.whenTrue (consumes_pure true))
  rw [run_atCommaName, State.kindAt_eq, State.kindAt_eq, hkinds]
  rfl

theorem consumes_commaName_end (henter : Steady enter)
    (hbehind : behind.head? ≠ some (.punct .comma)) :
    Consumes setting enter (commaName : Rule ν Bool) false [] behind := by
  refine .look (a := false) (fun s hkinds => ?_)
    (.yielding henter (consumes_pure ()) (consumes_pure false))
  rw [run_atCommaName, State.kindAt_eq, hkinds, List.nil_append, ← List.head?_eq_getElem?,
    beq_eq_false_iff_ne.mpr hbehind, Bool.false_and]

/-- A list of names is taken up to a token that is no comma. -/
theorem consumes_nameList (henter : Steady enter) (n : Nat)
    (hbehind : behind.head? ≠ some (.punct .comma)) :
    Consumes setting enter (nameList : Rule ν Bool) true (.ident :: commaNames n) behind := by
  have hmoves : Moves setting enter (commaName : Rule ν Bool) :=
    sees_atCommaName.guarded (takes_bump.bind henter fun _ => ignore name)
  have hnames : Consumes setting enter (repeated commaName : Rule ν Unit) () (commaNames n)
      behind := by
    refine .repeated henter hmoves (fun item hitem behind => ?_)
      (consumes_commaName_end henter hbehind)
    obtain ⟨-, rfl⟩ := List.mem_replicate.mp hitem
    exact consumes_commaName henter
  have hbody : Consumes setting enter (name >>= fun present => when present (repeated commaName) >>=
      fun _ => pure present : Rule ν Bool) true ([.ident] ++ commaNames n) behind :=
    .bind henter (consumes_name henter) (.yielding henter hnames.whenTrue (consumes_pure true))
  exact hbody.node .nameList

/-- One round of what reads the segments behind the first. -/
def slashSegment : Rule ν Bool := do
  let more ← andAlso (currentIs Punct.slash) (nthPasses 1 TokenKind.isNameSegment)
  when more do
    bump
    bump
  return more

theorem run_atSlashSegment (s : State) :
    (andAlso (currentIs Punct.slash) (nthPasses 1 TokenKind.isNameSegment) : Rule ν Bool).run
      setting enter s
    = (s.kindAt 0 == some (.punct .slash) && (s.kindAt 1).any TokenKind.isNameSegment, s) :=
  run_andAlso_look (run_currentIs _ s) (run_nthPasses 1 _ s)

theorem consumes_two (henter : Steady enter) (k l : TokenKind) :
    Consumes setting enter (do bump; bump : Rule ν Unit) () [k, l] behind := by
  have hboth : Consumes setting enter (do bump; bump : Rule ν Unit) () ([k] ++ [l]) behind :=
    .bind henter (consumes_bump k) (consumes_bump l)
  exact hboth

theorem consumes_slashSegment (henter : Steady enter) {k : TokenKind}
    (hk : k.isNameSegment = true) :
    Consumes setting enter (slashSegment : Rule ν Bool) true [.punct .slash, k] behind := by
  refine .look (a := true) (fun s hkinds => ?_)
    (.yielding henter (consumes_two henter _ k).whenTrue (consumes_pure true))
  rw [run_atSlashSegment, State.kindAt_eq, State.kindAt_eq, hkinds]
  simpa using hk

theorem consumes_slashSegment_end (henter : Steady enter)
    (hbehind : behind.head? ≠ some (.punct .slash)) :
    Consumes setting enter (slashSegment : Rule ν Bool) false [] behind := by
  refine .look (a := false) (fun s hkinds => ?_)
    (.yielding henter (consumes_pure ()) (consumes_pure false))
  rw [run_atSlashSegment, State.kindAt_eq, hkinds, List.nil_append, ← List.head?_eq_getElem?,
    beq_eq_false_iff_ne.mpr hbehind, Bool.false_and]

/-- The first segment and those behind it. -/
def pathSegments : Rule ν Bool := do
  let segment ← nthPasses 0 TokenKind.isNameSegment
  pick segment bump (report .nameAfterThis)
  repeated slashSegment
  return true

theorem consumes_pathSegments (henter : Steady enter) {first : TokenKind}
    {segments : List TokenKind} (hfirst : first.isNameSegment = true)
    (hsegments : ∀ k ∈ segments, k.isNameSegment = true)
    (hbehind : behind.head? ≠ some (.punct .slash)) :
    Consumes setting enter (pathSegments : Rule ν Bool) true (qualifiedPath false first segments)
      behind := by
  have hsees : Sees setting enter
      (andAlso (currentIs Punct.slash) (nthPasses 1 TokenKind.isNameSegment) : Rule ν Bool) :=
    (sees_currentIs _).andAlso fun _ => rfl
  have hmoves : Moves setting enter (slashSegment : Rule ν Bool) :=
    hsees.guarded (takes_bump.bind henter fun _ => bump)
  have hrest : Consumes setting enter (repeated slashSegment : Rule ν Unit) ()
      (segments.map fun k => [.punct .slash, k]).flatten behind := by
    refine .repeated henter hmoves (fun item hitem behind => ?_)
      (consumes_slashSegment_end henter hbehind)
    obtain ⟨k, hk, rfl⟩ := List.mem_map.mp hitem
    exact consumes_slashSegment henter (hsegments k hk)
  have htake : Consumes setting enter (pick true bump (report .nameAfterThis) >>= fun _ =>
      repeated slashSegment >>= fun _ => pure true : Rule ν Bool) true
      ([first] ++ (segments.map fun k => [.punct .slash, k]).flatten) behind :=
    .bind henter (consumes_bump first) (.yielding henter hrest (consumes_pure true))
  refine .look (a := true) (fun s hkinds => ?_) htake
  rw [run_nthPasses, State.kindAt_eq, hkinds]
  simpa [qualifiedPath] using hfirst

/-- A qualified name is taken up to a token that is no slash. -/
theorem consumes_qualName (henter : Steady enter) (this : Bool) {first : TokenKind}
    {segments : List TokenKind} (hfirst : first.isNameSegment = true)
    (hsegments : ∀ k ∈ segments, k.isNameSegment = true)
    (hbehind : behind.head? ≠ some (.punct .slash)) :
    Consumes setting enter (qualName : Rule ν Bool) true (qualifiedPath this first segments)
      behind := by
  have hpath : Consumes setting enter (pathSegments : Rule ν Bool) true
      (qualifiedPath false first segments) behind :=
    consumes_pathSegments henter hfirst hsegments hbehind
  refine .look (a := true) (fun s hkinds => ?_) (.node (.look (a := this) (fun s hkinds => ?_) ?_)
    .qualName)
  · rw [run_atQualName, State.kindAt_eq, State.kindAt_eq, hkinds]
    cases this with
    | true => rfl
    | false => simp [qualifiedPath, hfirst]
  · rw [run_currentIs, State.kindAt_eq, hkinds]
    cases this with
    | true => rfl
    | false =>
      have hthis : first ≠ .keyword .thisKw := by
        rintro rfl
        cases hfirst
      simp [qualifiedPath, hthis]
  · cases this with
    | true =>
      have hthis : Consumes setting enter (do bump; bump : Rule ν Unit) ()
          [.keyword .thisKw, .punct .slash] (qualifiedPath false first segments ++ behind) :=
        consumes_two henter _ _
      exact .bind henter hthis hpath
    | false =>
      have hnothing : Consumes setting enter (pure () : Rule ν Unit) () []
          (qualifiedPath false first segments ++ behind) :=
        consumes_pure ()
      exact .bind henter hnothing hpath

end

section

variable {setting : Setting} {enter : Nonterminal → State → Bool × State} {s : State}
  {behind : List TokenKind}

/-- `'disj'? NameList ':'`, what a declaration of a quantifier begins with. -/
def quantHeader : Rule Nonterminal Unit := do
  ignore (eat Keyword.disjKw)
  ignore nameList
  ignore (expect Punct.colon)

/-- `Mult? Expr`, what it ends with. -/
def quantType : Rule Nonterminal Unit := do
  optionalMult Operator.typeMultiplicities
  ignore expr

theorem run_quantDecl (s : State) : quantDecl.run setting enter s
    = (Rule.node .quantDecl (do quantHeader; quantType)).run setting enter s := by
  simp only [quantDecl, quantHeader, quantType, run_node, run_bind]

theorem consumes_quantHeader (henter : Steady enter) (disj : Bool) (n : Nat) :
    Consumes setting enter quantHeader () (declarationHeader disj n) behind := by
  have hcolon : Consumes setting enter (ignore (expect Punct.colon)) () [.punct .colon] behind :=
    (consumes_expect henter (.punct .colon)).ignore
  have hlist : Consumes setting enter (ignore nameList) () (.ident :: commaNames n)
      ([.punct .colon] ++ behind) :=
    (consumes_nameList henter n (by simp)).ignore
  have hnames : Consumes setting enter (do ignore nameList; ignore (expect Punct.colon)) ()
      (.ident :: commaNames n ++ [.punct .colon]) behind :=
    .bind henter hlist hcolon
  have hdisj : Consumes setting enter (ignore (eat Keyword.disjKw)) ()
      (if disj then [.keyword .disjKw] else [])
      (.ident :: commaNames n ++ [.punct .colon] ++ behind) := by
    cases disj with
    | true => exact (consumes_eat henter _).ignore
    | false => exact (consumes_eat_nothing (by simp)).ignore
  rw [declarationHeader, ← List.cons_append]
  exact .bind henter hdisj hnames

/-! ### What takes tokens without a look -/

/-- `Name ':'`, the label of a command or of a test. -/
def label : Rule Nonterminal Unit := do
  ignore name
  bump

/-- Two tokens that are known. -/
def knownPair : Rule Nonterminal Unit := do
  bump
  bump

/-- `Mult? '->'`. -/
def arrowHead : Rule Nonterminal Unit := do
  let left ← currentIn Operator.arrowMultiplicities
  when left bump
  bump

/-- A comparison with its negation in front of it. -/
def comparisonHead : Rule Nonterminal Unit := do
  let negated ← nthPasses 0 Operator.isNegation
  when negated bump
  bump

theorem consumes_label (henter : Steady enter) :
    Consumes setting enter label () [.ident, .punct .colon] behind := by
  have hboth : Consumes setting enter label () ([.ident] ++ [.punct .colon]) behind :=
    .bind henter (consumes_name henter).ignore (consumes_bump _)
  exact hboth

/-- A head of a token, and of another one in front of it where the test is passed. -/
theorem consumes_prefixed (henter : Steady enter) {test : Rule Nonterminal Bool}
    {passes : TokenKind → Bool}
    (htest : ∀ s, test.run setting enter s = ((s.kindAt 0).any passes, s)) {k : TokenKind}
    (hk : passes k = false) {before : List TokenKind}
    (hbefore : before = [] ∨ ∃ n, passes n = true ∧ before = [n]) :
    Consumes setting enter (do
      let present ← test
      when present bump
      bump) () (before ++ [k]) behind := by
  rcases hbefore with rfl | ⟨n, hn, rfl⟩
  · refine .look (a := false) (fun s hkinds => ?_) (consumes_bump k)
    rw [htest, State.kindAt_eq, hkinds]
    simp [hk]
  · refine .look (a := true) (fun s hkinds => ?_) (consumes_two henter n k)
    rw [htest, State.kindAt_eq, hkinds]
    simp [hn]

/-! ### Receivers -/

/-- Where a qualified name is ahead, it becomes a node. -/
theorem siblings_qualName (setting : Setting) (enter : Nonterminal → State → Bool × State)
    (h : NameAhead s) : ∃ name, (qualName.run setting enter s).2.siblings
      = .node .qualName name :: s.attachPending.siblings := by
  rw [qualName, run_bind, run_atQualName, h]
  exact ⟨_, rfl⟩

theorem nameAhead_of_kinds {this : Bool} {first : TokenKind} {segments : List TokenKind}
    (hfirst : first.isNameSegment = true)
    (h : s.kinds = qualifiedPath this first segments ++ behind) : NameAhead s := by
  rw [NameAhead, State.kindAt_eq, State.kindAt_eq, h]
  cases this with
  | true => rfl
  | false => simp [qualifiedPath, hfirst]

/-- Where a receiver is ahead, it is taken up to its dot and without a report, and it is a node of a
qualified name and the dot, with skipped tokens at most in between. -/
theorem run_optionalReceiver (henter : Steady enter) (hs : s.Valid)
    (h : receiverAhead s.kinds = true) :
    ∃ this first segments t, first.isNameSegment = true ∧
      (∀ k ∈ segments, k.isNameSegment = true) ∧
      optionalReceiver.run setting enter s = ((), t) ∧
      s.kinds = qualifiedPath this first segments ++ .punct .dot :: t.kinds ∧
      t.reports = s.reports ∧
      ∃ (name : List Tree) (skipped : List Token) (text : String),
        (∀ u ∈ skipped, u.kind.isSignificant = false) ∧
        t.siblings = .node .receiver (.node .qualName name :: skipped.map Token.skippedTree
          ++ [.token (.punct .dot) text]) :: s.attachPending.siblings := by
  obtain ⟨this, first, segments, behind, hfirst, hsegments, hkinds⟩ := receiverAhead_iff.mp h
  let u : State := { s.attachPending with siblings := [] }
  have hu : u.Valid := hs.opened
  have hukinds : u.kinds = qualifiedPath this first segments ++ .punct .dot :: behind := hkinds
  have hconsumes : Consumes setting enter qualName true (qualifiedPath this first segments)
      (.punct .dot :: behind) :=
    consumes_qualName henter this hfirst hsegments (by simp)
  obtain ⟨-, hrest, hreports⟩ := hconsumes u hu hukinds
  obtain ⟨name, hname⟩ := siblings_qualName setting enter (nameAhead_of_kinds hfirst hukinds)
  have hrun : optionalReceiver.run setting enter s = ((),
      let v := (qualName.run setting enter u).2.bump
      { v with siblings := .node .receiver v.siblings.reverse :: s.attachPending.siblings }) := by
    rw [optionalReceiver, run_bind, run_ahead, h]
    rfl
  have hq : (qualName.run setting enter u).2.Valid := valid_run setting henter qualName hu
  generalize (qualName.run setting enter u).2 = q at hrest hreports hname hrun hq
  obtain ⟨w, ws, hwords, hdot⟩ := State.words_of_kinds hrest
  refine ⟨this, first, segments, _, hfirst, hsegments, hrun, ?_,
    (State.reports_bump q).trans hreports, name, q.pending, w.token.text, hq.pending, ?_⟩
  · show _ = qualifiedPath this first segments ++ .punct .dot :: q.bump.kinds
    rw [State.kinds_eq_tail_of_bump, hrest, hkinds, List.tail_cons]
  · show Tree.node .receiver q.bump.siblings.reverse :: _ = _
    rw [State.bump_of_words_eq_cons hwords]
    simp [State.attachPending, hname, Token.leaf, hdot, u]

end

end RelLang.Grammar
