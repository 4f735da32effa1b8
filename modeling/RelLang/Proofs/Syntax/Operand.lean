import RelLang.Proofs.Syntax.Begins
import RelLang.Proofs.Syntax.Reads

/-!
# What operands are read from

The rules for names, bounds, blocks, binders and atoms read the forms of these names,
if the expressions in them are read from theirs.
-/

namespace RelLang.Grammar

open Rule
open Tree (kinds)

variable {r : Reader} {pre : List TokenKind → Prop}

/-! ### Names -/

theorem reads_tokenNode {ks : List TokenKind} {rest : List TokenKind → Prop} (kind : NodeKind)
    (hfront : ∀ ahead, pre ahead → Front ks rest ahead) :
    Reads r pre anyhow (fun _ => .node kind (.token ks)) (tokenNode kind) :=
  (reads_bump hfront).node kind

theorem reads_name (hr : r.Faithful) :
    Reads r pre anyhow (Form.yields true Form.name) (name : Rule Nonterminal Bool) := by
  have hname : Reads r (fun ks => pre ks ∧ Form.at? .ident ks = true) anyhow
      (fun b => Form.name ++ Form.yields true .nothing b)
      (tokenNode .name >>= fun _ => pure true) :=
    Reads.then hr (reads_tokenNode .name fun _ h => front_of_at? h.2) (reads_pure true)
  refine (looks_currentIs .ident).require hr (hname.congr fun n a ts behind => ?_)
    ((rejects_report hr _).bind hr _) fun b => ?_
  · simp [Form.derives_yields]
  · exact Form.beginsWith_name.at?.yields

theorem looks_atCommaName : Looks atCommaName Form.commaName :=
  (looks_currentIs Punct.comma).andAlso (looks_nthIs 1 .ident)

theorem front_of_commaName {ks : List TokenKind} (h : Form.commaName ks = true) :
    Front [.punct .comma] anything ks :=
  front_of_at? (Bool.and_eq_true_iff.mp h).1

/-- Names behind a first one. -/
theorem reads_moreNames (hr : r.Faithful) :
    Reads r pre anyhow
      (fun _ => .whileAhead Form.commaName (.token [.punct .comma] ++ Form.name)) (repeated do
        let more ← atCommaName
        when more do
          bump
          ignore name
        return more) :=
  reads_whileBump hr looks_atCommaName (fun _ => front_of_commaName) (reads_name hr).ignore

theorem reads_nameList (hr : r.Faithful) :
    Reads r pre anyhow (Form.yields true Form.nameList) (nameList : Rule Nonterminal Bool) :=
  .yieldsNode <| .node (.yieldsRow [Form.name, _] (List.cons_ne_nil _ _) <|
    .thenTrue hr (reads_name hr) <| .then hr (reads_moreNames hr) (reads_pure true)) _

theorem looks_atQualName : Looks atQualName Form.qualNameAhead :=
  (looks_nthPasses 0 _).orElse ((looks_currentIs _).andAlso (looks_nthIs 1 _))

theorem looks_segmentBehind (mark : Punct) :
    Looks (andAlso (currentIs mark) (nthPasses 1 TokenKind.isNameSegment))
      (Form.segmentBehind mark) :=
  (looks_currentIs _).andAlso (looks_nthPasses 1 _)

theorem front_of_isNameSegment {ks : List TokenKind}
    (h : ks[0]?.any TokenKind.isNameSegment = true) : Front Form.segmentKinds anything ks :=
  front_of_any h fun k => (Form.isNameSegment_iff k).mp

theorem front_of_segmentBehind {mark : Punct} {ks : List TokenKind}
    (h : Form.segmentBehind mark ks = true) :
    Front [.punct mark] (Front Form.segmentKinds anything) ks := by
  obtain ⟨hmark, hsegment⟩ := Bool.and_eq_true_iff.mp h
  obtain ⟨k, behind, rfl, hk, -⟩ := front_of_at? hmark
  exact ⟨k, behind, rfl, hk, front_of_isNameSegment hsegment⟩

/-- A `this` in front of a qualified name has a slash behind it. -/
theorem front_of_this {ks : List TokenKind} (h : Form.qualNameAhead ks = true)
    (hthis : Form.at? (.keyword .thisKw) ks = true) :
    Front [.keyword .thisKw] (Front [.punct .slash] anything) ks := by
  obtain ⟨k, behind, rfl, hk, -⟩ := front_of_at? hthis
  obtain rfl := List.mem_singleton.mp hk
  refine ⟨_, behind, rfl, hk, front_of_at? ?_⟩
  simpa [Form.qualNameAhead, Form.at?, TokenKind.isNameSegment] using h

/-- Two tokens of which it is known what they are. -/
theorem reads_bump_bump (hr : r.Faithful) {ks ms : List TokenKind} {rest : List TokenKind → Prop}
    (hfront : ∀ ahead, pre ahead → Front ks (Front ms rest) ahead) :
    Reads r pre anyhow (fun _ => .token ks ++ .token ms) (bump >>= fun _ => bump) :=
  .bumpThen hr hfront (reads_bump fun _ => id)

theorem reads_qualName (hr : r.Faithful) :
    Reads r pre anyhow (Form.yields true Form.qualName) (qualName : Rule Nonterminal Bool) := by
  refine looks_atQualName.require hr (.yieldsNode <| .node (.yieldsRow [_, _, _]
    (List.cons_ne_nil _ _) ?_) _) ((rejects_report hr _).bind hr _) fun _ => Form.shows_qualName.yields
  · refine (looks_currentIs _).whenThen hr (reads_bump_bump hr fun ks h => front_of_this h.1.2 h.2)
      ((looks_nthPasses 0 _).require hr ?_ ((rejects_report hr _).bind hr _) ?_)
    · have hmore : Reads r anything anyhow (fun _ => .whileAhead (Form.segmentBehind .slash)
          (.token [.punct .slash] ++ .token Form.segmentKinds)) (repeated do
            let more ← andAlso (currentIs Punct.slash) (nthPasses 1 TokenKind.isNameSegment)
            when more do
              bump
              bump
            return more) :=
        reads_whileBump hr (looks_segmentBehind .slash) (fun _ => front_of_segmentBehind)
          (reads_bump fun _ => id)
      exact .bumpThen hr (fun _ h => front_of_isNameSegment h.2) (.then hr hmore (reads_pure true))
    · have hbegins : (Form.token Form.segmentKinds).Begins (TokenKind.isNameSegment · = true) :=
        Form.begins_token fun k => (Form.isNameSegment_iff k).mpr
      exact fun _ => (hbegins.append _).any

theorem reads_qualNameList (hr : r.Faithful) :
    Reads r pre anyhow (fun _ => Form.qualNameList) (qualNameList : Rule Nonterminal Unit) :=
  .node (.then hr (reads_qualName hr).ignore (reads_separated hr (reads_qualName hr).ignore)) _

theorem reads_optionalMult (hr : r.Faithful) (allowed : List TokenKind) :
    Reads r pre anyhow (fun _ => Form.optionalMult allowed)
      (optionalMult allowed : Rule Nonterminal Unit) :=
  (looks_currentIn _).when hr (reads_tokenNode _ fun _ h => front_of_atAny h.2)

/-! ### Expressions inside other rules -/

theorem reads_exprAt (hr : r.Faithful) (level : Nat) :
    Reads r pre anyhow (Form.yields true (Form.exprAt level)) (exprAt level) := by
  refine (Reads.yieldsRow [Form.exprAt level, .nothing] (List.cons_ne_nil _ _)
    ((hr.expression level).require hr (.then hr reads_done (reads_pure true))
      ((rejects_report hr _).bind hr _))).congr fun n b ts behind => ?_
  rw [Form.derives_yields, Form.derives_yields]
  exact and_congr_right fun _ => Form.derives_append_nothing.symm

theorem reads_expr (hr : r.Faithful) : Reads r pre anyhow (fun _ => Form.expr) (ignore expr) :=
  (reads_exprAt hr 0).ignore

theorem reads_operand (hr : r.Faithful) (level : Nat) (after : TokenKind) :
    Reads r pre anyhow (fun _ => Form.exprAt level) (operand level after) :=
  ((hr.expression level).require hr reads_done (rejects_report hr _)).congr
    fun _ _ _ _ => Form.derives_append_nothing.symm

/-- The arguments in front of a closing bracket. -/
theorem reads_arguments (hr : r.Faithful) :
    Reads r pre (fun _ ks => Form.at? (.punct .rbracket) ks = true) (fun _ => Form.arguments)
      arguments := by
  refine .within (.node ?_ _) _
  have hread : Reads r pre (fun _ ks => Form.at? (.punct .rbracket) ks = true)
      (fun _ => .given (Form.at? (.punct .rbracket)) .nothing
        (Form.expr ++ .separated .comma Form.expr)) (do
      let closed ← currentIs Punct.rbracket
      when (!closed) do
        ignore expr
        repeated do
          let more ← eat Punct.comma
          when more do
            ignore expr
          return more) :=
    (looks_currentIs _).branch hr reads_done
      (Reads.then hr (reads_expr hr) (reads_separated hr (reads_expr hr))).ofAnyhow
  refine hread.reshape hr (fun n _ ts behind _ hts => ?_) fun n _ ts behind _ hpost hts => ?_
  · rw [Form.derives_given] at hts
    split at hts
    · exact .left hts
    · exact .right hts
  · rw [Form.derives_given]
    obtain hts | hts := Form.derives_either.mp hts
    · obtain rfl := Form.derives_nothing.mp hts
      have hclosed : Form.at? (.punct .rbracket) (kinds [] ++ behind) = true := hpost
      rwa [if_pos hclosed]
    · have hbegins := (Form.begins_exprAt_ne rfl : Form.expr.Begins (· ≠ .punct .rbracket))
      rwa [if_neg (by rw [(hbegins.append _).not_at? hts]; exact Bool.false_ne_true)]

/-! ### Bounds -/

/-- The tokens that tell the form of a bound value. -/
theorem tokens_of_boundValueForm {first second : Option TokenKind} {form : BoundValueForm}
    (h : BoundValueForm.ofTokens? first second = some form) :
    match form with
    | .oneToken => ∃ k ∈ [TokenKind.atomName, .number, .keyword .noneKw], first = some k
    | .negativeNumber => first = some (.punct .minus) ∧ second = some .number
    | .group => first = some (.punct .lparen)
    | .name => True := by
  unfold BoundValueForm.ofTokens? at h
  split at h
  all_goals simp only [Option.ite_none_right_eq_some, Option.some.injEq, reduceCtorEq, beq_iff_eq] at h
  all_goals
    obtain ⟨rfl, rfl⟩ := h
    simp

theorem front_of_eq {k : TokenKind} {ks : List TokenKind} (h : ks[0]? = some k) :
    Front [k] anything ks :=
  front_of_at? (beq_iff_eq.mpr h)

/-- Two tokens ahead, each of which is known. -/
theorem front_front_of_eq {k m : TokenKind} {ks : List TokenKind} (h₀ : ks[0]? = some k)
    (h₁ : ks[1]? = some m) : Front [k] (Front [m] anything) ks := by
  obtain ⟨k', behind, rfl, hk, -⟩ := front_of_eq h₀
  exact ⟨k', behind, rfl, hk, front_of_eq h₁⟩

/-- What is read after two looks at the first two tokens. -/
theorem reads_peekTwo (hr : r.Faithful) {β : Type} {post : β → List TokenKind → Prop}
    {g : Option TokenKind → Option TokenKind → β → Form}
    {next : Option TokenKind → Option TokenKind → Rule Nonterminal β}
    (h : ∀ first second, Reads r (fun ks => pre ks ∧ ks[0]? = first ∧ ks[1]? = second) post
      (g first second) (next first second)) :
    Reads r pre post (fun b => .ahead fun ks => g ks[0]? ks[1]? b)
      (peek 0 >>= fun first => peek 1 >>= fun second => next first second) := by
  refine ((looks_peek 0).bind hr fun first => (looks_peek 1).bind hr fun second =>
    (h first second).weaken fun _ hp => ⟨hp.1.1, hp.1.2, hp.2⟩).congr fun n b ts behind => ?_
  simp only [Form.derives_ahead]

/-- A bound value has the form that the next two tokens ask for, if they ask for one. -/
theorem boundValue_eq : Form.boundValue = .node .bindRhsAtom (.ahead fun ks =>
    (BoundValueForm.ofTokens? ks[0]? ks[1]?).elim .never Form.ofBoundValue) := by
  rw [Form.boundValue]
  congr
  funext ks
  cases BoundValueForm.ofTokens? ks[0]? ks[1]? <;> rfl

theorem reads_boundValue (hr : r.Faithful) :
    Reads r pre anyhow (fun _ => Form.boundValue) boundValue := by
  rw [boundValue_eq]
  refine .node (reads_peekTwo hr (g := fun first second _ =>
    (BoundValueForm.ofTokens? first second).elim .never Form.ofBoundValue) fun first second => ?_) _
  cases hform : BoundValueForm.ofTokens? first second with
  | none => exact (rejects_report hr _).reads
  | some form =>
    have htokens := tokens_of_boundValueForm hform
    cases form with
    | oneToken =>
      obtain ⟨k, hk, rfl⟩ := htokens
      refine reads_bump fun ks hp => (?_ : Front _ anything ks)
      obtain ⟨_, behind, rfl, hmem, -⟩ := front_of_eq hp.2.1
      exact ⟨k, behind, by rw [List.mem_singleton.mp hmem], hk, trivial⟩
    | negativeNumber =>
      obtain ⟨rfl, rfl⟩ := htokens
      exact reads_bump_bump hr fun ks hp => front_front_of_eq hp.2.1 hp.2.2
    | group =>
      obtain rfl : first = some (.punct .lparen) := htokens
      exact (hr.boundGroup.weaken fun ks hp => beq_iff_eq.mpr hp.2.1).ignore
    | name => exact (reads_qualName hr).ignore

/-- What continues a product of bound values is ahead. -/
def atNextValue : Rule Nonterminal Bool := do
  let first ← peek 0
  let second ← peek 1
  let third ← peek 2
  return first == some (.punct .arrow) || tupleCommaAhead first second third

theorem looks_atNextValue : Looks atNextValue Form.valueBehind := by
  intro setting enter s
  simp only [atNextValue, run_bind, run_peek, run_pure, State.kindAt_eq]
  rfl

theorem front_of_valueBehind {ks : List TokenKind} (h : Form.valueBehind ks = true) :
    Front [.punct .arrow, .punct .comma] anything ks := by
  have hmem : Form.atAny [.punct .arrow, .punct .comma] ks = true := by
    cases ks with
    | nil => simp [Form.valueBehind, Form.at?, tupleCommaAhead] at h
    | cons k ks =>
      simp only [Form.valueBehind, Form.at?, tupleCommaAhead, List.getElem?_cons_zero,
        Bool.or_eq_true, Bool.and_eq_true, beq_iff_eq, Option.some.injEq] at h
      obtain rfl | ⟨rfl, -⟩ := h <;> rfl
  exact front_of_atAny hmem

theorem reads_boundProduct (hr : r.Faithful) :
    Reads r pre anyhow (fun _ => Form.boundProduct) boundProduct := by
  have hmore : Reads r anything anyhow (fun _ => .whileAhead Form.valueBehind
      (.token [.punct .arrow, .punct .comma] ++ Form.boundValue)) (repeated do
        let more ← atNextValue
        when more do
          bump
          boundValue
        return more) :=
    reads_whileBump hr looks_atNextValue (fun _ => front_of_valueBehind) (reads_boundValue hr)
  refine .node (.then hr (reads_boundValue hr) (hmore.ofRun (run_repeated_congr fun s => ?_))) _
  simp only [atNextValue, run_bind, run_peek, run_pure]

theorem reads_boundUnion (hr : r.Faithful) :
    Reads r pre anyhow (fun _ => Form.boundUnion) boundUnion :=
  .node (.then hr (reads_boundProduct hr) (reads_separated hr (reads_boundProduct hr))) _

theorem reads_boundGroup (hr : r.Faithful) :
    Reads r (Form.at? (.punct .lparen) · = true) anyhow (Form.yields true Form.boundGroup)
      boundGroup :=
  .yieldsRow [.token [.punct .lparen], Form.boundUnion, .token [.punct .rparen]]
    (List.cons_ne_nil _ _) <| .currentRange fun opener =>
    .bumpThen hr (fun _ => front_of_at?) <| .then hr (reads_boundUnion hr) <|
    .then hr (reads_expectCloser hr _ opener) (reads_pure true)

theorem front_of_joined {ks : List TokenKind} (h : Form.segmentBehind .dot ks = true) :
    Front [.punct .dot] anything ks :=
  front_of_at? (Bool.and_eq_true_iff.mp h).1

/-- One round of what is joined to a name on the left of a bound. -/
def boundRound (simple : Bool) (next : Bool × Bool) : Form :=
  if next.2 then
    if next.1 then .never
    else .look (Form.segmentBehind .dot) ++ (.token [.punct .dot] ++ Form.qualName)
  else if next.1 = simple then .look fun ks => !Form.segmentBehind .dot ks
  else .never

theorem derives_boundPath {n : Nat} {simple whole : Bool} {ts : List Tree}
    {behind : List TokenKind} : (Form.boundPath simple whole).Derives n ts behind ↔
      (boundRound simple (whole, false)).Derives n ts behind ∨
      ∃ next, (boundRound simple (next, true) ++ Form.boundPath next whole).Derives n ts behind := by
  cases simple <;> cases whole <;>
    simp [Form.boundPath, boundRound, Form.row, Form.whileAhead, Form.derives_many_append,
      Form.derives_append_assoc]

/-- Names joined to a name on the left of a bound. -/
theorem reads_boundPath (hr : r.Faithful) (simple : Bool) :
    Reads r pre anyhow (Form.boundPath simple) (loop simple fun simple => do
      let more ← andAlso (currentIs Punct.dot) (nthPasses 1 TokenKind.isNameSegment)
      when more do
        bump
        ignore qualName
      return (simple && !more, more)) := by
  have hl := looks_segmentBehind .dot
  refine Reads.ofAnything (reads_loop hr ?_ (f := boundRound) (g := Form.boundPath)
    (fun simple => ?_) (fun _ _ _ _ _ => derives_boundPath) simple)
  · have hsees : Sees r.setting r.enter
        (andAlso (currentIs Punct.dot) (nthPasses 1 TokenKind.isNameSegment)) :=
      (sees_currentIs _).andAlso fun _ => rfl
    have hround := hsees.guarded (takes_bump.bind hr.steady fun _ => ignore qualName)
    exact fun _ s hs hmore => hround s hs hmore
  · have hjoined : Reads r (fun ks => anything ks ∧ Form.segmentBehind .dot ks = true) anyhow
        (fun p => (.token [.punct .dot] ++ Form.qualName)
          ++ Form.yields (simple && !true, true) .nothing p)
        ((bump >>= fun _ => ignore qualName) >>= fun _ => pure (simple && !true, true)) :=
      .then hr (.bumpThen hr (fun _ h => front_of_joined h.2) (reads_qualName hr).ignore)
        (reads_pure _)
    have hend : Reads r (fun ks => anything ks ∧ Form.segmentBehind .dot ks = false) anyhow
        (fun p => .nothing ++ Form.yields (simple && !false, false) .nothing p)
        (pure () >>= fun _ => pure (simple && !false, false) : Rule Nonterminal (Bool × Bool)) :=
      .then hr reads_done (reads_pure _)
    refine Reads.ofAnyhow ((hl.branch hr hjoined hend).congr fun n p ts behind => ?_)
    obtain ⟨next, more⟩ := p
    cases simple <;> cases next <;> cases more <;>
      cases hv : Form.segmentBehind .dot (kinds ts ++ behind) <;>
      simp [boundRound, Form.derives_given, hv]
    all_goals
      rintro rfl
      simpa using hv

theorem reads_boundLhs (hr : r.Faithful) : Reads r pre anyhow Form.boundLhs boundLhs := by
  refine .node (reads_eat_bind hr (.then hr (reads_qualName hr).ignore (reads_boundPath hr false))
    (.then hr (reads_qualName hr).ignore (reads_boundPath hr true))) _

theorem looks_atBound : Looks atBound fun ks =>
    Form.atAny [.keyword .noKw, .punct .hash] ks || Form.qualNameAhead ks :=
  (looks_currentIn _).orElse looks_atQualName

/-- What is read for either value of a test. -/
theorem derives_either_bool {n : Nat} {f : Bool → Form} {ts : List Tree}
    {behind : List TokenKind} : (Form.either (f true) (f false)).Derives n ts behind
      ↔ ∃ b, (f b).Derives n ts behind := by
  rw [Form.derives_either, Bool.exists_bool, or_comm]

theorem reads_boundRhs (hr : r.Faithful) (hfront : ∀ ahead, pre ahead →
    Front boundOperators anything ahead) :
    Reads r pre anyhow (fun _ => Form.boundRhs) (tokenNode .compareOp >>= fun _ => boundUnion) :=
  .then hr (reads_tokenNode _ hfront) (reads_boundUnion hr)

/-- The relation of a bound; one whose left side is a qualified name needs none. -/
def relation (simple : Bool) : Rule Nonterminal Unit := do
  let related ← currentIn boundOperators
  if related then do
    tokenNode .compareOp
    boundUnion
  else when (!simple) (report .boundOperator)

theorem reads_relation (hr : r.Faithful) (simple : Bool) :
    Reads r pre anyhow (fun _ => if simple then .ifAhead (Form.atAny boundOperators) Form.boundRhs
      else Form.boundRhs) (relation simple) := by
  have hrhs : Reads r (fun ks => pre ks ∧ Form.atAny boundOperators ks = true) anyhow
      (fun _ => Form.boundRhs) (tokenNode .compareOp >>= fun _ => boundUnion) :=
    reads_boundRhs hr fun _ h => front_of_atAny h.2
  cases simple with
  | true => exact (looks_currentIn _).branch hr hrhs reads_done
  | false =>
    refine (looks_currentIn _).require hr hrhs (rejects_report hr _) fun _ => ?_
    exact (((Form.begins_token fun k => List.contains_iff_mem.mpr).node _).append _).any

theorem reads_bound (hr : r.Faithful) : Reads r pre anyhow (fun _ => Form.bound) bound := by
  have hnegative : Reads r anything anyhow
      (fun _ => .either (Form.boundLhs true) (Form.boundLhs false))
      (boundLhs >>= fun _ => pure ()) :=
    Reads.bind hr (g := fun _ _ => .nothing) (reads_boundLhs hr) (fun _ => reads_done)
      (fun _ _ _ _ => by simp only [Form.derives_append_nothing, derives_either_bool])
      (fun _ _ _ _ _ _ => trivial) fun _ _ _ _ _ _ => trivial
  have hpositive : Reads r (fun ks => pre ks ∧ Form.at? (.keyword .noKw) ks = false) anyhow
      (fun _ => .either
        (Form.boundLhs true ++ .ifAhead (Form.atAny boundOperators) Form.boundRhs)
        (Form.boundLhs false ++ Form.boundRhs)) (boundLhs >>= relation) :=
    Reads.bind hr (reads_boundLhs hr) (fun simple => reads_relation hr simple)
      (fun _ _ _ _ => by
        simp only [Form.derives_either, Bool.exists_bool, if_pos]
        exact or_comm)
      (fun _ _ _ _ _ _ => trivial) fun _ _ _ _ _ _ => trivial
  exact .node (reads_eat_bind hr hnegative hpositive) _

/-- What begins a bound. -/
def startsBound (k : TokenKind) : Bool :=
  [.keyword .noKw, .punct .hash].contains k || Form.startsQualName k

/-- A bound is ahead. -/
def boundAhead (ks : List TokenKind) : Bool :=
  Form.atAny [.keyword .noKw, .punct .hash] ks || Form.qualNameAhead ks

theorem shows_boundLhs (simple : Bool) : (Form.boundLhs simple).Shows boundAhead := by
  refine .node (.given ?_ ?_) _
  · refine Form.Shows.mono ((Form.beginsWith_token (.punct .hash)).append _).at? fun ks h => ?_
    obtain ⟨k, behind, rfl, hk, -⟩ := front_of_at? h
    obtain rfl := List.mem_singleton.mp hk
    rfl
  · exact (Form.shows_qualName.append _).mono fun ks h => by simp [boundAhead, h]

theorem shows_bound : Form.bound.Shows boundAhead := by
  refine .node (.given ?_ (.either ((shows_boundLhs _).append _) ((shows_boundLhs _).append _))) _
  refine Form.Shows.mono ((Form.beginsWith_token (.keyword .noKw)).append _).at? fun ks h => ?_
  obtain ⟨k, behind, rfl, hk, -⟩ := front_of_at? h
  obtain rfl := List.mem_singleton.mp hk
  rfl

theorem begins_boundLhs (simple : Bool) :
    (Form.boundLhs simple).Begins (startsBound · = true) := by
  refine .node (.given ?_ ?_) _
  · exact ((Form.beginsWith_token _).append _).mono fun k hk => by rw [hk]; rfl
  · exact (Form.begins_qualName.append _).mono fun k hk => by simp [startsBound, hk]

theorem begins_bound : Form.bound.Begins (startsBound · = true) := by
  refine .node (.given ?_ (.either ((begins_boundLhs _).append _) ((begins_boundLhs _).append _))) _
  exact ((Form.beginsWith_token _).append _).mono fun k hk => by rw [hk]; rfl

theorem reads_bounds (hr : r.Faithful) : Reads r pre anyhow (fun _ => Form.bounds) bounds := by
  have hitem : Tries r Form.bound (atBound >>= fun present => when present bound) :=
    looks_atBound.tries (reads_bound hr) shows_bound
  have hbraces : Reads r (fun ks => anything ks ∧ Form.at? (.punct .lbrace) ks = true) anyhow
      (fun _ => .row [.token [.punct .lbrace], .many Form.bound, .token [.punct .rbrace]]) (do
        let opener ← currentRange
        bump
        within .bounds <| items .rbrace .malformedBound do
          let present ← atBound
          when present bound
        ignore (expectCloser Punct.rbrace opener)) :=
    .currentRange fun opener => .bumpThen hr (fun _ h => front_of_at? h.2) <|
      .closed hr ((reads_items hr hitem ?_).within _) (reads_expectCloser hr _ opener)
  · exact .node (.then hr (reads_optional hr) ((looks_currentIs _).branch hr hbraces
      (looks_atQualName.require hr (reads_qualName hr).ignore (rejects_report hr _)
        fun _ => Form.shows_qualName))) _
  · exact begins_bound.mono fun k hk hne => by rw [hne] at hk; cases hk

/-! ### Blocks and binders -/

theorem reads_block (hr : r.Faithful) : Reads r pre anyhow (fun _ => Form.block) block := by
  refine .node (.currentRange fun opener => .then hr (reads_expect hr _) ?_) _
  have hbegins : Form.expr.Begins (· ≠ .punct .rbrace) := Form.begins_exprAt_ne rfl
  exact .closed hr ((reads_items hr (reads_expr hr).tries hbegins).within _)
    (reads_expectCloser hr _ opener)

theorem reads_quantDecl (hr : r.Faithful) :
    Reads r pre anyhow (fun _ => Form.quantDecl) quantDecl :=
  .node (.then hr (reads_optional hr) <| .then hr (reads_nameList hr).ignore <|
    .then hr (reads_expect hr _) <| .then hr (reads_optionalMult hr _) (reads_expr hr)) _

theorem reads_quantDecls (hr : r.Faithful) :
    Reads r pre anyhow (fun _ => Form.quantDecls) quantDecls := by
  have hlook : Looks (andAlso (currentIs Punct.comma) (ahead declarationBehind))
      Form.commaDeclaration := (looks_currentIs _).andAlso (looks_ahead _)
  exact .then hr (reads_quantDecl hr) (reads_whileBump hr hlook
    (fun _ h => front_of_at? (Bool.and_eq_true_iff.mp h).1) (reads_quantDecl hr))

theorem reads_binderBody (hr : r.Faithful) :
    Reads r pre anyhow (fun _ => Form.binderBody) binderBody :=
  reads_eat_bind hr (reads_expr hr) ((looks_currentIs _).require hr (reads_block hr)
    (rejects_report hr _) fun _ => Form.beginsWith_block.at?)

theorem looks_atQuantifier : Looks atQuantifier Form.quantifierAhead :=
  (looks_currentIn _).andAlso (looks_ahead _)

theorem looks_atBinder : Looks atBinder Form.binderAhead :=
  (looks_nthPasses 0 _).orElse looks_atQuantifier

theorem reads_quantified (hr : r.Faithful) (quantifier : TokenKind) :
    Reads r (Form.at? quantifier · = true) anyhow (fun _ => Form.quantified quantifier)
      (quantified quantifier) :=
  .node (.bumpThen hr (fun _ => front_of_at?) <| (looks_ahead _).pickThen hr (reads_quantDecls hr)
    (rejects_report hr _) (reads_binderBody hr)) _

theorem reads_letDecl (hr : r.Faithful) : Reads r pre anyhow (fun _ => Form.letDecl) letDecl :=
  .node (.then hr (reads_name hr).ignore <| .then hr (reads_expect hr _) (reads_expr hr)) _

theorem reads_bindings (hr : r.Faithful) (kind : NodeKind) (keyword : TokenKind) :
    Reads r (Form.at? keyword · = true) anyhow (fun _ => Form.bindings kind keyword)
      (bindings kind) :=
  .node (.bumpThen hr (fun _ => front_of_at?) <| .then hr (reads_letDecl hr) <|
    .then hr (reads_whileBump hr looks_atCommaName (fun _ => front_of_commaName)
      (reads_letDecl hr)) (reads_binderBody hr)) _

theorem reads_binder (hr : r.Faithful) (keyword : TokenKind) :
    Reads r (Form.at? keyword · = true) anyhow (fun _ => Form.binder keyword)
      (binder keyword) := by
  unfold Form.binder
  split
  · exact reads_bindings hr _ _
  · exact reads_bindings hr _ _
  · next hlet hbind =>
    have hrule : binder keyword = quantified keyword := by
      unfold binder
      split
      · exact absurd rfl hlet
      · exact absurd rfl hbind
      · rfl
    rw [hrule]
    exact reads_quantified hr keyword

/-! ### Atoms -/

theorem reads_parenthesized (hr : r.Faithful) :
    Reads r (Form.at? (.punct .lparen) · = true) anyhow (fun _ => Form.parenthesized)
      parenthesized :=
  .node (.currentRange fun opener => .bumpThen hr (fun _ => front_of_at?) <|
    .then hr ((reads_expr hr).within _) (reads_expectCloser hr _ opener)) _

theorem reads_comprehension (hr : r.Faithful) :
    Reads r (Form.at? (.punct .lbrace) · = true) anyhow (fun _ => Form.comprehension)
      comprehension := by
  refine .node (.currentRange fun opener => .bumpThen hr (fun _ => front_of_at?) ?_) _
  have hbody : Reads r anything anyhow (fun _ => .given (Form.at? (.punct .bar))
      (.token [.punct .bar] ++ Form.expr) (.ifAhead (Form.at? (.punct .lbrace)) Form.block)) (do
        let bar ← eat Punct.bar
        if bar then ignore expr
        else
          let brace ← currentIs Punct.lbrace
          when brace block) :=
    reads_eat_bind hr (reads_expr hr) ((looks_currentIs _).when hr (reads_block hr))
  refine (Reads.then hr ((Reads.then hr (reads_quantDecls hr) hbody).within _)
    (reads_expectCloser hr _ opener)).congr fun n _ ts behind => ?_
  exact Form.derives_append_assoc.symm

/-- The tokens that tell the form of an atom. -/
theorem tokens_of_atomForm {first second : Option TokenKind} {form : AtomForm}
    (h : AtomForm.ofTokens? first second = some form) :
    match form with
    | .negativeNumber => second = some .number
    | .atName => second = some .ident
    | .parenthesized => first = some (.punct .lparen)
    | .braced => first = some (.punct .lbrace)
    | .oneToken _ | .nameRef => True := by
  unfold AtomForm.ofTokens? at h
  split at h
  all_goals simp only [Option.ite_none_right_eq_some, Option.some.injEq, reduceCtorEq, beq_iff_eq] at h
  all_goals first
    | obtain ⟨rfl, rfl⟩ := h
      rfl
    | subst h
      trivial
    | split at h <;> obtain rfl := Option.some.inj h <;> trivial

/-- The atom of a form, in front of the tokens that tell it. -/
theorem reads_ofAtom (hr : r.Faithful) {k : TokenKind} {second : Option TokenKind}
    {form : AtomForm} (h : AtomForm.ofTokens? (some k) second = some form) :
    Reads r (fun ks => ks[0]? = some k ∧ ks[1]? = second) anyhow (fun _ => Form.ofAtom k form)
      form.rule := by
  have htokens := tokens_of_atomForm h
  cases form with
  | oneToken kind => exact reads_tokenNode _ fun _ hp => front_of_eq hp.1
  | negativeNumber =>
    obtain rfl : second = some .number := htokens
    exact .node (reads_bump_bump hr fun _ hp => front_front_of_eq hp.1 hp.2) _
  | nameRef => exact .node (reads_qualName hr).ignore _
  | atName =>
    obtain rfl : second = some .ident := htokens
    exact .node (.bumpThen hr (fun _ hp => front_front_of_eq hp.1 hp.2)
      (reads_tokenNode _ fun _ => id)) _
  | parenthesized =>
    obtain rfl := Option.some.inj htokens
    exact (reads_parenthesized hr).weaken fun _ hp => beq_iff_eq.mpr hp.1
  | braced =>
    obtain rfl := Option.some.inj htokens
    exact (looks_ahead _).branch hr
      ((reads_comprehension hr).weaken fun _ hp => beq_iff_eq.mpr hp.1.1) (reads_block hr)

/-- The form of an atom in front of a token, and whether there is one. -/
def atomOf (k : TokenKind) (second : Option TokenKind) (present : Bool) : Form :=
  match AtomForm.ofTokens? (some k) second with
  | some form => Form.ofAtom k form ++ .yields true .nothing present
  | none => .yields false .nothing present

theorem reads_atom (hr : r.Faithful) (k : TokenKind) :
    Reads r (fun ks => ks[0]? = some k) anyhow
      (fun present => .ahead fun ks => atomOf k ks[1]? present) atom := by
  refine reads_peekTwo hr (g := fun _ second => atomOf k second) fun first second => ?_
  refine .knowing (p := some k = first) (fun ks hp => hp.1.symm.trans hp.2.1) ?_
  rintro rfl
  unfold atomOf
  cases hform : AtomForm.ofTokens? (some k) second with
  | none => exact reads_pure false
  | some form =>
    exact .then hr ((reads_ofAtom hr hform).weaken fun _ hp => hp.2) (reads_pure true)

/-- An operator in front of its operand. -/
theorem reads_frontBody (hr : r.Faithful) (row : OperatorRow) (k : TokenKind) :
    Reads r (fun ks => ks[0]? = some k) anyhow
      (fun _ => .token [k] ++ Form.exprAt row.operandLevel) (frontBody row k) :=
  .behindNothing hr (reads_whenTemporal hr _)
    (.bumpThen hr (fun _ => front_of_eq) (reads_operand hr _ k))

/-- What an expression begins with in front of a token, and whether there is anything. -/
def headOf (first : Option TokenKind) (isBinder present : Bool) : Form :=
  match first with
  | none => .yields false .nothing present
  | some k =>
    if isBinder then Form.binder k ++ .yields true .nothing present
    else match Operator.frontRow? k with
      | some row =>
        .node row.node (.token [k] ++ Form.exprAt row.operandLevel) ++ .yields true .nothing present
      | none => .ahead fun ks => atomOf k ks[1]? present

theorem derives_headOf {n : Nat} {ts : List Tree} {behind : List TokenKind} :
    Form.operandHead.Derives n ts behind ↔ (headOf (kinds ts ++ behind)[0]?
      (Form.binderAhead (kinds ts ++ behind)) true).Derives n ts behind := by
  rw [Form.operandHead, Form.derives_ahead]
  cases (kinds ts ++ behind)[0]? with
  | none => simp [headOf, Form.derives_yields]
  | some k =>
    dsimp only [headOf]
    cases Form.binderAhead (kinds ts ++ behind) with
    | true => simp
    | false =>
      simp only [Bool.false_eq_true, if_false]
      cases Operator.frontRow? k with
      | some row => simp
      | none =>
        rw [Form.derives_ahead, atomOf]
        cases AtomForm.ofTokens? (some k) (kinds ts ++ behind)[1]? with
        | some form => simp
        | none => simp [Form.derives_yields]

theorem finds_operandHead (hr : r.Faithful) : Finds r Form.operandHead operandHead := by
  have hread : Reads r anything anyhow
      (fun present => .ahead fun ks => .ahead fun ks' =>
        headOf ks[0]? (Form.binderAhead ks') present) operandHead := by
    refine (looks_peek 0).bind hr (g := fun first present => .ahead fun ks' =>
      headOf first (Form.binderAhead ks') present) fun first => looks_atBinder.bind hr
      (g := fun isBinder present => headOf first isBinder present) fun isBinder => ?_
    cases first with
    | none => exact reads_pure false
    | some k =>
      cases isBinder with
      | true =>
        exact .then hr ((reads_binder hr k).weaken fun ks hp => beq_iff_eq.mpr hp.1.2)
          (reads_pure true)
      | false =>
        simp only [headOf, Bool.false_eq_true, if_false]
        cases hrow : Operator.frontRow? k with
        | some row =>
          exact .then hr (((reads_frontBody hr row k).weaken fun ks hp => hp.1.2).node _)
            (reads_pure true)
        | none => exact (reads_atom hr k).weaken fun ks hp => hp.1.2
  refine hread.finds fun n ts behind => ?_
  rw [Form.derives_ahead, Form.derives_ahead, derives_headOf]

end RelLang.Grammar
