import RelLang.Proofs.Syntax.Expression

/-!
# What commands and assertions are read from

The rules for scopes, commands, instances and assertions read the forms of these
names. An assertion is told by what stands behind the expression in it, so its node
is made when that has been read.
-/

namespace RelLang.Grammar

open Rule
open Tree (kinds)

variable {r : Reader} {pre : List TokenKind → Prop}

/-! ### Scopes -/

theorem reads_typescope (hr : r.Faithful) :
    Reads r pre anyhow (fun _ => Form.typescope) typescope := by
  have hnumber : Reads r anything anyhow (fun _ => .token [.number] ++ Form.qualName) (do
      let number ← currentIs .number
      if number then do
        bump
        ignore qualName
      else report .typescope) :=
    (looks_currentIs _).require hr (.bumpThen hr (fun _ h => front_of_at? h.2)
      (reads_qualName hr).ignore) (rejects_report hr _)
      fun _ => ((Form.beginsWith_token _).append _).at?
  exact .node (.then hr (reads_optional hr) hnumber) _

theorem front_of_commaTypescope {ks : List TokenKind} (h : Form.commaTypescope ks = true) :
    Front [.punct .comma] anything ks :=
  front_of_at? (Bool.and_eq_true_iff.mp h).1

theorem reads_typescopes (hr : r.Faithful) :
    Reads r pre anyhow (fun _ => Form.typescopes) typescopes := by
  have hlook : Looks (andAlso (currentIs Punct.comma)
      (nthPasses 1 [.number, .keyword .exactlyKw].contains)) Form.commaTypescope :=
    (looks_currentIs _).andAlso (looks_nthPasses _ _)
  exact .then hr (reads_typescope hr)
    (reads_whileBump hr hlook (fun _ => front_of_commaTypescope) (reads_typescope hr))

theorem looks_atScope : Looks atScope Form.scopeAhead :=
  (looks_currentIs _).andAlso
    ((looks_nthIs _ _).orElse ((looks_nthIs _ _).andAlso (looks_nthIs _ _)))

theorem looks_atTypescope : Looks atTypescope Form.typescopeAhead :=
  (looks_currentIs _).orElse ((looks_currentIs _).andAlso
    ((looks_nthPasses _ _).orElse ((looks_nthIs _ _).andAlso (looks_nthIs _ _))))

theorem reads_scope (hr : r.Faithful) : Reads r pre anyhow (fun _ => Form.scope) scope := by
  have hdefault : Reads r anything anyhow (fun _ => .token [.number]
      ++ .ifAhead (Form.at? (.keyword .butKw)) (.token [.keyword .butKw] ++ Form.typescopes))
      (currentIs .number >>= fun number =>
        if number then do
          bump
          let but ← eat Keyword.butKw
          when but typescopes
        else report .scope) :=
    (looks_currentIs _).require hr (.bumpThen hr (fun _ h => front_of_at? h.2)
      (reads_eat_when hr (reads_typescopes hr))) (rejects_report hr _)
      fun _ => ((Form.beginsWith_token _).append _).at?
  refine .node (.within (.then hr (reads_expect hr _) ?_) _) _
  exact looks_atTypescope.branch hr ((looks_currentIs .number).same hr fun _ => reads_typescopes hr)
    hdefault.ofAnything

theorem reads_scopeAndBounds (hr : r.Faithful) :
    Reads r pre anyhow (fun _ => Form.scopeAndBounds) scopeAndBounds :=
  looks_atScope.whenThen hr (reads_scope hr) (reads_eat_when hr (reads_bounds hr))

/-! ### Commands and instances -/

theorem reads_optionalTarget (hr : r.Faithful) :
    Reads r pre anyhow (fun _ => Form.optionalTarget) optionalTarget := by
  refine looks_atQualName.branch hr
    ((looks_currentIs (.punct .lbrace)).same hr fun _ => (reads_qualName hr).ignore) ?_
  exact (looks_currentIs _).when hr (reads_block hr)

/-- A name is one token. -/
theorem kinds_of_name {n : Nat} {ts : List Tree} {behind : List TokenKind}
    (h : Form.name.Derives n ts behind) : kinds ts = [.ident] := by
  obtain ⟨us, rfl, hus⟩ := Form.derives_node.mp h
  obtain ⟨k, text, hk, rfl⟩ := Form.derives_token.mp hus
  rw [List.mem_singleton.mp hk]
  rfl

/-- A name with a colon behind it. -/
theorem reads_label (hr : r.Faithful) :
    Reads r (Front [.ident] (Front [.punct .colon] anything)) anyhow
      (fun _ => Form.name ++ .token [.punct .colon])
      (ignore name >>= fun _ => bump : Rule Nonterminal Unit) := by
  have hcolon : Reads r (Front [.punct .colon] anything) anyhow
      (fun _ => .token [.punct .colon]) bump := reads_bump fun _ => id
  refine (reads_name hr).ignore.thenKnown hr hcolon fun n ts behind hts hfront => ?_
  obtain ⟨k, rest, heq, -, hcolon⟩ := hfront
  rw [kinds_of_name hts] at heq
  obtain ⟨-, rfl⟩ := List.cons.inj heq
  exact hcolon

theorem reads_cmdDecl (hr : r.Faithful) :
    Reads r (fun ks => Form.at? .ident ks = true → ks[1]? = some (.punct .colon)) anyhow
      (fun _ => Form.cmdDecl) cmdDecl := by
  have hcommand : Reads r anything anyhow (fun _ => .row
      [.token [.keyword .runKw, .keyword .checkKw], Form.optionalTarget, Form.scopeAndBounds]) (do
      let command ← currentIn [.keyword .runKw, .keyword .checkKw]
      pick command bump (report .command)
      optionalTarget
      scopeAndBounds) :=
    (looks_currentIn _).require hr (.bumpThen hr (fun _ h => front_of_atAny h.2)
      (.then hr (reads_optionalTarget hr) (reads_scopeAndBounds hr)))
      ((rejects_report hr _).bind hr _) fun _ =>
        ((Form.begins_token fun _ => List.contains_iff_mem.mpr).append _).any
  refine .node ((looks_currentIs _).whenThen hr ((reads_label hr).weaken fun ks hp => ?_)
    hcommand) _
  exact front_front_of_eq (beq_iff_eq.mp hp.2) (hp.1 hp.2)

theorem reads_instDecl (hr : r.Faithful) :
    Reads r (Form.at? (.keyword .instKw) · = true) anyhow (fun _ => Form.instDecl) instDecl :=
  .node (.bumpThen hr (fun _ => front_of_at?) <| .then hr (reads_name hr).ignore <|
    .then hr (reads_bounds hr) (looks_atScope.when hr (reads_scope hr))) _

/-! ### What is asserted -/

theorem looks_atProperty : Looks atProperty Form.propertyAhead :=
  (looks_currentIs _).andAlso (looks_nthPasses _ _)

/-- A block that is asserted, and the operators behind it. -/
def assertedBlock : Rule Nonterminal Asserted := do
  group do
    block
    extend 0
  let tagged ← currentIs Keyword.isKw
  return if tagged then .expression else .plain

theorem reads_assertedBlock (hr : r.Faithful) :
    Reads r pre anyhow Form.assertedBlock assertedBlock :=
  .then hr (reads_extendedAt hr (reads_block hr)) ((looks_currentIs _).bind hr
    (g := fun tagged body => Form.yields (if tagged then Asserted.expression else .plain) .nothing
      body) fun _ => reads_pure _)

/-- `'all' QuantDecl (',' QuantDecl)* BinderBody`. -/
def universal : Rule Nonterminal Unit := do
  bump
  quantDecls
  binderBody

theorem reads_universal (hr : r.Faithful) :
    Reads r (Form.at? (.keyword .allKw) · = true) anyhow (fun _ => Form.universal) universal :=
  .bumpThen hr (fun _ => front_of_at?) (.then hr (reads_quantDecls hr) (reads_binderBody hr))

/-- What is asserted is put into the node of an expression, unless the word of a property is behind
it. -/
def unlessProperty (first : Rule Nonterminal Unit) : Rule Nonterminal Asserted := do
  first
  let property ← atProperty
  if property then return .quantified
  else do
    enclose .quantExpr (return ())
    return .expression

theorem run_unlessProperty (first : Rule Nonterminal Unit) (s : State) :
    (unlessProperty first).run r.setting r.enter s =
      if Form.propertyAhead (first.run r.setting r.enter s).2.kinds
      then (.quantified, (first.run r.setting r.enter s).2)
      else (.expression, { (first.run r.setting r.enter s).2 with siblings :=
        [.node .quantExpr (first.run r.setting r.enter s).2.siblings.reverse] }) := by
  rw [unlessProperty, run_bind, run_bind, looks_atProperty, run_ite]
  rfl

theorem reports_unlessProperty (first : Rule Nonterminal Unit) (s : State) :
    ((unlessProperty first).run r.setting r.enter s).2.reports
      = (first.run r.setting r.enter s).2.reports := by
  rw [run_unlessProperty]
  split <;> rfl

theorem reads_unlessProperty (hr : r.Faithful) {first : Rule Nonterminal Unit}
    (h : Reads r pre anyhow (fun _ => Form.universal) first) :
    Reads r pre anyhow Form.assertedUniversal (group (unlessProperty first)) := by
  refine .group (fun s hs hempty hp hclean => ?_) fun s body ts behind hs hempty ht hp hinput _ hts
    hpass => ?_
  · rw [reports_unlessProperty] at hclean
    obtain ⟨ts, hbare, hts⟩ := h.sound s hs hp hclean
    rw [hempty, List.nil_append] at hbare
    rw [run_unlessProperty]
    subst hbare
    split
    · next hproperty =>
      exact hts.then_look hproperty
    · next hproperty =>
      have hexpr : (!Form.propertyAhead (first.run r.setting r.enter s).2.kinds) = true := by
        simpa using hproperty
      rw [bare_wrap]
      exact .then_look (.node hts) hexpr
  · rw [reports_unlessProperty] at hpass
    have hread : ∀ us, s.input = Tree.leavesAll us ++ behind →
        Form.universal.Derives r.limit us (behind.map (·.1)) →
        State.Took us s (first.run r.setting r.enter s).2 ∧
          (first.run r.setting r.enter s).2.kinds = behind.map (·.1) := by
      intro us hus hf
      have htook := (h.complete s () us behind hs ht hp hus trivial hf hpass).2
      refine ⟨htook, ?_⟩
      rw [State.kinds_eq, (reaches_run r.setting hr.steady first s).input_behind hs htook.bare hus]
    cases body with
    | plain => exact absurd hts Form.not_derives_never
    | quantified =>
      obtain ⟨hus, hproperty⟩ := Form.derives_append_look.mp hts
      obtain ⟨htook, hkinds⟩ := hread ts hinput hus
      rw [run_unlessProperty, hkinds, if_pos hproperty]
      exact ⟨rfl, htook⟩
    | expression =>
      obtain ⟨hnode, hproperty⟩ := Form.derives_append_look.mp hts
      obtain ⟨us, rfl, hus⟩ := Form.derives_node.mp hnode
      rw [Tree.leavesAll_singleton, Tree.leaves] at hinput
      obtain ⟨htook, hkinds⟩ := hread us hinput hus
      rw [run_unlessProperty, hkinds, if_neg (by simpa using hproperty)]
      refine ⟨rfl, ?_, htook.reports⟩
      rw [bare_wrap, htook.bare, hempty, List.nil_append, List.nil_append]

theorem reads_assertedUniversal (hr : r.Faithful) :
    Reads r (Form.at? (.keyword .allKw) · = true) anyhow Form.assertedUniversal
      (group (unlessProperty universal)) :=
  reads_unlessProperty hr (reads_universal hr)

/-- What is asserted, told by what is ahead. -/
def assertedAhead : Rule Nonterminal Asserted := do
  let named ← ahead Form.namedBlockAhead
  if named then do
    ignore name
    block
    return .plain
  else do
    let brace ← ahead Form.blockAhead
    if brace then assertedBlock
    else do
      let all ← ahead Form.universalAhead
      if all then group (unlessProperty universal)
      else do
        ignore expr
        return .expression

theorem looks_asserted (brace all : Bool) :
    Looks (andAlso (return brace || all) (ahead declarationBehind) : Rule Nonterminal Bool)
      fun ks => (brace || all) && declarationBehind ks :=
  (looks_pure _).andAlso (looks_ahead _)

theorem run_universalGroup {setting : Setting} {enter : Nonterminal → State → Bool × State}
    (s : State) : (group (do
      bump
      quantDecls
      binderBody
      let property ← atProperty
      if property then return Asserted.quantified
      else do
        enclose .quantExpr (return ())
        return .expression) : Rule Nonterminal Asserted).run setting enter s
      = (group (unlessProperty universal)).run setting enter s := by
  simp only [run_group, unlessProperty, universal, run_bind]

theorem run_asserted {setting : Setting} {enter : Nonterminal → State → Bool × State} (s : State) :
    asserted.run setting enter s = assertedAhead.run setting enter s := by
  have hnamed : Looks (andAlso (currentIs .ident) (nthIs 1 Punct.lbrace) : Rule Nonterminal Bool)
      Form.namedBlockAhead := (looks_currentIs _).andAlso (looks_nthIs _ _)
  simp only [asserted, assertedAhead, run_bind, hnamed setting, run_currentIs,
    looks_asserted _ _ setting, run_ahead, run_ite, run_universalGroup, assertedBlock, run_pure]
  have hbrace : Form.blockAhead s.kinds
      = (s.kindAt 0 == some (.punct .lbrace) && !declarationBehind s.kinds) := by
    rw [State.kindAt_eq]
    rfl
  have hall : Form.universalAhead s.kinds
      = (s.kindAt 0 == some (.keyword .allKw) && declarationBehind s.kinds) := by
    rw [State.kindAt_eq]
    rfl
  rw [hbrace, hall]
  cases Form.namedBlockAhead s.kinds <;> cases s.kindAt 0 == some (.punct .lbrace) <;>
    cases s.kindAt 0 == some (.keyword .allKw) <;> cases declarationBehind s.kinds <;> rfl

theorem reads_asserted (hr : r.Faithful) :
    Reads r pre anyhow Form.asserted asserted := by
  refine Reads.ofRun ?_ fun s => run_asserted s
  refine (looks_ahead _).branch hr ?_ ((looks_ahead _).branch hr (reads_assertedBlock hr)
    ((looks_ahead _).branch hr ((reads_assertedUniversal hr).weaken fun ks hp => ?_) ?_))
  · exact Reads.yieldsRow [Form.name, Form.block] (List.cons_ne_nil _ _) <|
      .then hr (reads_name hr).ignore <| .then hr (reads_block hr) (reads_pure _)
  · exact (Bool.and_eq_true_iff.mp hp.2).1
  · exact Reads.yieldsRow [Form.expr] (List.cons_ne_nil _ _) <|
      .then hr (reads_expr hr) (reads_pure _)

/-! ### Assertions -/

theorem reads_optionalArguments (hr : r.Faithful) :
    Reads r pre anyhow (fun _ => Form.optionalArguments) optionalArguments :=
  (looks_currentIs _).when hr <| .currentRange fun opener =>
    .bumpThen hr (fun _ h => front_of_at? h.2) <|
    .closed hr (reads_arguments hr) (reads_expectCloser hr _ opener)

theorem mem_tagKinds {quantified : Bool} {k : TokenKind} {form : AssertionForm}
    (h : AssertionForm.ofTag? quantified k = some form) : k ∈ Form.tagKinds form := by
  unfold AssertionForm.ofTag? at h
  split at h
  all_goals cases quantified <;> cases h <;> decide

theorem front_of_tagAhead {quantified : Bool} {form : AssertionForm} {ks : List TokenKind}
    (h : Form.tagAhead quantified form ks = true) :
    Front [.keyword .isKw] (Front (Form.tagKinds form) anything) ks := by
  obtain ⟨his, htag⟩ := Bool.and_eq_true_iff.mp h
  obtain ⟨k, behind, rfl, hk, -⟩ := front_of_at? his
  obtain ⟨tag, hbehind, hform⟩ := Option.bind_eq_some_iff.mp (beq_iff_eq.mp htag)
  refine ⟨k, behind, rfl, hk, ?_⟩
  have hsecond : behind[0]? = some tag := hbehind
  obtain ⟨k, rest, rfl, hk, -⟩ := front_of_eq hsecond
  exact ⟨k, rest, rfl, by rw [List.mem_singleton.mp hk]; exact mem_tagKinds hform, trivial⟩

/-- The word behind `is`, and what is read behind it whatever the word is. -/
theorem reads_tag (hr : r.Faithful) {form : AssertionForm} {g : Form}
    {next : Rule Nonterminal Unit} (h : Reads r anything anyhow (fun _ => g) next) :
    Reads r (Front (Form.tagKinds form) anything) anyhow
      (fun _ => .token (Form.tagKinds form) ++ g)
      (currentIs Keyword.forgeErrorKw >>= fun _ => bump >>= fun _ => next) :=
  (looks_currentIs (.keyword .forgeErrorKw)).same hr fun _ => .bumpThen hr (fun _ hp => hp.1) h

/-- The result of a satisfiability assertion. -/
theorem reads_satisfiability (hr : r.Faithful) :
    Reads r (Front (Form.tagKinds .satisfiability) anything) anyhow
      (fun _ => Form.ofAssertion .satisfiability)
      (currentIs Keyword.forgeErrorKw >>= fun failing => bump >>= fun _ =>
        when failing (ignore (eat .filePath)) >>= fun _ => scopeAndBounds) := by
  have hfailing : Reads r (fun ks => Front (Form.tagKinds .satisfiability) anything ks ∧
      Form.at? (.keyword .forgeErrorKw) ks = true) anyhow
      (fun _ => .token [.keyword .forgeErrorKw] ++ (.optional .filePath ++ Form.scopeAndBounds))
      (bump >>= fun _ => ignore (eat .filePath) >>= fun _ => scopeAndBounds) :=
    .bumpThen hr (fun _ hp => front_of_at? hp.2)
      (.then hr (reads_optional hr) (reads_scopeAndBounds hr))
  have hother : Reads r (fun ks => Front (Form.tagKinds .satisfiability) anything ks ∧
      Form.at? (.keyword .forgeErrorKw) ks = false) anyhow
      (fun _ => .token (Form.tagKinds .satisfiability) ++ (.nothing ++ Form.scopeAndBounds))
      (bump >>= fun _ => pure () >>= fun _ => scopeAndBounds) :=
    .bumpThen hr (fun _ hp => hp.1) (.then hr reads_done (reads_scopeAndBounds hr))
  have hread : Reads r (Front (Form.tagKinds .satisfiability) anything) anyhow
      (fun _ => .given (Form.at? (.keyword .forgeErrorKw))
        (.token [.keyword .forgeErrorKw] ++ (.optional .filePath ++ Form.scopeAndBounds))
        (.token (Form.tagKinds .satisfiability) ++ (.nothing ++ Form.scopeAndBounds)))
      (currentIs Keyword.forgeErrorKw >>= fun failing => bump >>= fun _ =>
        when failing (ignore (eat .filePath)) >>= fun _ => scopeAndBounds) :=
    (looks_currentIs _).branch hr hfailing hother
  refine hread.congr fun n _ ts behind => ?_
  rw [Form.ofAssertion, Form.result, Form.derives_given_append, Form.derives_given,
    Form.derives_append_assoc]
  simp only [Form.derives_append (f := .token _), Form.derives_nothing_append]

theorem reads_assertionTail (hr : r.Faithful) (quantified : Bool) (form : AssertionForm) :
    Reads r (Form.tagAhead quantified form · = true) anyhow
      (fun _ => .token [.keyword .isKw] ++ Form.ofAssertion form) (assertionTail form) := by
  refine .bumpThen hr (fun _ => front_of_tagAhead) ?_
  cases form with
  | property =>
    exact reads_tag hr <| .then hr (reads_expect hr _) <| .then hr (reads_name hr).ignore
      (reads_scopeAndBounds hr)
  | quantifiedProperty =>
    exact reads_tag hr <| .then hr (reads_expect hr _) <| .then hr (reads_name hr).ignore <|
      .then hr (reads_optionalArguments hr) (reads_scopeAndBounds hr)
  | satisfiability => exact reads_satisfiability hr
  | consistency =>
    exact reads_tag hr <| .then hr (reads_expect hr _) <| .then hr (reads_name hr).ignore
      (reads_scopeAndBounds hr)

/-- What closes an assertion, told by what is asserted and the word behind it. -/
def assertionEnd (body : Asserted) : Rule Nonterminal Bool :=
  if body == .plain then do
    enclose .assertDecl (return ())
    return false
  else do
    let tagged ← currentIs Keyword.isKw
    let tag ← peek 1
    match if tagged then tag.bind (AssertionForm.ofTag? (body == .quantified)) else none with
    | some form => do
      enclose form.node (assertionTail form)
      return true
    | none => do
      enclose .assertDecl (report .assertionTag)
      return true

theorem run_assertionEnd_plain (s : State) :
    (assertionEnd .plain).run r.setting r.enter s
      = (false, { s with siblings := [.node .assertDecl s.siblings.reverse] }) := (rfl)

/-- The form that the word behind `is` tells, if there is one. -/
def tagOf (quantified : Bool) (ks : List TokenKind) : Option AssertionForm :=
  if Form.at? (.keyword .isKw) ks then ks[1]?.bind (AssertionForm.ofTag? quantified) else none

theorem tagOf_eq_some {quantified : Bool} {ks : List TokenKind} {form : AssertionForm} :
    tagOf quantified ks = some form ↔ Form.tagAhead quantified form ks = true := by
  rw [tagOf, Form.tagAhead]
  split
  · next h => simp [h]
  · next h => simp [h]

theorem run_assertionEnd {body : Asserted} (hbody : body ≠ .plain) (s : State) :
    (assertionEnd body).run r.setting r.enter s =
      match tagOf (body == .quantified) s.kinds with
      | some form => (true, { ((assertionTail form).run r.setting r.enter s).2 with siblings :=
          [.node form.node ((assertionTail form).run r.setting r.enter s).2.siblings.reverse] })
      | none => (true, { s.report r.setting .assertionTag with siblings :=
          [.node .assertDecl (s.report r.setting .assertionTag).siblings.reverse] }) := by
  have htag : (if s.kindAt 0 == some (.keyword .isKw)
      then (s.kindAt 1).bind (AssertionForm.ofTag? (body == .quantified)) else none)
      = tagOf (body == .quantified) s.kinds := by
    rw [State.kindAt_eq, State.kindAt_eq]
    rfl
  rw [assertionEnd, if_neg (by simpa using hbody), run_bind, run_currentIs, run_bind, run_peek]
  dsimp only
  rw [htag]
  cases tagOf (body == .quantified) s.kinds <;> rfl

/-- The word of a property is behind declarations that stand by themselves. -/
theorem propertyAhead_of_quantified {n : Nat} {ts : List Tree} {behind : List TokenKind}
    (h : (Form.assertionHead .quantified).Derives n ts behind) :
    Form.propertyAhead behind = true := by
  obtain ⟨us, vs, rfl, -, hasserted⟩ := Form.derives_append.mp h
  rw [Form.asserted, Form.derives_given, Form.derives_given, Form.derives_given] at hasserted
  split at hasserted
  · cases (Form.derives_yields.mp hasserted).1
  split at hasserted
  · obtain ⟨us', vs, rfl, -, hyields⟩ := Form.derives_append.mp hasserted
    rw [Form.derives_ahead, Form.derives_yields] at hyields
    have hvalue := hyields.1
    split at hvalue <;> cases hvalue
  split at hasserted
  · exact (Form.derives_append_look.mp hasserted).2
  · cases (Form.derives_yields.mp hasserted).1

/-- The forms of assertions with what they assert. -/
def assertionForms : List (Asserted × AssertionForm) :=
  [(.expression, .property), (.quantified, .quantifiedProperty), (.expression, .satisfiability),
   (.expression, .consistency)]

theorem derives_assertion_true {n : Nat} {ts : List Tree} {behind : List TokenKind} :
    (Form.assertion true).Derives n ts behind
      ↔ ∃ p ∈ assertionForms, (Form.tagged p.1 p.2).Derives n ts behind := by
  simp [Form.assertion, Form.derives_anyOf, assertionForms]

/-- The word tells a form that asserts what has been read. -/
theorem mem_assertionForms {n : Nat} {body : Asserted} {form : AssertionForm} {ts : List Tree}
    {behind : List TokenKind} (hbody : body ≠ .plain)
    (h : (Form.assertionHead body).Derives n ts behind)
    (htag : Form.tagAhead (body == .quantified) form behind = true) :
    (body, form) ∈ assertionForms := by
  obtain ⟨-, htag⟩ := Bool.and_eq_true_iff.mp htag
  obtain ⟨tag, hbehind, hform⟩ := Option.bind_eq_some_iff.mp (beq_iff_eq.mp htag)
  cases body with
  | plain => exact absurd rfl hbody
  | expression =>
    unfold AssertionForm.ofTag? at hform
    split at hform <;> cases hform <;> decide
  | quantified =>
    obtain ⟨-, hproperty⟩ := Bool.and_eq_true_iff.mp (propertyAhead_of_quantified h)
    rw [hbehind] at hproperty
    have hproperty : tag = .keyword .sufficientKw ∨ tag = .keyword .necessaryKw := by
      simpa using hproperty
    obtain rfl | rfl := hproperty <;> cases hform <;> decide

theorem reads_assertionHead (hr : r.Faithful) :
    Reads r (Form.at? (.keyword .assertKw) · = true) anyhow Form.assertionHead
      (bump >>= fun _ => asserted) :=
  .bumpThen hr (fun _ => front_of_at?) (reads_asserted hr)

theorem assertionEnd_sound (hr : r.Faithful) {body : Asserted} {s : State} (hs : s.Ready)
    (hbare : (Form.assertionHead body).Derives r.depth s.bare s.kinds)
    (hclean : ((assertionEnd body).run r.setting r.enter s).2.reports = []) :
    (Form.assertion ((assertionEnd body).run r.setting r.enter s).1).Derives r.depth
      ((assertionEnd body).run r.setting r.enter s).2.bare
      ((assertionEnd body).run r.setting r.enter s).2.kinds := by
  by_cases hbody : body = .plain
  · subst hbody
    rw [run_assertionEnd_plain, bare_wrap]
    exact .node hbare
  · rw [run_assertionEnd hbody] at hclean ⊢
    cases htag : tagOf (body == .quantified) s.kinds with
    | none =>
      rw [htag] at hclean
      exact absurd hclean (State.reports_report_ne_nil hr.keep _ _)
    | some form =>
      rw [htag] at hclean
      have htag := tagOf_eq_some.mp htag
      obtain ⟨us, hus, htail⟩ := (reads_assertionTail hr _ form).sound s hs htag hclean
      have hkinds := (reaches_run r.setting hr.steady (assertionTail form) s).kinds_eq hs hus
      have hmem := mem_assertionForms hbody hbare htag
      rw [hkinds] at hbare htag
      dsimp only
      rw [bare_wrap, hus]
      refine derives_assertion_true.mpr ⟨_, hmem, .node (Form.derives_append.mpr
        ⟨_, us, rfl, hbare, ?_⟩)⟩
      rw [Form.derives_given]
      exact (if_pos htag).mpr htail

theorem reads_assertion (hr : r.Faithful) :
    Reads r (Form.at? (.keyword .assertKw) · = true) anyhow Form.assertion assertion := by
  have hhead := reads_assertionHead hr
  generalize hfirst : (bump >>= fun _ => asserted : Rule Nonterminal Asserted) = first at hhead
  have hrun : ∀ s, assertion.run r.setting r.enter s
      = (group (first >>= assertionEnd)).run r.setting r.enter s := fun s => by rw [← hfirst]; rfl
  refine Reads.ofRun (.group (fun s hs hempty hp hclean => ?_) fun s admitted ts behind hs hempty ht
    hp hinput _ hts hpass => ?_) hrun
  all_goals
    rw [run_bind] at *
    have hreach := reaches_run r.setting hr.steady first s
    have hend := reaches_run r.setting hr.steady
      (assertionEnd (first.run r.setting r.enter s).1) (first.run r.setting r.enter s).2
  · obtain ⟨ts, hbare, hts⟩ := hhead.sound s hs hp (hend.reports_eq_nil hclean)
    rw [hempty, List.nil_append] at hbare
    exact assertionEnd_sound hr (hs.of_reaches hreach) (hbare ▸ hts) hclean
  · have hread : ∀ body us rest, s.input = Tree.leavesAll us ++ rest →
        (Form.assertionHead body).Derives r.limit us (rest.map (·.1)) →
        (first.run r.setting r.enter s).1 = body ∧ (first.run r.setting r.enter s).2.bare = us ∧
          (first.run r.setting r.enter s).2.input = rest ∧
          (first.run r.setting r.enter s).2.reports = s.reports := by
      intro body us rest hus hf
      obtain ⟨hvalue, htook⟩ := hhead.complete s body us rest hs ht hp hus trivial hf
        (hr.passes_of_suffix hend.reports hpass)
      exact ⟨hvalue, by rw [htook.bare, hempty, List.nil_append],
        hreach.input_behind hs htook.bare hus, htook.reports⟩
    have ht' := hreach.temporal ht
    have hs' := hs.of_reaches hreach
    generalize first.run r.setting r.enter s = p at hpass hread ht' hs' ⊢
    obtain ⟨value, t⟩ := p
    dsimp only at hpass hread ht' hs' ⊢
    cases admitted with
    | false =>
      obtain ⟨us, rfl, hus⟩ := Form.derives_node.mp hts
      rw [Tree.leavesAll_singleton, Tree.leaves] at hinput
      obtain ⟨rfl, hbare, -, hreports⟩ := hread .plain us behind hinput hus
      rw [run_assertionEnd_plain]
      exact ⟨rfl, by rw [bare_wrap, hbare, hempty, List.nil_append], hreports⟩
    | true =>
      obtain ⟨⟨body, form⟩, hmem, htagged⟩ := derives_assertion_true.mp hts
      obtain ⟨ws, rfl, hws⟩ := Form.derives_node.mp htagged
      obtain ⟨us, vs, rfl, hus, hvs⟩ := Form.derives_append.mp hws
      rw [Tree.leavesAll_singleton, Tree.leaves, Tree.leavesAll_append, List.append_assoc] at hinput
      have hmap : (Tree.leavesAll vs ++ behind).map (·.1) = kinds vs ++ behind.map (·.1) := by
        rw [List.map_append, kinds]
      obtain ⟨rfl, hbare, hrest, hreports⟩ := hread body us _ hinput (by rwa [hmap])
      have hbody : value ≠ .plain := by
        rintro rfl
        simp [assertionForms] at hmem
      have hkinds : t.kinds = kinds vs ++ behind.map (·.1) := by rw [State.kinds_eq, hrest, hmap]
      rw [Form.derives_given, ← hkinds] at hvs
      split at hvs
      · next htag =>
        rw [run_assertionEnd hbody, tagOf_eq_some.mpr htag] at hpass ⊢
        obtain ⟨-, htook⟩ := (reads_assertionTail hr _ form).complete t () vs behind hs' ht' htag
          hrest trivial hvs hpass
        refine ⟨rfl, ?_, htook.reports.trans hreports⟩
        dsimp only
        rw [bare_wrap, htook.bare, hbare, hempty, List.nil_append]
      · exact absurd hvs Form.not_derives_never

end RelLang.Grammar
