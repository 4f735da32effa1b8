import RelLang.Proofs.Syntax.Operand

/-!
# What expressions are read from

The rules for operators and expressions read the forms of these names. By the levels,
so do the calls: an expression in an expression is read one level deeper.
-/

namespace RelLang

open Tree (kinds)

/-! ### The tokens of an operator -/

namespace Operator

variable {ks : List TokenKind} {first : TokenKind} {e : Extension}

theorem not_arrowMult_of_mem_operators : ∀ row ∈ table, row.fixity.isFront = false → ∀ k ∈ row.operators,
    arrowMultiplicities.contains k = false := by
  decide

/-- A negation in front of a comparison has the comparison behind it. -/
theorem front_of_negation (h : extensionOf ks = some (first, e))
    (hfirst : isNegation first = true) : Front [first] (Front comparisons anything) ks := by
  obtain ⟨h₀, he⟩ := extensionOf_eq_some.mp h
  obtain ⟨k, row, hrow, -, hk⟩ := ofRow_of_extension? he
  have hmem := mem_of_infixRow? hrow
  obtain rfl | ⟨-, h₁, hnode⟩ | ⟨hmult, -, -⟩ := hk
  · rw [isNegation_of_infixRow? hrow] at hfirst
    cases hfirst
  · obtain ⟨k₀, behind, rfl, hk₀, -⟩ := Grammar.front_of_eq h₀
    have hsecond : behind[0]? = some k := h₁
    obtain ⟨k₁, behind, rfl, hk₁, -⟩ := Grammar.front_of_eq hsecond
    obtain rfl := List.mem_singleton.mp hk₁
    refine ⟨k₀, _, rfl, hk₀, k₁, behind, rfl, ?_, trivial⟩
    rw [← operators_compare row (mem_table_of_infixRow? hrow) hnode]
    exact hmem.2
  · rw [isNegation_eq] at hfirst
    obtain rfl | rfl : first = .punct .bang ∨ first = .keyword .notKw := by simpa using hfirst
    all_goals cases hmult

/-- A multiplicity in front of an arrow has the arrow behind it. -/
theorem front_of_arrowMult (h : extensionOf ks = some (first, e))
    (hfirst : arrowMultiplicities.contains first = true) :
    Front [first] (Front [.punct .arrow] anything) ks := by
  obtain ⟨h₀, he⟩ := extensionOf_eq_some.mp h
  obtain ⟨k, row, hrow, -, hk⟩ := ofRow_of_extension? he
  have hmem := mem_of_infixRow? hrow
  obtain rfl | ⟨hneg, -, -⟩ | ⟨-, h₁, rfl⟩ := hk
  · rw [not_arrowMult_of_mem_operators row (mem_table_of_infixRow? hrow) hmem.1 k hmem.2] at hfirst
    cases hfirst
  · rw [isNegation_eq] at hneg
    obtain rfl | rfl : first = .punct .bang ∨ first = .keyword .notKw := by simpa using hneg
    all_goals cases hfirst
  · exact Grammar.front_front_of_eq h₀ h₁

/-- An operator is at the front. -/
theorem front_of_extensionOf (h : extensionOf ks = some (first, e)) :
    Front [first] anything ks :=
  Grammar.front_of_eq (extensionOf_eq_some.mp h).1

end Operator

namespace Grammar

open Rule

variable {r : Reader} {pre : List TokenKind → Prop}

/-! ### Operators -/

theorem reads_compareOperator (hr : r.Faithful) {first : TokenKind} {e : Operator.Extension} :
    Reads r (fun ks => Operator.extensionOf ks = some (first, e)) anyhow
      (fun _ => Form.compareOperator first) compareOperator := by
  refine .node ((looks_nthPasses 0 _).same hr fun negated => ?_) _
  refine .knowing (p := Operator.isNegation first = negated) (fun ks hp => ?_) ?_
  · rw [← hp.2, (Operator.extensionOf_eq_some.mp hp.1).1]
    rfl
  rintro rfl
  cases hneg : Operator.isNegation first with
  | true => exact reads_bump_bump hr fun ks hp => Operator.front_of_negation hp.1 hneg
  | false =>
    exact .behindNothing hr reads_done (reads_bump fun ks hp => Operator.front_of_extensionOf hp.1)

/-- A multiplicity behind an arrow that belongs to the arrow is ahead. -/
def atArrowMult : Rule Nonterminal Bool := do
  let right ← currentIn Operator.arrowMultiplicities
  let quantifier ← atQuantifier
  let operandBehind ← nthPasses 1 Operator.startsExpr
  return right && !quantifier && operandBehind

theorem looks_atArrowMult : Looks atArrowMult Form.arrowMultAhead := by
  intro setting enter s
  simp only [atArrowMult, run_bind, looks_currentIn _ setting, looks_atQuantifier setting,
    looks_nthPasses _ _ setting, run_pure]
  rfl

theorem front_of_arrowMultAhead {ks : List TokenKind} (h : Form.arrowMultAhead ks = true) :
    Front Operator.arrowMultiplicities anything ks :=
  front_of_atAny (Bool.and_eq_true_iff.mp (Bool.and_eq_true_iff.mp h).1).1

theorem reads_arrowOperator (hr : r.Faithful) {first : TokenKind} {e : Operator.Extension} :
    Reads r (fun ks => Operator.extensionOf ks = some (first, e)) anyhow
      (fun _ => Form.arrowOperator first) arrowOperator := by
  refine .node ?_ _
  have hright : Reads r anything anyhow
      (fun _ => .ifAhead Form.arrowMultAhead (.token Operator.arrowMultiplicities))
      (atArrowMult >>= fun more => when more bump) :=
    looks_atArrowMult.when hr (reads_bump fun _ hp => front_of_arrowMultAhead hp.2)
  suffices hbody : Reads r _ anyhow _ (currentIn Operator.arrowMultiplicities >>= fun left =>
      when left bump >>= fun _ => bump >>= fun _ => atArrowMult >>= fun more => when more bump) from
    hbody.ofRun fun s => by simp only [atArrowMult, run_bind, run_pure]
  refine (looks_currentIn _).same hr fun left => ?_
  refine .knowing (p := Operator.arrowMultiplicities.contains first = left) (fun ks hp => ?_) ?_
  · rw [← hp.2, Form.atAny, (Operator.extensionOf_eq_some.mp hp.1).1]
    rfl
  rintro rfl
  cases hmult : Operator.arrowMultiplicities.contains first with
  | true =>
    have hboth : Reads r (fun ks => Operator.extensionOf ks = some (first, e) ∧
        Form.atAny Operator.arrowMultiplicities ks = true) anyhow
        (fun _ => .token [first] ++ (.token [.punct .arrow] ++
          .ifAhead Form.arrowMultAhead (.token Operator.arrowMultiplicities)))
        (bump >>= fun _ => bump >>= fun _ => atArrowMult >>= fun more => when more bump) :=
      .bumpThen hr (fun ks hp => Operator.front_of_arrowMult hp.1 hmult)
        (.bumpThen hr (fun _ => id) hright)
    exact hboth.congr fun _ _ _ _ => Form.derives_append_assoc
  | false =>
    exact .behindNothing hr reads_done
      (.bumpThen hr (fun ks hp => Operator.front_of_extensionOf hp.1) hright)

theorem reads_infixOperator (hr : r.Faithful) {first : TokenKind} {e : Operator.Extension}
    (kind : NodeKind) :
    Reads r (fun ks => Operator.extensionOf ks = some (first, e)) anyhow
      (fun _ => Form.infixOperator kind first) (infixOperator kind) := by
  cases kind with
  | compareExpr => exact reads_compareOperator hr
  | arrowExpr => exact reads_arrowOperator hr
  | _ => exact reads_bump fun _ => Operator.front_of_extensionOf

theorem reads_otherwise (hr : r.Faithful) (kind : NodeKind) :
    Reads r pre anyhow (fun _ => if kind = .impliesExpr then Form.otherwise else .nothing) (do
      let otherwise ← currentIs Keyword.elseKw
      when (kind == .impliesExpr && otherwise) do
        bump
        operand Operator.impliesLevel Keyword.elseKw) := by
  have hlook : Looks (currentIs Keyword.elseKw) (Form.at? (.keyword .elseKw)) := looks_currentIs _
  by_cases hkind : kind = .impliesExpr
  · subst hkind
    exact hlook.when hr (.bumpThen hr (fun _ hp => front_of_at? hp.2) (reads_operand hr _ _))
  · rw [if_neg hkind]
    refine hlook.same hr fun present => ?_
    rw [beq_false_of_ne hkind]
    exact reads_done

theorem reads_infixTail (hr : r.Faithful) {first : TokenKind} {e : Operator.Extension}
    (level : Nat) : Reads r (fun ks => Operator.extensionOf ks = some (first, e)) anyhow
      (fun _ => .row [Form.infixOperator e.node first, Form.exprAt level,
        if e.node = .impliesExpr then Form.otherwise else .nothing])
      (infixTail e.node level first) :=
  .then hr (reads_infixOperator hr _) (.then hr (reads_operand hr _ _) (reads_otherwise hr _))

theorem reads_postfixTail (hr : r.Faithful) {first : TokenKind} {e : Operator.Extension} :
    Reads r (fun ks => Operator.extensionOf ks = some (first, e)) anyhow
      (fun _ => if first = .punct .lbracket
        then .row [.token [first], Form.arguments, .token [.punct .rbracket]]
        else .token [first]) (postfixTail first) := by
  unfold postfixTail
  by_cases hfirst : first = .punct .lbracket
  · subst hfirst
    exact .bumpThen hr (fun _ => Operator.front_of_extensionOf)
      (.closed hr (reads_arguments hr) (reads_expectToken hr _ _ _).ignore)
  · rw [if_neg hfirst, if_neg (by simpa using hfirst)]
    exact reads_bump fun _ => Operator.front_of_extensionOf

theorem reads_extensionTail (hr : r.Faithful) (first : TokenKind) (e : Operator.Extension) :
    Reads r (fun ks => Operator.extensionOf ks = some (first, e)) anyhow
      (fun _ => Form.tail first e) (extensionTail first e) := by
  unfold extensionTail Form.tail
  cases e.operandLevel? with
  | some level => exact reads_infixTail hr level
  | none => exact reads_postfixTail hr

/-! ### Extensions -/

variable {s : State} {level : Nat} {f : Form}

theorem extensionAt_eq (s : State) : extensionAt s = Operator.extensionOf s.kinds := by
  rw [extensionAt, Operator.extensionOf, State.kindAt_eq, State.kindAt_eq]

theorem stopsAt_iff : Operator.stopsAt level s.kinds = true ↔ Stops level s := by
  rw [Operator.stopsAt, Stops, extensionAt_eq]
  cases Operator.extensionOf s.kinds with
  | none => simp
  | some ext => simp [Prod.ext_iff]

/-- What stands behind the operand of an operator that may need to be admitted. -/
theorem reads_extendBody (hr : r.Faithful) (k : TokenKind) (e : Operator.Extension) :
    Reads r (fun ks => Operator.extensionOf ks = some (k, e)) anyhow (fun _ => Form.tail k e)
      (when e.temporal requireTemporal >>= fun _ => extensionTail k e) :=
  .behindNothing hr (reads_whenTemporal hr _) (reads_extensionTail hr k e)

/-- An operator that is read makes a node of what was read before and what stands behind it. -/
theorem extendBy_sound (hr : r.Faithful) (hs : s.Ready) {k : TokenKind}
    {e : Operator.Extension} (hat : Operator.extensionOf s.kinds = some (k, e))
    (hlevel : level ≤ e.level) (hbare : (Form.extended level f).Derives r.depth s.bare s.kinds)
    (hclean : ((extendBy k e).run r.setting r.enter s).2.reports = []) :
    (Form.extended level f).Derives r.depth ((extendBy k e).run r.setting r.enter s).2.bare
      ((extendBy k e).run r.setting r.enter s).2.kinds := by
  simp only [extendBy, run_bind, run_enclose] at hclean ⊢
  obtain ⟨us, hus, htail⟩ := (reads_extendBody hr k e).sound s hs hat hclean
  have hkinds := (reaches_run r.setting hr.steady _ s).kinds_eq hs hus
  rw [run_bind] at hus htail hkinds
  rw [bare_wrap, hus]
  rw [hkinds] at hbare hat
  exact .extend hbare hat hlevel htail

/-- A reading that has come to the end of an expression goes on with the tokens behind it. -/
theorem extend_sound (hr : r.Faithful) (hs : s.Ready)
    (hbare : (Form.extended level f).Derives r.depth s.bare s.kinds)
    (hclean : ((extend level).run r.setting r.enter s).2.reports = []) :
    (Form.extended level f).Derives r.depth ((extend level).run r.setting r.enter s).2.bare
        ((extend level).run r.setting r.enter s).2.kinds ∧
      Operator.stopsAt level ((extend level).run r.setting r.enter s).2.kinds = true := by
  obtain ⟨u, -, hinv, hlast, hrun⟩ := repeated_last hr.steady
    (moves_extendOnce hr.steady level)
    (fun t => t.Ready ∧ (t.reports = [] → (Form.extended level f).Derives r.depth t.bare t.kinds))
    (fun t _ ⟨ht, hread⟩ hmore => by
      obtain ⟨-, hstep⟩ | ⟨k, e, hat, hlevel, hstep⟩ := run_extendOnce r.setting r.enter level t
      · rw [hstep] at hmore
        cases hmore
      · rw [hstep]
        have hreach := reaches_run r.setting hr.steady (extendBy k e) t
        rw [extensionAt_eq] at hat
        exact ⟨ht.of_reaches hreach, fun hround => extendBy_sound hr ht hat hlevel
          (hread (hreach.reports_eq_nil hround)) hround⟩)
    hs.valid ⟨hs, fun _ => hbare⟩
  obtain ⟨hstops, hstep⟩ | ⟨_, _, -, -, hstep⟩ := run_extendOnce r.setting r.enter level u
  · rw [hstep] at hrun
    rw [extend, hrun] at hclean ⊢
    exact ⟨hinv.2 hclean, stopsAt_iff.mpr hstops⟩
  · rw [hstep] at hlast
    cases hlast

/-- One operator is tried at a time. -/
theorem run_extend (hr : r.Faithful) (hs : s.Valid) :
    ((extend level).run r.setting r.enter s).2
      = if ((extendOnce level).run r.setting r.enter s).1
        then ((extend level).run r.setting r.enter ((extendOnce level).run r.setting r.enter s).2).2
        else ((extendOnce level).run r.setting r.enter s).2 := by
  have hmoves : Moves r.setting r.enter (extendOnce level) := moves_extendOnce hr.steady level
  rw [extend, repeated, run_loop hr.steady hmoves.advancing () hs]
  simp only [run_andThen, run_done]
  split <;> rfl

/-- An operator is read, and then those behind it. -/
theorem run_extend_extendBy (hr : r.Faithful) (hs : s.Valid) {k : TokenKind}
    {e : Operator.Extension} (hat : Operator.extensionOf s.kinds = some (k, e))
    (hlevel : level ≤ e.level) :
    ((extend level).run r.setting r.enter s).2 = ((extend level).run r.setting r.enter
      ((extendBy k e).run r.setting r.enter s).2).2 := by
  rw [← extensionAt_eq] at hat
  obtain ⟨hstops, -⟩ | ⟨k', e', hat', -, hstep⟩ := run_extendOnce r.setting r.enter level s
  · exact absurd (hstops k e hat) (Nat.not_lt.mpr hlevel)
  · obtain ⟨rfl, rfl⟩ := Prod.mk.inj (Option.some.inj (hat'.symm.trans hat))
    rw [run_extend hr hs, hstep, if_pos rfl]

/-- Where no operator is ahead, an expression is not extended. -/
theorem run_extend_of_stops (hr : r.Faithful) (hs : s.Valid)
    (hstops : Operator.stopsAt level s.kinds = true) :
    ((extend level).run r.setting r.enter s).2 = s := by
  obtain ⟨-, hstep⟩ | ⟨k, e, hat, hlevel, -⟩ := run_extendOnce r.setting r.enter level s
  · rw [run_extend hr hs, hstep, if_neg Bool.false_ne_true]
  · exact absurd (stopsAt_iff.mp hstops k e hat) (Nat.not_lt.mpr hlevel)

/-- A reading of an expression has come behind some trees: what is done from there on leads to
the end of the reading. -/
structure CameTo (r : Reader) (level : Nat) (reports : List Report) (last : State)
    (ts : List Tree) (behind : List (TokenKind × String)) (t : State) : Prop where
  ready : t.Ready
  temporal : t.temporal = true
  bare : t.bare = ts
  input : t.input = behind
  reports_eq : t.reports = reports
  last_eq : ((extend level).run r.setting r.enter t).2 = last

theorem extend_complete (hr : r.Faithful) {reports : List Report} {last : State}
    (hpass : r.passes last.reports) {input : List (TokenKind × String)}
    (hhead : ∀ ts behind, input = Tree.leavesAll ts ++ behind →
      f.Derives r.limit ts (behind.map (·.1)) → ∃ t, CameTo r level reports last ts behind t)
    {ts : List Tree} {behind : List (TokenKind × String)}
    (hinput : input = Tree.leavesAll ts ++ behind)
    (hts : (Form.extended level f).Derives r.limit ts (behind.map (·.1))) :
    ∃ t, CameTo r level reports last ts behind t := by
  generalize hform : Form.extended level f = form at hts
  generalize hlimit : r.limit = n at hts
  generalize hks : behind.map (·.1) = ks at hts
  induction hts generalizing behind with
  | head h =>
    obtain ⟨rfl, rfl⟩ := Form.extended.inj hform
    subst hlimit hks
    exact hhead _ _ hinput h
  | @extend _ _ _ ts us k e _ front asked tight back ih _ =>
    obtain ⟨rfl, rfl⟩ := Form.extended.inj hform
    subst hlimit hks
    have hmap : (Tree.leavesAll us ++ behind).map (·.1) = kinds us ++ behind.map (·.1) := by
      rw [List.map_append, kinds]
    rw [Tree.leavesAll_singleton, Tree.leaves, Tree.leavesAll_append, List.append_assoc] at hinput
    obtain ⟨t, ht⟩ := ih hinput rfl rfl hmap
    have hkinds : t.kinds = kinds us ++ behind.map (·.1) := by
      rw [State.kinds_eq, ht.input, hmap]
    have hnext := run_extend_extendBy hr ht.ready.valid (hkinds ▸ asked) tight
    have hreach := reaches_run r.setting hr.steady (extendBy k e) t
    have hbody := reaches_run r.setting hr.steady
      (when e.temporal requireTemporal >>= fun _ => extensionTail k e) t
    have hlast := ht.last_eq
    rw [hnext] at hlast
    have hreports := (reaches_run r.setting hr.steady (extend level)
      ((extendBy k e).run r.setting r.enter t).2).reports
    rw [hlast] at hreports
    obtain ⟨-, htook⟩ := (reads_extendBody hr k e).complete t () us behind ht.ready ht.temporal
      (hkinds ▸ asked) ht.input trivial back (hr.passes_of_suffix hreports hpass)
    refine ⟨_, ht.ready.of_reaches hreach, hreach.temporal ht.temporal, ?_, ?_, ?_, hlast⟩
    · rw [← ht.bare, ← htook.bare]
      exact bare_wrap _ _
    · exact hbody.input_behind ht.ready htook.bare ht.input
    · exact htook.reports.trans ht.reports_eq
  | _ => cases hform

/-! ### Expressions -/

/-- An expression that has been begun is read up to its end. -/
theorem extendedAt_sound (hr : r.Faithful) (hs : s.Ready)
    (hbare : f.Derives r.depth s.bare s.kinds)
    (hclean : ((extend level).run r.setting r.enter s).2.reports = []) :
    (Form.extendedAt level f).Derives r.depth ((extend level).run r.setting r.enter s).2.bare
      ((extend level).run r.setting r.enter s).2.kinds := by
  obtain ⟨hread, hstops⟩ := extend_sound hr hs (.head hbare) hclean
  exact hread.then_look hstops

theorem extendedAt_complete (hr : r.Faithful) {reports : List Report} {last : State}
    (hpass : r.passes last.reports) {input : List (TokenKind × String)}
    (hhead : ∀ ts behind, input = Tree.leavesAll ts ++ behind →
      f.Derives r.limit ts (behind.map (·.1)) → ∃ t, CameTo r level reports last ts behind t)
    {ts : List Tree} {behind : List (TokenKind × String)}
    (hinput : input = Tree.leavesAll ts ++ behind)
    (hts : (Form.extendedAt level f).Derives r.limit ts (behind.map (·.1))) :
    last.bare = ts ∧ last.reports = reports := by
  obtain ⟨hread, hstops⟩ := Form.derives_append_look.mp hts
  obtain ⟨t, ht⟩ := extend_complete hr hpass hhead hinput hread
  have hkinds : t.kinds = behind.map (·.1) := by rw [State.kinds_eq, ht.input]
  have hlast := ht.last_eq
  rw [run_extend_of_stops hr ht.ready.valid (hkinds ▸ hstops)] at hlast
  subst hlast
  exact ⟨ht.bare, ht.reports_eq⟩

/-- An expression that begins with what another rule reads. -/
theorem reads_extendedAt (hr : r.Faithful) {first : Rule Nonterminal Unit}
    (h : Reads r pre anyhow (fun _ => f) first) :
    Reads r pre anyhow (fun _ => Form.extendedAt level f)
      (.group (first >>= fun _ => extend level)) := by
  refine .group (fun s hs hempty hp hclean => ?_) fun s _ ts behind hs hempty ht hp hinput _ hts
    hpass => ?_
  all_goals
    simp only [run_bind] at *
    have hreach := reaches_run r.setting hr.steady first s
    have hrest := reaches_run r.setting hr.steady (extend level) (first.run r.setting r.enter s).2
  · obtain ⟨ts, hbare, hts⟩ := h.sound s hs hp (hrest.reports_eq_nil hclean)
    rw [hempty, List.nil_append] at hbare
    exact extendedAt_sound hr (hs.of_reaches hreach) (hbare ▸ hts) hclean
  · obtain ⟨hbare, hreports⟩ := extendedAt_complete hr hpass (fun us rest hus hf => by
      obtain ⟨-, htook⟩ := h.complete s () us rest hs ht hp hus trivial hf
        (hr.passes_of_suffix hrest.reports hpass)
      exact ⟨_, hs.of_reaches hreach, hreach.temporal ht,
        htook.bare.trans (by rw [hempty, List.nil_append]),
        hreach.input_behind hs htook.bare hus, htook.reports, rfl⟩) hinput hts
    exact ⟨trivial, by rw [hbare, hempty, List.nil_append], hreports⟩

theorem run_expressionBody {setting : Setting} {enter : Nonterminal → State → Bool × State}
    (level : Nat) (s : State) : (expressionBody level).run setting enter s =
      ((operandHead.run setting enter s).1,
        ((when (operandHead.run setting enter s).1 (extend level)).run setting enter
          (operandHead.run setting enter s).2).2) := (rfl)

/-- An expression is found if something that can begin one is. -/
theorem finds_expression (hr : r.Faithful) (level : Nat) :
    Finds r (Form.expression level) (expression level) := by
  have hhead := finds_operandHead hr
  refine Finds.group (expressionBody level) (fun s hs hempty hclean hfound => ?_)
    fun s ts behind hs hempty ht hinput hts hpass => ?_
  all_goals
    rw [run_expressionBody] at *
    have hreach := reaches_run r.setting hr.steady operandHead s
    have hrest := reaches_run r.setting hr.steady
      (when (operandHead.run r.setting r.enter s).1 (extend level))
      (operandHead.run r.setting r.enter s).2
  · obtain ⟨ts, hbare, hts⟩ := hhead.sound s hs (hrest.reports_eq_nil hclean) hfound
    rw [hempty, List.nil_append] at hbare
    dsimp only at hclean hfound ⊢
    rw [hfound] at hclean ⊢
    exact extendedAt_sound hr (hs.of_reaches hreach) (hbare ▸ hts) hclean
  · have hread : ∀ us rest, s.input = Tree.leavesAll us ++ rest →
        Form.operandHead.Derives r.limit us (rest.map (·.1)) →
        (operandHead.run r.setting r.enter s).1 = true ∧
          State.Took us s (operandHead.run r.setting r.enter s).2 :=
      fun us rest hus hf => hhead.complete s us rest hs ht hus hf
        (hr.passes_of_suffix hrest.reports hpass)
    have hfound : (operandHead.run r.setting r.enter s).1 = true := by
      obtain ⟨us, vs, hleaves, hf, -⟩ := (Form.derives_append_look.mp hts).1.extended_head
      refine (hread us (Tree.leavesAll vs ++ behind) ?_ ?_).1
      · rw [hinput, hleaves, List.append_assoc]
      · rwa [List.map_append, ← kinds]
    dsimp only at hpass ⊢
    rw [hfound] at hpass ⊢
    obtain ⟨hbare, hreports⟩ := extendedAt_complete hr hpass (fun us rest hus hf => by
      have htook := (hread us rest hus hf).2
      exact ⟨_, hs.of_reaches hreach, hreach.temporal ht,
        htook.bare.trans (by rw [hempty, List.nil_append]),
        hreach.input_behind hs htook.bare hus, htook.reports, rfl⟩) hinput hts
    exact ⟨rfl, by rw [hbare, hempty, List.nil_append], hreports⟩

/-! ### Levels -/

/-- Nothing is cut off for being nested too deeply. -/
def Shallow (reports : List Report) : Prop := ∀ report ∈ reports, report.problem ≠ .tooDeep

variable {setting : Setting} {passes : List Report → Prop}

/-- What is nested too deeply is reported. -/
theorem mem_reports_skipNested (hkeep : setting.maxDiagnostics = none) (s : State) :
    ∃ report ∈ ((skipNested : Rule Empty Unit).run setting nofun s).2.reports,
      report.problem = .tooDeep := by
  rw [skipNested, run_bind, run_report]
  refine ⟨_, (reaches_run setting (steady_of_empty _) _ (s.report setting .tooDeep)).reports.subset
    (List.mem_of_mem_head? (a := ?report) ?_), ?_⟩
  rotate_left
  · simp only [State.report, State.keep, hkeep, Option.any_none, Bool.false_and,
      Bool.false_eq_true, if_false, List.head?_cons]
    exact rfl
  · rfl

/-- The reader of a text as deep as there are levels. -/
def readerOf (setting : Setting) (levels limit : Nat) (passes : List Report → Prop) : Reader where
  setting
  enter := language.enter setting levels
  depth := levels
  limit
  passes

/-- A group of bound values is read one level deeper. -/
theorem run_boundGroup (levels limit : Nat) (s : State) :
    (Rule.call .boundGroup).run (readerOf setting (levels + 1) limit passes).setting
        (readerOf setting (levels + 1) limit passes).enter s
      = boundGroup.run (readerOf setting levels (limit - 1) passes).setting
          (readerOf setting levels (limit - 1) passes).enter s := (rfl)

/-- What is past the last level is not read. -/
theorem not_shallow_enter_zero (hkeep : setting.maxDiagnostics = none) {symbol : Nonterminal}
    {n : Nat} {ts : List Tree} {behind : List (TokenKind × String)} {s : State}
    (hinput : s.input = Tree.leavesAll ts ++ behind)
    (hts : (Form.ofNonterminal symbol).Derives n ts (behind.map (·.1))) :
    ¬ Shallow (language.enter setting 0 symbol s).2.reports := by
  intro hshallow
  cases symbol with
  | boundGroup =>
    obtain ⟨report, hmem, hdeep⟩ := mem_reports_skipNested hkeep s
    exact hshallow report hmem hdeep
  | expression level =>
    have hpresent : (s.kindAt 0).any Operator.startsExpr = true := by
      have hbegins := (Form.begins_expression level).any _ _ _ hts
      rwa [State.kindAt_eq, State.kinds_eq, hinput, List.map_append]
    obtain ⟨report, hmem, hdeep⟩ := mem_reports_skipNested hkeep s
    refine hshallow report ?_ hdeep
    simp only [Grammar.enter, language, expressionTooDeep, runAlone, run_bind, run_nthPasses, run_pure,
      hpresent, run_when_true]
    exact hmem

theorem faithful_readerOf (hkeep : setting.maxDiagnostics = none)
    (hsuffix : ∀ {rs ts : List Report}, rs <:+ ts → passes ts → passes rs) (levels limit : Nat)
    (h : limit ≤ levels ∨ ∀ reports, passes reports → Shallow reports) :
    (readerOf setting levels limit passes).Faithful := by
  induction levels generalizing limit with
  | zero =>
    have hnot : ∀ symbol s ts (behind : List (TokenKind × String)),
        s.input = Tree.leavesAll ts ++ behind →
        (Form.part symbol).Derives limit ts (behind.map (·.1)) →
        ¬ passes (language.enter setting 0 symbol s).2.reports := by
      intro symbol s ts behind hinput hts hpass
      obtain ⟨m, hm, hts⟩ := Form.derives_part.mp hts
      obtain hlevels | hshallow := h
      · omega
      · exact not_shallow_enter_zero hkeep hinput hts (hshallow _ hpass)
    refine ⟨hkeep, language.steady_enter setting 0, hsuffix, fun level => ⟨?_, ?_⟩, ⟨?_, ?_⟩⟩
    · intro s _ hclean hfound
      have hfound : (expressionTooDeep.runAlone setting s).1 = true := hfound
      exact absurd hclean (reports_expressionTooDeep hkeep hfound)
    · exact fun s ts behind _ _ hinput hts hpass => absurd hpass (hnot _ s ts behind hinput hts)
    · intro s _ _ hclean
      obtain ⟨report, hmem, -⟩ := mem_reports_skipNested hkeep s
      exact absurd hmem (List.eq_nil_iff_forall_not_mem.mp hclean report)
    · intro s present ts behind _ _ _ hinput _ hts hpass
      exact absurd hpass (hnot _ s ts behind hinput (Form.derives_yields.mp hts).2)
  | succ levels ih =>
    have hr := ih (limit - 1) (h.imp_left (by omega))
    refine ⟨hkeep, language.steady_enter setting _, hsuffix, fun level => ⟨?_, ?_⟩, ⟨?_, ?_⟩⟩
    · intro s hs hclean hfound
      obtain ⟨ts, hbare, hts⟩ := (finds_expression hr level).sound s hs hclean hfound
      exact ⟨ts, hbare, .part hts⟩
    · intro s ts behind hs ht hinput hts hpass
      obtain ⟨m, hm, hread⟩ := Form.derives_part.mp hts
      obtain rfl : limit = m + 1 := hm
      exact (finds_expression hr level).complete s ts behind hs ht hinput hread hpass
    · intro s hs hp hclean
      rw [run_boundGroup] at hclean ⊢
      obtain ⟨ts, hbare, hts⟩ := (reads_boundGroup hr).sound s hs hp hclean
      obtain ⟨hpresent, hts⟩ := Form.derives_yields.mp hts
      exact ⟨ts, hbare, Form.derives_yields.mpr ⟨hpresent, .part hts⟩⟩
    · intro s present ts behind hs ht hp hinput hpost hts hpass
      rw [run_boundGroup] at hpass ⊢
      obtain ⟨hpresent, hpart⟩ := Form.derives_yields.mp hts
      obtain ⟨m, hm, hread⟩ := Form.derives_part.mp hpart
      obtain rfl : limit = m + 1 := hm
      have hyields : (Form.yields true Form.boundGroup present).Derives m ts (behind.map (·.1)) :=
        Form.derives_yields.mpr ⟨hpresent, hread⟩
      exact (reads_boundGroup hr).complete s present ts behind hs ht hp hinput hpost hyields hpass

end Grammar
end RelLang
