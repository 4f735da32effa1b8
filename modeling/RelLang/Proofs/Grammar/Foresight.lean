import RelLang.Proofs.Grammar.Foresee
import RelLang.Proofs.Grammar.Maintain

/-!
# The grammar has seen what it takes

All rules of the grammar may be followed wherever they are. Those that take tokens without a look
are begun behind the tests that have seen these tokens: a command behind the test of a paragraph, a
scope behind that of its number, a declaration behind that of its colon, an operator behind the one
that has found it in the table.
-/

namespace RelLang.Grammar

open Rule

section

variable {ν : Type} {calls : ν → List TokenKind → Bool}

/-! ### Names -/

theorem foresighted_name : Foresighted calls (name : Rule ν Bool) :=
  .bind .currentIs fun _ => .ite
    (.bind (.tokenNode fun _ => rfl) fun _ => .pure _)
    (.bind (.report fun _ => rfl) fun _ => .pure _)

theorem foresighted_atCommaName : Foresighted calls (atCommaName : Rule ν Bool) :=
  .andAlso .currentIs (.nthIs _ _)

theorem foresighted_nameList : Foresighted calls (nameList : Rule ν Bool) :=
  .node (fun _ => rfl) <| .bind foresighted_name fun _ =>
    .bind (.when <| .repeated <| .bind foresighted_atCommaName fun _ =>
      .bind (.when <| .bind .bump fun _ => .ignore foresighted_name) fun _ => .pure _) fun _ =>
    .pure _

theorem foresighted_atQualName : Foresighted calls (atQualName : Rule ν Bool) :=
  .orElse (.nthPasses _ _) (.andAlso .currentIs (.nthIs _ _))

/-- A qualified name begins behind the test for its first tokens. -/
theorem foresighted_qualName : Foresighted calls (qualName : Rule ν Bool) := by
  intro setting enter s
  refine .look (run_atQualName s) foresighted_atQualName <|
    .ite (fun hpresent => .node ?_ ?_) fun _ => ?_
  · rwa [State.kindAt_eq, State.kindAt_eq] at hpresent
  · have hbody : Foresighted calls (do
        let this ← currentIs Keyword.thisKw
        when this do
          bump
          bump
        pathSegments : Rule ν Bool) :=
      .bind .currentIs fun _ => .bind (.when <| .bind .bump fun _ => .bump) fun _ =>
        .bind (.nthPasses _ _) fun _ => .bind (.pick .bump (.report fun _ => rfl)) fun _ =>
        .bind (.repeated <| .bind (.andAlso .currentIs (.nthPasses _ _)) fun _ =>
          .bind (.when <| .bind .bump fun _ => .bump) fun _ => .pure _) fun _ => .pure _
    exact hbody setting enter _
  · exact (Foresighted.report fun _ => rfl).bind (fun _ => .pure false) setting enter s

theorem foresighted_qualNameList : Foresighted calls (qualNameList : Rule ν Unit) :=
  .node (fun _ => rfl) <| .bind (.ignore foresighted_qualName) fun _ => .repeated <|
    .bind .eat fun _ => .bind (.when <| .ignore foresighted_qualName) fun _ => .pure _

theorem foresighted_optionalMult (allowed : List TokenKind) :
    Foresighted calls (optionalMult allowed : Rule ν Unit) :=
  .bind .currentIn fun _ => .when (.tokenNode fun _ => rfl)

/-- What is nested too deeply is skipped where an expression can begin, or a group. -/
theorem foresees_skipNested {setting : Setting} {enter : ν → State → Bool × State} {s : State}
    (h : reportable .tooDeep s.kinds = true) :
    Foresees calls setting enter (skipNested : Rule ν Unit) s := by
  have htext : Foresighted calls (nestedText : Rule ν Unit) :=
    .bind (.nthPasses _ _) fun _ => .bind (.loop fun _ => .bind .atEnd fun _ =>
      .bind (.nthPasses _ _) fun _ => .bind (.nthPasses _ _) fun _ => .ite (.pure _) <|
      .bind .bump fun _ => .bind .atRecoveryPoint fun _ => .pure _) fun _ => .pure _
  exact .bind (.report h) (Foresighted.node (fun _ => rfl) htext setting enter _)

end

/-! ### Blocks and binders -/

theorem foresighted_exprAt (level : Nat) : Foresighted callable (exprAt level) :=
  .bind (.call fun _ => rfl) fun _ => .bind (.when (.report fun _ => rfl)) fun _ => .pure _

theorem foresighted_expr : Foresighted callable expr := foresighted_exprAt 0

theorem foresighted_operand (level : Nat) (after : TokenKind) :
    Foresighted callable (operand level after) :=
  .bind (.call fun _ => rfl) fun _ => .when (.report fun _ => rfl)

theorem foresighted_arguments : Foresighted callable arguments :=
  .within <| .node (fun _ => rfl) <| .bind .currentIs fun _ => .when <|
    .bind (.ignore foresighted_expr) fun _ => .repeated <| .bind .eat fun _ =>
    .bind (.when <| .ignore foresighted_expr) fun _ => .pure _

theorem foresighted_block : Foresighted callable block :=
  .node (fun _ => rfl) <| .bind .currentRange fun _ => .bind (.ignore .expect) fun _ =>
    .bind (.within <| .items (fun _ => rfl) (.ignore foresighted_expr)) fun _ =>
    .ignore .expectCloser

section

variable {setting : Setting} {enter : Nonterminal → State → Bool × State} {s : State}

theorem foresees_quantDecl (h : declarationAhead s.kinds = true) :
    Foresees callable setting enter quantDecl s := by
  have hbody : Foresighted callable (do
      ignore (eat Keyword.disjKw)
      ignore nameList
      ignore (expect Punct.colon)
      quantType) :=
    .bind (.ignore .eat) fun _ => .bind (.ignore foresighted_nameList) fun _ =>
      .bind (.ignore .expect) fun _ => .bind (foresighted_optionalMult _) fun _ =>
      .ignore foresighted_expr
  exact .node h (hbody setting enter _)

/-- Behind a token with a declaration behind it there is a declaration. -/
theorem declarationAhead_bump (h : declarationBehind s.kinds = true) :
    declarationAhead s.bump.kinds = true := by
  rw [State.kinds_eq_tail_of_bump]
  exact h

/-- Each declaration of a list is begun behind the test for it. -/
theorem foresees_quantDecls (h : declarationAhead s.kinds = true) :
    Foresees callable setting enter quantDecls s := by
  refine .bind (foresees_quantDecl h) ?_
  have hround : Foresighted callable (do
      let more ← andAlso (currentIs Punct.comma) (ahead declarationBehind)
      when more do
        bump
        quantDecl
      return more) := by
    intro setting enter t
    have htest : (andAlso (currentIs Punct.comma) (ahead declarationBehind)).run setting enter t
        = (t.kindAt 0 == some (.punct .comma) && declarationBehind t.kinds, t) := by
      rw [run_andAlso, run_currentIs, run_ahead]
      cases t.kindAt 0 == some (.punct .comma) <;> rfl
    refine .look htest (.andAlso .currentIs (.ahead _)) <|
      .bind (.when fun hmore => .bind (Foresighted.bump _ _ _) (foresees_quantDecl ?_))
        (Foresighted.pure _ _ _ _)
    exact declarationAhead_bump (Bool.and_eq_true_iff.mp hmore).2
  exact Foresighted.repeated hround _ _ _

theorem foresighted_binderBody : Foresighted callable binderBody :=
  .bind .eat fun _ => .ite (.ignore foresighted_expr) <| .bind .currentIs fun _ =>
    .ite foresighted_block (.report fun _ => rfl)

theorem foresighted_atQuantifier : Foresighted callable atQuantifier :=
  .andAlso .currentIn (.ahead _)

theorem foresighted_atBinder : Foresighted callable atBinder :=
  .orElse (.nthPasses _ _) foresighted_atQuantifier

theorem foresighted_quantified (quantifier : TokenKind) :
    Foresighted callable (quantified quantifier) := by
  intro setting enter s
  refine .node rfl <| .bind (Foresighted.bump _ _ _) <| .look rfl (.ahead _) <|
    .bind (.pick foresees_quantDecls fun _ => .report rfl) (foresighted_binderBody _ _ _)

theorem foresighted_letDecl : Foresighted callable letDecl :=
  .node (fun _ => rfl) <| .bind (.ignore foresighted_name) fun _ => .bind (.ignore .expect) fun _ =>
    .ignore foresighted_expr

theorem foresighted_bindings {kind : NodeKind} (hkind : ∀ ks, foreseen kind ks = true) :
    Foresighted callable (bindings kind) :=
  .node hkind <| .bind .bump fun _ => .bind foresighted_letDecl fun _ =>
    .bind (.repeated <| .bind foresighted_atCommaName fun _ =>
      .bind (.when <| .bind .bump fun _ => foresighted_letDecl) fun _ => .pure _) fun _ =>
    foresighted_binderBody

theorem foresighted_binder (keyword : TokenKind) : Foresighted callable (binder keyword) := by
  unfold binder
  split
  · exact foresighted_bindings fun _ => rfl
  · exact foresighted_bindings fun _ => rfl
  · exact foresighted_quantified _

/-! ### Expressions -/

theorem foresighted_parenthesized : Foresighted callable parenthesized :=
  .node (fun _ => rfl) <| .bind .currentRange fun _ => .bind .bump fun _ =>
    .bind (.within <| .ignore foresighted_expr) fun _ => .ignore .expectCloser

theorem foresees_comprehension (h : declarationBehind s.kinds = true) :
    Foresees callable setting enter comprehension s := by
  have hbody : Foresighted callable (do
      let bar ← eat Punct.bar
      if bar then ignore expr
      else
        let brace ← currentIs Punct.lbrace
        when brace block) :=
    .bind .eat fun _ => .ite (.ignore foresighted_expr) <| .bind .currentIs fun _ =>
      .when foresighted_block
  refine .node rfl <| .look rfl .currentRange <| .bind (Foresighted.bump _ _ _) <|
    .bind (.within <| .bind (foresees_quantDecls ?_) (hbody _ _ _))
      (Foresighted.expectCloser.ignore _ _ _)
  exact declarationAhead_bump (s := { s.attachPending with siblings := [] }) h

theorem beginsAnywhere_of_atomForm {first second : Option TokenKind} {kind : NodeKind}
    (h : AtomForm.ofTokens? first second = some (.oneToken kind)) : beginsAnywhere kind = true := by
  unfold AtomForm.ofTokens? at h
  split at h <;> try split at h
  all_goals cases h <;> rfl

theorem foresighted_atomForm {first second : Option TokenKind} {form : AtomForm}
    (h : AtomForm.ofTokens? first second = some form) : Foresighted callable form.rule := by
  cases form with
  | oneToken kind => exact .tokenNode (foreseen_of_beginsAnywhere (beginsAnywhere_of_atomForm h))
  | negativeNumber => exact .node (fun _ => rfl) <| .bind .bump fun _ => .bump
  | nameRef => exact .node (fun _ => rfl) <| .ignore foresighted_qualName
  | atName => exact .node (fun _ => rfl) <| .bind .bump fun _ => .tokenNode fun _ => rfl
  | parenthesized => exact foresighted_parenthesized
  | braced =>
    intro setting enter s
    exact .look rfl (.ahead _) <| .ite foresees_comprehension fun _ => foresighted_block _ _ _

theorem foresighted_atom : Foresighted callable atom := by
  refine .bind (.peek 0) fun first => .bind (.peek 1) fun second => ?_
  split
  · next hform => exact .bind (foresighted_atomForm hform) fun _ => .pure _
  · exact .pure _

/-- An operator makes a node that may begin anywhere. -/
theorem beginsAnywhere_of_row : ∀ row ∈ Operator.table, beginsAnywhere row.node = true := by
  decide

theorem foresighted_operandHead : Foresighted callable operandHead := by
  refine .bind (.peek 0) fun first => .bind foresighted_atBinder fun isBinder => ?_
  split
  · exact .pure _
  · refine .ite (.bind (foresighted_binder _) fun _ => .pure _) ?_
    split
    · next hrow =>
      have hkind := beginsAnywhere_of_row _ (Operator.mem_table_of_frontRow? hrow)
      exact .bind (.node (foreseen_of_beginsAnywhere hkind) <|
        .bind (.when .requireTemporal) fun _ => .bind .bump fun _ => foresighted_operand _ _)
        fun _ => .pure _
    · exact foresighted_atom

/-- The operators of a comparison are the comparisons. -/
theorem level_of_compareExpr : ∀ row ∈ Operator.table, row.node = .compareExpr →
    row.level = Operator.compareLevel := by
  decide

theorem isComparison_of_row {k : TokenKind} {row : OperatorRow}
    (hrow : Operator.infixRow? k = some row) (hnode : row.node = .compareExpr) :
    Operator.isComparison k = true := by
  have hlevel := level_of_compareExpr row (Operator.mem_table_of_infixRow? hrow) hnode
  rw [Operator.isComparison, hrow, Option.any_some, hlevel]
  rfl

/-- Where an operator of the table continues an expression to a comparison, it is a comparison, or
the negation of the one behind it. -/
theorem comparisonAhead_of_extension {k : TokenKind} {e : Operator.Extension}
    (hk : s.kindAt 0 = some k) (he : Operator.extension? k (s.kindAt 1) = some e)
    (hnode : e.node = .compareExpr) : comparisonAhead s.kinds = true := by
  rw [comparisonAhead, prefixedAhead, ← State.kindAt_eq, ← State.kindAt_eq, hk]
  obtain ⟨k', row, hrow, rfl, rfl | ⟨hnegation, hsecond, -⟩ | ⟨-, -, rfl⟩⟩ :=
    Operator.ofRow_of_extension? he
  · rw [Option.any_some, isComparison_of_row hrow hnode, Bool.true_or]
  · rw [hsecond, Option.any_some, Option.any_some, Option.any_some, hnegation,
      isComparison_of_row hrow hnode, Bool.and_true, Bool.or_true]
  · obtain rfl := Option.some.inj hrow
    cases hnode

/-- Where it is continued to an arrow, that is ahead, or behind a multiplicity. -/
theorem arrowAhead_of_extension {k : TokenKind} {e : Operator.Extension}
    (hk : s.kindAt 0 = some k) (he : Operator.extension? k (s.kindAt 1) = some e)
    (hnode : e.node = .arrowExpr) : arrowAhead s.kinds = true := by
  rw [arrowAhead, prefixedAhead, ← State.kindAt_eq, ← State.kindAt_eq, hk]
  obtain ⟨k', row, hrow, rfl, rfl | ⟨-, -, hcompare⟩ | ⟨hmany, hsecond, rfl⟩⟩ :=
    Operator.ofRow_of_extension? he
  · have hmem := (Operator.mem_of_infixRow? hrow).2
    rw [Operator.operators_arrow row (Operator.mem_table_of_infixRow? hrow) hnode,
      List.mem_singleton] at hmem
    rw [hmem]
    rfl
  · rw [show row.node = .arrowExpr from hnode] at hcompare
    cases hcompare
  · rw [hsecond, Option.any_some, Option.any_some, Option.any_some, hmany]
    simp

/-- The operator of a binary node begins where the table has found it. -/
theorem foresees_infixOperator {k : TokenKind} {e : Operator.Extension}
    (hk : s.kindAt 0 = some k) (he : Operator.extension? k (s.kindAt 1) = some e) :
    Foresees callable setting enter (infixOperator e.node) s := by
  unfold infixOperator
  split
  · next hnode =>
    have hbody : Foresighted callable (do
        let negated ← nthPasses 0 Operator.isNegation
        when negated bump
        bump) :=
      .bind (.nthPasses _ _) fun _ => .bind (.when .bump) fun _ => .bump
    exact .node (comparisonAhead_of_extension hk he hnode) (hbody _ _ _)
  · next hnode =>
    have hbody : Foresighted callable (do
        let left ← currentIn Operator.arrowMultiplicities
        when left bump
        bump
        let right ← currentIn Operator.arrowMultiplicities
        let quantifier ← atQuantifier
        let operandBehind ← nthPasses 1 Operator.startsExpr
        when (right && !quantifier && operandBehind) bump) :=
      .bind .currentIn fun _ => .bind (.when .bump) fun _ => .bind .bump fun _ =>
        .bind .currentIn fun _ => .bind foresighted_atQuantifier fun _ =>
        .bind (.nthPasses _ _) fun _ => .when .bump
    exact .node (arrowAhead_of_extension hk he hnode) (hbody _ _ _)
  · exact Foresighted.bump _ _ _

theorem foresees_infixTail {k : TokenKind} {e : Operator.Extension} (level : Nat)
    (hk : s.kindAt 0 = some k) (he : Operator.extension? k (s.kindAt 1) = some e) :
    Foresees callable setting enter (infixTail e.node level k) s := by
  have hrest : Foresighted callable (do
      operand level k
      let otherwise ← currentIs Keyword.elseKw
      when (e.node == .impliesExpr && otherwise) do
        bump
        operand Operator.impliesLevel Keyword.elseKw) :=
    .bind (foresighted_operand _ _) fun _ => .bind .currentIs fun _ => .when <|
      .bind .bump fun _ => foresighted_operand _ _
  exact .bind (foresees_infixOperator hk he) (hrest _ _ _)

theorem foresighted_postfixTail (operator : TokenKind) :
    Foresighted callable (postfixTail operator) :=
  .ite (.bind .bump fun _ => .bind foresighted_arguments fun _ =>
    .ignore <| .expectToken fun _ => rfl) .bump

theorem beginsAnywhere_of_extension {first : TokenKind} {second : Option TokenKind}
    {e : Operator.Extension} (h : Operator.extension? first second = some e) :
    beginsAnywhere e.node = true := by
  obtain ⟨k, row, hrow, rfl, -⟩ := Operator.ofRow_of_extension? h
  exact beginsAnywhere_of_row row (Operator.mem_table_of_infixRow? hrow)

theorem kindAt_whenTemporal (temporal : Bool) (s : State) (n : Nat) :
    ((when temporal requireTemporal : Rule Nonterminal Unit).run setting enter s).2.kindAt n
      = s.kindAt n := by
  cases temporal with
  | false => rfl
  | true => exact kindAt_congr (words_requireTemporal s) n

theorem foresighted_extendOnce (level : Nat) : Foresighted callable (extendOnce level) := by
  intro setting enter s
  refine .look (run_peek 0 s) (.peek 0) <| .look (run_peek 1 s) (.peek 1) ?_
  split
  · exact Foresighted.pure _ _ _ _
  · next k hk =>
    split
    · exact Foresighted.pure _ _ _ _
    · next e he =>
      refine .ite (fun _ => Foresighted.pure _ _ _ _) fun _ =>
        .bind (Foresighted.requireTemporal.when _ _ _) <| .bind ?_ (Foresighted.pure _ _ _ _)
      refine .enclose (foreseen_of_beginsAnywhere (beginsAnywhere_of_extension he) _) ?_
      split
      · refine foresees_infixTail _ ?_ ?_
        · rw [kindAt_whenTemporal, hk]
        · rw [kindAt_whenTemporal, he]
      · exact foresighted_postfixTail _ _ _ _

theorem foresighted_extend (level : Nat) : Foresighted callable (extend level) :=
  .repeated (foresighted_extendOnce level)

theorem foresighted_expression (level : Nat) : Foresighted callable (expression level) :=
  .group <| .bind foresighted_operandHead fun _ =>
    .bind (.when <| foresighted_extend level) fun _ => .pure _

/-! ### Bounds -/

/-- A group of bound values is called behind the test for its opening mark. -/
theorem foresighted_boundValue : Foresighted callable boundValue := by
  intro setting enter s
  refine .node rfl <| .look (run_peek 0 _) (.peek 0) <| .look (run_peek 1 _) (.peek 1) ?_
  split
  · exact Foresighted.bump _ _ _
  · exact Foresighted.bump.bind (fun _ => .bump) _ _ _
  · next hgroup =>
    refine .bind (.call ?_) (Foresighted.pure _ _ _ _)
    exact beq_iff_eq.mpr ((State.kindAt_eq _ 0).symm.trans (kindAt_of_group hgroup))
  · exact foresighted_qualName.ignore _ _ _
  · exact .report rfl

theorem foresighted_boundProduct : Foresighted callable boundProduct :=
  .node (fun _ => rfl) <| .bind foresighted_boundValue fun _ => .repeated <|
    .bind (.peek 0) fun _ => .bind (.peek 1) fun _ => .bind (.peek 2) fun _ =>
    .bind (.when <| .bind .bump fun _ => foresighted_boundValue) fun _ => .pure _

theorem foresighted_boundUnion : Foresighted callable boundUnion :=
  .node (fun _ => rfl) <| .bind foresighted_boundProduct fun _ => .repeated <| .bind .eat fun _ =>
    .bind (.when foresighted_boundProduct) fun _ => .pure _

theorem foresighted_boundGroup : Foresighted callable boundGroup :=
  .bind .currentRange fun _ => .bind .bump fun _ => .bind foresighted_boundUnion fun _ =>
    .bind (.ignore .expectCloser) fun _ => .pure _

theorem foresighted_boundLhs : Foresighted callable boundLhs :=
  .node (fun _ => rfl) <| .bind .eat fun _ => .bind (.ignore foresighted_qualName) fun _ =>
    .loop fun _ => .bind (.andAlso .currentIs (.nthPasses _ _)) fun _ =>
    .bind (.when <| .bind .bump fun _ => .ignore foresighted_qualName) fun _ => .pure _

theorem isComparison_of_boundOperator :
    ∀ k ∈ boundOperators, Operator.isComparison k = true := by
  decide

/-- The relation of a bound is one of the comparisons. -/
theorem foresighted_bound : Foresighted callable bound := by
  have hrelation (simple : Bool) : Foresighted callable (do
      let related ← currentIn boundOperators
      if related then do
        tokenNode .compareOp
        boundUnion
      else when (!simple) (report .boundOperator)) := by
    intro setting enter s
    refine .look (run_currentIn boundOperators s) .currentIn <| .ite
      (fun hrelated => .bind (.node ?_ (Foresighted.bump _ _ _)) (foresighted_boundUnion _ _ _))
      fun _ => .when fun _ => .report rfl
    obtain ⟨k, hk, hmem⟩ := (Option.any_eq_true _ _).mp hrelated
    rw [foreseen, comparisonAhead, prefixedAhead, ← State.kindAt_eq, hk, Option.any_some,
      isComparison_of_boundOperator k (List.contains_iff_mem.mp hmem), Bool.true_or]
  exact .node (fun _ => rfl) <| .bind .eat fun _ => .bind foresighted_boundLhs fun simple =>
    .when (hrelation simple)

theorem foresighted_bounds : Foresighted callable bounds :=
  .node (fun _ => rfl) <| .bind (.ignore .eat) fun _ => .bind .currentIs fun _ => .ite
    (.bind .currentRange fun _ => .bind .bump fun _ =>
      .bind (.within <| .items (fun _ => rfl) <|
        .bind (.orElse .currentIn foresighted_atQualName) fun _ => .when foresighted_bound) fun _ =>
      .ignore .expectCloser)
    (.bind foresighted_atQualName fun _ =>
      .ite (.ignore foresighted_qualName) (.report fun _ => rfl))

/-! ### Commands and instances -/

theorem foresighted_atScope : Foresighted callable atScope :=
  .andAlso .currentIs (.orElse (.nthIs _ _) (.andAlso (.nthIs _ _) (.nthIs _ _)))

theorem run_atScope (s : State) : atScope.run setting enter s = (scopeAhead s.kinds, s) := by
  simp only [scopeAhead, ← State.kindAt_eq]
  exact run_andAlso_look (run_currentIs _ s) <|
    run_orElse_look (run_nthIs 1 _ s) (run_andAlso_look (run_nthIs 1 _ s) (run_nthIs 2 _ s))

theorem foresighted_typescope : Foresighted callable typescope :=
  .node (fun _ => rfl) <| .bind (.ignore .eat) fun _ => .bind .currentIs fun _ =>
    .ite (.bind .bump fun _ => .ignore foresighted_qualName) (.report fun _ => rfl)

theorem foresighted_typescopes : Foresighted callable typescopes :=
  .bind foresighted_typescope fun _ => .repeated <|
    .bind (.andAlso .currentIs (.nthPasses _ _)) fun _ =>
    .bind (.when <| .bind .bump fun _ => foresighted_typescope) fun _ => .pure _

theorem foresighted_atTypescope : Foresighted callable atTypescope :=
  .orElse .currentIs <| .andAlso .currentIs <|
    .orElse (.nthPasses _ _) (.andAlso (.nthIs _ _) (.nthIs _ _))

theorem run_atTypescope (s : State) : atTypescope.run setting enter s
    = (s.kindAt 0 == some (.keyword .exactlyKw) || (s.kindAt 0 == some .number
        && ((s.kindAt 1).any TokenKind.isNameSegment
          || (s.kindAt 1 == some (.keyword .thisKw) && s.kindAt 2 == some (.punct .slash)))), s) :=
  run_orElse_look (run_currentIs _ s) <| run_andAlso_look (run_currentIs _ s) <|
    run_orElse_look (run_nthPasses 1 _ s) (run_andAlso_look (run_nthIs 1 _ s) (run_nthIs 2 _ s))

theorem kindAt_expect {k : TokenKind} (h : s.kindAt 0 = some k) (n : Nat) :
    ((ignore (expect k) : Rule Nonterminal Unit).run setting enter s).2.kindAt n
      = s.kindAt (n + 1) := by
  simp only [expect, expectToken, run_ignore, run_bind, run_eat, h, beq_self_eq_true, if_true]
  exact State.kindAt_bump s n

/-- What is behind the `for` of a scope. -/
def scopeBody : Rule Nonterminal Unit := do
  let typed ← atTypescope
  let number ← currentIs .number
  if typed then typescopes
  else if number then do
    bump
    let but ← eat Keyword.butKw
    when but typescopes
  else report .scope

theorem foresees_scopeBody
    (h : s.kindAt 0 = some .number ∨ s.kindAt 0 = some (.keyword .exactlyKw)) :
    Foresees callable setting enter scopeBody s := by
  have hdefault : Foresighted callable (do
      bump
      let but ← eat Keyword.butKw
      when but typescopes) :=
    .bind .bump fun _ => .bind .eat fun _ => .when foresighted_typescopes
  refine .look (run_atTypescope s) foresighted_atTypescope <|
    .look (run_currentIs _ s) .currentIs <| .ite (fun _ => foresighted_typescopes _ _ _)
    fun htyped => .ite (fun _ => hdefault _ _ _) fun hnumber => ?_
  rcases h with h | h
  · simp [h] at hnumber
  · simp [h] at htyped

/-- A scope begins behind the test for it, so it is never reported as malformed. -/
theorem foresees_scope (h : scopeAhead s.kinds = true) :
    Foresees callable setting enter scope s := by
  have hbehind (t : State) (ht : t.kinds = s.kinds) :
      let u := ((ignore (expect Keyword.forKw) : Rule Nonterminal Unit).run setting enter t).2
      u.kindAt 0 = some .number ∨ u.kindAt 0 = some (.keyword .exactlyKw) := by
    simp only [← ht, scopeAhead, ← State.kindAt_eq, Bool.and_eq_true, Bool.or_eq_true,
      beq_iff_eq] at h
    obtain ⟨hfor, hnumber⟩ := h
    simp only [kindAt_expect hfor]
    exact hnumber.imp_right And.left
  exact .node h <| .within <| .bind (Foresighted.expect.ignore _ _ _)
    (foresees_scopeBody (hbehind _ rfl))

theorem foresighted_scopeAndBounds : Foresighted callable scopeAndBounds := by
  have hbounds : Foresighted callable (do
      let bounded ← eat Keyword.forKw
      when bounded bounds) :=
    .bind .eat fun _ => .when foresighted_bounds
  intro setting enter s
  exact .look (run_atScope s) foresighted_atScope <|
    .bind (.when fun hscope => foresees_scope hscope) (hbounds _ _ _)

theorem foresighted_optionalTarget : Foresighted callable optionalTarget :=
  .bind foresighted_atQualName fun _ => .bind .currentIs fun _ =>
    .ite (.ignore foresighted_qualName) (.when foresighted_block)

theorem foresighted_target : Foresighted callable (do optionalTarget; scopeAndBounds) :=
  .bind foresighted_optionalTarget fun _ => foresighted_scopeAndBounds

theorem kindAt_label (h : s.kindAt 0 = some .ident) (n : Nat) :
    (label.run setting enter s).2.kindAt n = s.kindAt (n + 2) := by
  simp only [label, name, run_bind, run_ignore, run_currentIs, h]
  exact (State.kindAt_bump _ n).trans <|
    State.kindAt_bump { s.attachPending with siblings := [] } (n + 1)

/-- The word of a command is behind its label. -/
theorem kindAt_command (h : commandAhead s.kinds = true) :
    (((when (s.kindAt 0 == some .ident) label).run setting enter s).2.kindAt 0).any
      commands.contains = true := by
  rw [commandAhead, ← State.kindAt_eq, ← State.kindAt_eq, ← State.kindAt_eq] at h
  by_cases hlabel : s.kindAt 0 = some .ident
  · rw [beq_iff_eq.mpr hlabel, run_when_true, kindAt_label hlabel]
    rw [hlabel] at h
    exact (Bool.and_eq_true_iff.mp h).2
  · rw [beq_eq_false_iff_ne.mpr hlabel] at h ⊢
    rwa [Bool.false_and, Bool.false_and, Bool.or_false] at h

/-- A command begins behind the test for its word, so that is never reported as missing. -/
theorem foresees_cmdDecl (h : commandAhead s.kinds = true) :
    Foresees callable setting enter cmdDecl s := by
  have hlabel : Foresighted callable label := .bind (.ignore foresighted_name) fun _ => .bump
  exact .node h <| .look (run_currentIs .ident _) .currentIs <| .bind (hlabel.when _ _ _) <|
    .look (run_currentIn commands _) .currentIn <|
    .bind (.pick (fun _ => Foresighted.bump _ _ _) fun hother =>
      absurd (kindAt_command (s := { s.attachPending with siblings := [] }) h) hother)
      (foresighted_target _ _ _)

theorem foresighted_instDecl : Foresighted callable instDecl := by
  have hscope : Foresighted callable (do
      let limited ← atScope
      when limited scope) := fun setting enter s =>
    .look (run_atScope s) foresighted_atScope <| .when fun hscope => foresees_scope hscope
  exact .node (fun _ => rfl) <| .bind .bump fun _ => .bind (.ignore foresighted_name) fun _ =>
    .bind foresighted_bounds fun _ => hscope

/-! ### Predicates, functions and facts -/

theorem foresighted_declBody (owner : BodyOwner) : Foresighted callable (declBody owner) :=
  .bind .currentIs fun _ => .ite foresighted_block (.report fun _ => rfl)

/-- A receiver is read behind the test for it. -/
theorem foresighted_optionalReceiver : Foresighted callable optionalReceiver := by
  have hreceiver : Foresighted callable (do ignore qualName; bump) :=
    .bind (.ignore foresighted_qualName) fun _ => .bump
  intro setting enter s
  exact .look (run_ahead receiverAhead s) (.ahead _) <|
    .when fun hpresent => .node hpresent (hreceiver _ _ _)

theorem foresighted_paraDecl : Foresighted callable paraDecl :=
  .node (fun _ => rfl) <| .bind (.ignore .eat) fun _ =>
    .bind (.ignore foresighted_nameList) fun _ => .bind (.ignore .expect) fun _ =>
    .bind (foresighted_optionalMult _) fun _ => .ignore foresighted_expr

theorem foresighted_paraItem (closer : Punct) : Foresighted callable (paraItem closer) :=
  .bind .currentIs fun _ => .bind .atEnd fun _ => .ite (.pure _) <| .bind .currentIn fun _ =>
    .bind .atRecoveryPoint fun _ => .ite (.bind foresighted_paraDecl fun _ => .eat) <|
    .ite (.pure _) <| .bind (.skipUntil fun _ => rfl) fun _ => .eat

theorem foresighted_paraDecls : Foresighted callable paraDecls :=
  .node (fun _ => rfl) <| .bind .currentIs fun _ => .bind .currentRange fun _ =>
    .bind .bump fun _ => .bind (.within <| .repeated <| foresighted_paraItem _) fun _ =>
    .ignore .expectCloser

theorem foresighted_optionalParaDecls : Foresighted callable optionalParaDecls :=
  .bind .currentIn fun _ => .when foresighted_paraDecls

theorem foresighted_predDecl : Foresighted callable predDecl :=
  .node (fun _ => rfl) <| .bind .bump fun _ => .bind .currentIs fun _ =>
    .bind (.when (.tokenNode fun _ => rfl)) fun _ => .bind foresighted_optionalReceiver fun _ =>
    .bind (.ignore foresighted_name) fun _ => .bind foresighted_optionalParaDecls fun _ =>
    foresighted_declBody _

theorem foresighted_funDecl : Foresighted callable funDecl :=
  .node (fun _ => rfl) <| .bind .bump fun _ => .bind foresighted_optionalReceiver fun _ =>
    .bind (.ignore foresighted_name) fun _ => .bind foresighted_optionalParaDecls fun _ =>
    .bind (.ignore .expect) fun _ => .bind (foresighted_optionalMult _) fun _ =>
    .bind (.ignore foresighted_expr) fun _ => foresighted_declBody _

theorem foresighted_factDecl : Foresighted callable factDecl :=
  .node (fun _ => rfl) <| .bind .bump fun _ => .bind .currentIs fun _ =>
    .bind (.when <| .ignore foresighted_name) fun _ => foresighted_declBody _

/-! ### Signatures -/

theorem foresighted_sigModifier : Foresighted callable sigModifier :=
  .bind .currentIs fun _ => .bind .currentIs fun _ => .bind .currentIn fun _ =>
    .ite (.bind .requireTemporal fun _ => .bind .bump fun _ => .pure _) <|
      .ite (.bind .bump fun _ => .pure _) <|
        .ite (.bind (.tokenNode fun _ => rfl) fun _ => .pure _) (.pure _)

theorem foresighted_sigExt : Foresighted callable sigExt :=
  .node (fun _ => rfl) <| .bind .currentIs fun _ => .bind .bump fun _ =>
    .bind (.ignore foresighted_qualName) fun _ => .when <| .repeated <| .bind .eat fun _ =>
    .bind (.when <| .ignore foresighted_qualName) fun _ => .pure _

theorem foresighted_fieldDecl : Foresighted callable fieldDecl :=
  .node (fun _ => rfl) <| .bind .currentIs fun _ =>
    .bind (.when <| .bind .requireTemporal fun _ => .bump) fun _ =>
    .bind (.ignore foresighted_nameList) fun _ => .bind (.ignore .expect) fun _ =>
    .bind (foresighted_optionalMult _) fun _ => .ignore (foresighted_exprAt _)

theorem foresighted_fieldEnd : Foresighted callable fieldEnd :=
  .bind .eat fun _ => .when <| .bind .currentIn fun _ => .when (.report fun _ => rfl)

theorem foresighted_fieldItem : Foresighted callable fieldItem :=
  .bind .currentIs fun _ => .bind .atEnd fun _ => .ite (.pure _) <| .bind .currentIn fun _ =>
    .bind .currentIs fun _ => .bind .atRecoveryPoint fun _ =>
    .ite (.bind foresighted_fieldDecl fun _ => .bind foresighted_fieldEnd fun _ => .pure _) <|
    .ite (.bind (.skipToken fun _ => rfl) fun _ => .pure _) <| .ite (.pure _) <|
    .bind (.skipUntil fun _ => rfl) fun _ => .bind foresighted_fieldEnd fun _ => .pure _

theorem foresighted_fieldList : Foresighted callable fieldList :=
  .node (fun _ => rfl) <| .bind .currentRange fun _ => .bind .expect fun _ => .when <|
    .bind (.within <| .repeated foresighted_fieldItem) fun _ => .ignore .expectCloser

theorem foresighted_sigDecl : Foresighted callable sigDecl :=
  .node (fun _ => rfl) <| .bind (.repeated foresighted_sigModifier) fun _ =>
    .bind (.ignore <| .expectToken fun _ => rfl) fun _ => .bind (.ignore foresighted_nameList)
    fun _ => .bind .currentIn fun _ => .bind (.when foresighted_sigExt) fun _ =>
    .bind foresighted_fieldList fun _ => .bind .currentIs fun _ => .when foresighted_block

/-! ### Assertions -/

theorem foresighted_optionalArguments : Foresighted callable optionalArguments :=
  .bind .currentIs fun _ => .when <| .bind .currentRange fun _ => .bind .bump fun _ =>
    .bind foresighted_arguments fun _ => .ignore .expectCloser

theorem foresighted_assertionTail (form : AssertionForm) :
    Foresighted callable (assertionTail form) := by
  refine .bind .bump fun _ => .bind .currentIs fun failing => .bind .bump fun _ => ?_
  cases form with
  | property =>
    exact .bind (.ignore .expect) fun _ => .bind (.ignore foresighted_name) fun _ =>
      foresighted_scopeAndBounds
  | quantifiedProperty =>
    exact .bind (.ignore .expect) fun _ => .bind (.ignore foresighted_name) fun _ =>
      .bind foresighted_optionalArguments fun _ => foresighted_scopeAndBounds
  | satisfiability =>
    exact .bind (.when <| .ignore .eat) fun _ => foresighted_scopeAndBounds
  | consistency =>
    exact .bind (.ignore .expect) fun _ => .bind (.ignore foresighted_name) fun _ =>
      foresighted_scopeAndBounds

/-- The declarations of a quantified property are begun behind the test for them. -/
theorem foresighted_asserted : Foresighted callable asserted := by
  have hquantified : Foresighted callable (do
      binderBody
      let property ← atProperty
      if property then return Asserted.quantified
      else do
        enclose .quantExpr (return ())
        return Asserted.expression) :=
    .bind foresighted_binderBody fun _ => .bind (.andAlso .currentIs (.nthPasses _ _)) fun _ =>
      .ite (.pure _) (.bind (.enclose (fun _ => rfl) (.pure _)) fun _ => .pure _)
  have hnamed : Foresighted callable (do
      ignore name
      block
      return Asserted.plain) :=
    .bind (.ignore foresighted_name) fun _ => .bind foresighted_block fun _ => .pure _
  have hblock : Foresighted callable (do
      group do
        block
        extend 0
      let tagged ← currentIs Keyword.isKw
      return if tagged then Asserted.expression else .plain) :=
    .bind (.group <| .bind foresighted_block fun _ => foresighted_extend 0) fun _ =>
      .bind .currentIs fun _ => .pure _
  have hexpr : Foresighted callable (do
      ignore expr
      return Asserted.expression) :=
    .bind (.ignore foresighted_expr) fun _ => .pure _
  intro setting enter s
  refine .look (run_andAlso_look (run_currentIs _ s) (run_nthIs 1 _ s))
      (.andAlso .currentIs (.nthIs _ _)) <|
    .look (run_currentIs _ s) .currentIs <| .look (run_currentIs _ s) .currentIs <|
    .look (run_andAlso_look rfl (run_ahead declarationBehind s)) (.andAlso (.pure _) (.ahead _)) <|
    .ite (fun _ => hnamed _ _ _) fun _ => .ite (fun _ => hblock _ _ _) fun _ =>
    .ite (fun hall => ?_) fun _ => hexpr _ _ _
  have hbehind := (Bool.and_eq_true_iff.mp (Bool.and_eq_true_iff.mp hall).2).2
  exact .group <| .bind (Foresighted.bump _ _ _) <|
    .bind (foresees_quantDecls
      (declarationAhead_bump (s := { s.attachPending with siblings := [] }) hbehind))
    (hquantified _ _ _)

theorem formAhead_of_ofTag? {quantified : Bool} {form : AssertionForm}
    (h : (if s.kindAt 0 == some (.keyword .isKw)
      then (s.kindAt 1).bind (AssertionForm.ofTag? quantified) else none) = some form) :
    formAhead form.node s.kinds = true := by
  split at h
  · next his =>
    obtain ⟨tag, htag, hform⟩ := Option.bind_eq_some_iff.mp h
    rw [formAhead, ← State.kindAt_eq, ← State.kindAt_eq, his, htag, Option.any_some, Bool.true_and]
    refine List.any_eq_true.mpr ⟨quantified, by cases quantified <;> decide, ?_⟩
    rw [hform, Option.any_some, beq_self_eq_true]
  · cases h

/-- The form of an assertion is told by the word behind `is`. -/
theorem foresighted_assertion : Foresighted callable assertion := by
  have hplain : Foresighted callable (do
      enclose .assertDecl (return ())
      return false) :=
    .bind (.enclose (fun _ => rfl) (.pure _)) fun _ => .pure _
  refine .group <| .bind .bump fun _ => .bind foresighted_asserted fun body => ?_
  intro setting enter s
  refine .ite (fun _ => hplain _ _ _) fun _ => .look (run_currentIs _ s) .currentIs <|
    .look (run_peek 1 s) (.peek 1) ?_
  split
  · next form hform =>
    have hahead : foreseen form.node s.kinds = true := by
      have hseen := formAhead_of_ofTag? hform
      cases form <;> exact hseen
    exact .bind (.enclose hahead (foresighted_assertionTail form _ _ _))
      (Foresighted.pure _ _ _ _)
  · exact .bind (.enclose rfl (.report rfl)) (Foresighted.pure _ _ _ _)

/-! ### Tests and examples -/

theorem foresighted_testDecl : Foresighted callable testDecl := by
  have hresult : Foresighted callable testResult :=
    .bind .currentIn fun _ => .bind .currentIs fun _ => .ite .bump <|
      .ite (.bind .bump fun _ => .ignore .eat) (.report fun _ => rfl)
  exact .node (fun _ => rfl) <| .bind (.andAlso .currentIs (.nthIs _ _)) fun _ =>
    .bind (.when <| .bind (.ignore foresighted_name) fun _ => .bump) fun _ =>
    .bind foresighted_optionalTarget fun _ => .bind foresighted_scopeAndBounds fun _ =>
    .bind (.ignore .expect) fun _ => hresult

theorem foresighted_testBlock (context : Context) {item : Rule Nonterminal Unit}
    (hitem : Foresighted callable item) : Foresighted callable (testBlock context item) :=
  .node (fun _ => rfl) <| .bind .currentRange fun _ => .bind .expect fun _ => .when <|
    .bind (.within <| .items (fun _ => rfl) hitem) fun _ => .ignore .expectCloser

theorem foresighted_testItem : Foresighted callable testItem :=
  .bind (.orElse .currentIs foresighted_atQualName) fun _ => .when foresighted_testDecl

theorem foresighted_testExpectDecl : Foresighted callable testExpectDecl :=
  .node (fun _ => rfl) <| .bind (.ignore .eat) fun _ => .bind (.ignore .expect) fun _ =>
    .bind .currentIs fun _ => .bind (.when <| .ignore foresighted_name) fun _ =>
    foresighted_testBlock _ foresighted_testItem

theorem foresighted_exampleDecl : Foresighted callable exampleDecl :=
  .node (fun _ => rfl) <| .bind .bump fun _ => .bind (.ignore foresighted_name) fun _ =>
    .bind (.ignore .expect) fun _ => .bind (.ignore foresighted_expr) fun _ =>
    .bind (.ignore .expect) fun _ => foresighted_bounds

theorem foresighted_suiteItem : Foresighted callable suiteItem := by
  refine .bind (.peek 0) fun first => .bind (.peek 1) fun second => ?_
  split
  · exact foresighted_exampleDecl
  · exact foresighted_testExpectDecl
  · exact .bind foresighted_assertion fun _ => .when (.report fun _ => rfl)
  · exact .ite foresighted_testExpectDecl <| .bind .atRecoveryPoint fun _ =>
      .when <| .skipToken fun _ => rfl

theorem foresees_testSuiteDecl (h : suiteAhead s.kinds = true) :
    Foresees callable setting enter testSuiteDecl s := by
  have hbody : Foresighted callable (do
      bump
      bump
      ignore (expect Keyword.forKw)
      ignore name
      testBlock .testSuiteBody suiteItem) :=
    .bind .bump fun _ => .bind .bump fun _ => .bind (.ignore .expect) fun _ =>
      .bind (.ignore foresighted_name) fun _ => foresighted_testBlock _ foresighted_suiteItem
  exact .node h (hbody _ _ _)

/-! ### Modules -/

theorem foresighted_moduleDecl : Foresighted callable moduleDecl :=
  .node (fun _ => rfl) <| .bind .bump fun _ => .bind foresighted_atQualName fun _ =>
    .bind (.pick (.ignore foresighted_qualName) (.report fun _ => rfl)) fun _ =>
    .bind .currentIs fun _ => .when <| .bind .currentRange fun _ => .bind .bump fun _ =>
    .bind (.ignore foresighted_nameList) fun _ => .ignore .expectCloser

theorem foresighted_importTarget : Foresighted callable importTarget :=
  .bind foresighted_atQualName fun _ => .bind .currentIs fun _ => .ite
    (.bind (.ignore foresighted_qualName) fun _ => .bind .currentIs fun _ => .when <|
      .bind .currentRange fun _ => .bind .bump fun _ => .bind foresighted_qualNameList fun _ =>
      .ignore .expectCloser)
    (.ite .bump (.report fun _ => rfl))

theorem foresighted_importDecl : Foresighted callable importDecl :=
  .node (fun _ => rfl) <| .within <| .bind .bump fun _ => .bind foresighted_importTarget fun _ =>
    .bind .eat fun _ => .when <| .ignore foresighted_name

theorem foresighted_optionDecl : Foresighted callable optionDecl := by
  have hvalue : Foresighted callable optionValue :=
    .bind (.peek 0) fun _ => .bind (.peek 1) fun _ => .bind foresighted_atQualName fun _ =>
      .ite .bump <| .ite (.bind .bump fun _ => .bump) <|
      .ite (.ignore foresighted_qualName) (.report fun _ => rfl)
  exact .node (fun _ => rfl) <| .bind .bump fun _ => .bind .currentText fun _ =>
    .bind (.ignore foresighted_qualName) fun _ => .bind .currentText fun _ => .bind hvalue fun _ =>
    .when .admitTemporal

theorem foresighted_evalDecl : Foresighted callable evalDecl :=
  .node (fun _ => rfl) <| .bind .bump fun _ => .ignore foresighted_expr

theorem commandAhead_of_paragraph
    (h : ParagraphStart.ofTokens? (s.kindAt 0) (s.kindAt 1) (s.kindAt 2) = some .command) :
    commandAhead s.kinds = true := by
  simp only [commandAhead, ← State.kindAt_eq]
  unfold ParagraphStart.ofTokens? at h
  split at h
  case h_5 hrun => rw [hrun]; rfl
  case h_6 hcheck => rw [hcheck]; rfl
  case h_7 hlabel =>
    split at h
    · next hcommand =>
      rw [Bool.and_eq_true, beq_iff_eq, Bool.or_eq_true, beq_iff_eq, beq_iff_eq] at hcommand
      rcases hcommand with ⟨hcolon, hrun | hcheck⟩
      · rw [hlabel, hcolon, hrun]; rfl
      · rw [hlabel, hcolon, hcheck]; rfl
    · cases h
  all_goals try split at h
  all_goals try split at h
  all_goals cases h

theorem suiteAhead_of_paragraph
    (h : ParagraphStart.ofTokens? (s.kindAt 0) (s.kindAt 1) (s.kindAt 2) = some .testSuite) :
    suiteAhead s.kinds = true := by
  simp only [suiteAhead, ← State.kindAt_eq]
  unfold ParagraphStart.ofTokens? at h
  split at h
  case h_8 htest =>
    split at h
    · next hsuite => rw [htest, hsuite]; rfl
    · split at h <;> cases h
  all_goals try split at h
  all_goals cases h

/-- A paragraph begins behind the test for its first tokens. -/
theorem foresees_paragraph {form : ParagraphStart}
    (h : ParagraphStart.ofTokens? (s.kindAt 0) (s.kindAt 1) (s.kindAt 2) = some form) :
    Foresees callable setting enter form.rule s := by
  cases form with
  | sig => exact foresighted_sigDecl _ _ _
  | pred => exact foresighted_predDecl _ _ _
  | func => exact foresighted_funDecl _ _ _
  | fact => exact foresighted_factDecl _ _ _
  | assertion => exact foresighted_assertion.ignore _ _ _
  | command => exact foresees_cmdDecl (commandAhead_of_paragraph h)
  | testSuite => exact foresees_testSuiteDecl (suiteAhead_of_paragraph h)
  | testExpect => exact foresighted_testExpectDecl _ _ _
  | exampleTest => exact foresighted_exampleDecl _ _ _
  | inst => exact foresighted_instDecl _ _ _
  | option => exact foresighted_optionDecl _ _ _
  | sexpr => exact .node rfl (Foresighted.bump _ _ _)

theorem foresighted_declaration (seen : Seen) : Foresighted callable (declaration seen) := by
  intro setting enter s
  refine .look (run_peek 0 s) (.peek 0) <| .look (run_peek 1 s) (.peek 1) <|
    .look (run_peek 2 s) (.peek 2) ?_
  split
  · exact (Foresighted.bind (.report fun _ => rfl) fun _ => .bind foresighted_moduleDecl fun _ =>
      .pure _) _ _ _
  · exact (Foresighted.bind (.when (.report fun _ => rfl)) fun _ =>
      .bind foresighted_importDecl fun _ => .pure _) _ _ _
  · exact (Foresighted.bind (.when (.report fun _ => rfl)) fun _ =>
      .bind foresighted_evalDecl fun _ => .pure _) _ _ _
  · split
    · next form hform =>
      -- a report that comes first takes no tokens
      have hsame (mixes : Bool) (n : Nat) : ((when mixes (report .paragraphAfterEval) :
          Rule Nonterminal Unit).run setting enter s).2.kindAt n = s.kindAt n := by
        cases mixes with
        | false => rfl
        | true => exact kindAt_congr (State.report_words setting _ s) n
      refine .bind ((Foresighted.report fun _ => rfl).when _ _ _) <|
        .bind (foresees_paragraph ?_) (Foresighted.pure _ _ _ _)
      rw [hsame, hsame, hsame, hform]
    · exact Foresighted.pure _ _ _ _

end

/-! ### Whole grammars -/

theorem foresighted_body (symbol : Nonterminal) : Foresighted callable (language.body symbol) := by
  cases symbol with
  | expression level => exact foresighted_expression level
  | boundGroup => exact foresighted_boundGroup

theorem foresighted_moduleItem (seen : Seen) : Foresighted callable (moduleItem seen) :=
  .bind .atEnd fun _ => .ite (.pure _) <| .bind (.progress <| foresighted_declaration seen) fun _ =>
    .bind .atEnd fun _ => .bind (.when <| .skipUntil fun _ => rfl) fun _ => .pure _

theorem foresighted_sourceFile : Foresighted callable sourceFile :=
  .bind .currentIs fun _ => .bind (.when foresighted_moduleDecl) fun _ =>
    .ignore <| .loop foresighted_moduleItem

theorem foresighted_exprRoot : Foresighted callable exprRoot :=
  .within <| .bind (.ignore foresighted_expr) fun _ => .bind .atEnd fun _ => .when <|
    .bind (.report fun _ => rfl) fun _ => .node (fun _ => rfl) <| .repeated <| .bind .atEnd fun _ =>
    .bind (.when .bump) fun _ => .pure _

/-- Whatever a text is read as, the rule for it may be followed in front of any tokens. -/
theorem foresighted_entry (entry : Entry) : Foresighted callable entry.rule := by
  cases entry with
  | wholeModule => exact foresighted_sourceFile
  | oneExpression => exact foresighted_exprRoot

section

variable {α β : Type} {setting : Setting} {levels n : Nat} {rule : Rule Nonterminal α} {s t : State}

/-- Wherever following a rule leads through calls, the tokens are ahead that are needed there. -/
theorem foreseen_of_comes {part : Rule Nonterminal β} (hrule : Foresighted callable rule)
    (h : language.Comes setting levels rule s n part t) : Foreseen callable part t := by
  cases h with
  | inside h => exact hrule _ _ _ _ _ _ h
  | deeper _ h => exact foresighted_body _ _ _ _ _ _ _ h

/-- Past the last level text is skipped where an expression can begin, or a group of bound values
has been called. -/
theorem foresees_beyond {symbol : Nonterminal} (h : callable symbol s.kinds = true) :
    Foresees (fun _ _ => false) setting nofun (language.beyond symbol) s := by
  cases symbol with
  | expression =>
    refine .look (run_nthPasses 0 Operator.startsExpr s) (.nthPasses _ _) <|
      .bind (.when fun hstarts => foresees_skipNested ?_) (Foresighted.pure _ _ _ _)
    obtain ⟨k, hk, hstarts⟩ := (Option.any_eq_true _ _).mp hstarts
    rw [reportable, ← State.kindAt_eq, hk, Option.any_some, hstarts, Bool.true_or]
  | boundGroup =>
    refine .bind (foresees_skipNested ?_) (Foresighted.pure _ _ _ _)
    rw [reportable, eq_of_beq h]
    rfl

theorem foreseen_of_comesBeyond {part : Rule Empty β} (hrule : Foresighted callable rule)
    (h : language.ComesBeyond setting levels rule s part t) :
    Foreseen (fun _ _ => false) part t := by
  obtain ⟨symbol, u, hcall, hvisits⟩ := h
  exact foresees_beyond (foreseen_of_comes hrule hcall) _ _ _ hvisits

end

end RelLang.Grammar
