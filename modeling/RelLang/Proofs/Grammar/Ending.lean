import RelLang.Proofs.Grammar.Advance
import RelLang.Proofs.Grammar.Fits

/-!
# Every loop advances

The rules that make nodes of operators, and those built on them. With them all loops
of the grammar advance, those of a module and of a single expression among them.
-/

namespace RelLang.Grammar

open Rule

/-- All loops advance. -/
abbrev Ends {ν α : Type} (setting : Setting) (enter : ν → State → Bool × State)
    (rule : Rule ν α) : Prop :=
  rule.Every (fun _ => True) (Advancing setting enter)

theorem Advances.ends {ν α : Type} {setting : Setting} {enter : ν → State → Bool × State}
    {rule : Rule ν α} (h : Advances setting enter rule) : Ends setting enter rule :=
  h.mono (fun _ _ => trivial) fun _ _ => id

/-- All loops advance, and no node is an option. -/
abbrev Optionless {ν α : Type} (setting : Setting) (enter : ν → State → Bool × State)
    (rule : Rule ν α) : Prop :=
  rule.Every (· ≠ .optionDecl) (Advancing setting enter)

section

variable {ν α : Type} {setting : Setting} {enter : ν → State → Bool × State} {rule : Rule ν α}

theorem Advances.optionless (h : Advances setting enter rule) : Optionless setting enter rule :=
  h.mono (fun _ hkind => hkind.2.2) fun _ _ => id

theorem Optionless.ends (h : Optionless setting enter rule) : Ends setting enter rule :=
  h.mono (fun _ _ => trivial) fun _ _ => id

end

variable {setting : Setting} {enter : Nonterminal → State → Bool × State}

/-! ### Expressions -/

/-- No operator makes an option. -/
theorem node_ne_optionDecl {row : OperatorRow} (h : row ∈ Operator.table) :
    row.node ≠ .optionDecl := by
  have hrows : ∀ row ∈ Operator.table, row.node ≠ .optionDecl := by decide
  exact hrows row h

theorem node_ne_optionDecl_of_extension? {first : TokenKind} {second : Option TokenKind}
    {e : Operator.Extension} (h : Operator.extension? first second = some e) :
    e.node ≠ .optionDecl := by
  obtain ⟨k, row, hrow, rfl, -⟩ := Operator.ofRow_of_extension? h
  exact node_ne_optionDecl (Operator.mem_table_of_infixRow? hrow)

theorem optionless_operandHead (henter : Steady enter) : Optionless setting enter operandHead := by
  unfold operandHead
  refine ⟨trivial, fun first => ⟨advances_atBinder.optionless, fun isBinder => ?_⟩⟩
  dsimp only
  split
  · trivial
  · simp only [every_ite, every_bind]
    refine ⟨fun _ => ⟨(advances_binder henter _).optionless, fun _ => trivial⟩, fun _ => ?_⟩
    split
    · next hrow =>
      have hnode := node_ne_optionDecl (Operator.mem_table_of_frontRow? hrow)
      simp [hnode, (advances_operand _ _).optionless]
    · exact (advances_atom henter).optionless

theorem advances_infixTail (node : NodeKind) (level : Nat) (operator : TokenKind) :
    Advances setting enter (infixTail node level operator) := by
  have hoperator : Advances setting enter (infixOperator node) := by
    unfold infixOperator
    split <;> simp +decide [compareOperator, arrowOperator]
  simp [infixTail, hoperator]

theorem advances_postfixTail (henter : Steady enter) (operator : TokenKind) :
    Advances setting enter (postfixTail operator) := by
  simp [postfixTail, advances_arguments henter, advances_expectToken]

/-- A token with an optional one in front of it. -/
theorem takes_optionalBump (henter : Steady enter) {α : Type} (optional : Bool)
    {next : Rule Nonterminal α} (h : Takes setting enter AnyToken next) :
    Takes setting enter AnyToken (do when optional bump; next) := by
  cases optional with
  | false => exact h
  | true => exact takes_bump.bind henter _

theorem takes_infixTail (henter : Steady enter) (node : NodeKind) (level : Nat)
    (operator : TokenKind) :
    Takes setting enter AnyToken (infixTail node level operator) := by
  have hcompare : Takes setting enter AnyToken compareOperator :=
    .node (.behind henter (fun _ => rfl) fun _ => takes_optionalBump henter _ takes_bump) _
  have harrow : Takes setting enter AnyToken arrowOperator :=
    .node (.behind henter (fun _ => rfl) fun _ =>
      takes_optionalBump henter _ (takes_bump.bind henter _)) _
  have hoperator : Takes setting enter AnyToken (infixOperator node) := by
    unfold infixOperator
    split
    · exact hcompare
    · exact harrow
    · exact takes_bump
  exact hoperator.bind henter _

theorem takes_postfixTail (henter : Steady enter) (operator : TokenKind) :
    Takes setting enter AnyToken (postfixTail operator) := by
  unfold postfixTail
  split
  · exact takes_bump.bind henter _
  · exact takes_bump

/-- The extension that the tokens ahead ask for. -/
def extensionAt (s : State) : Option (TokenKind × Operator.Extension) :=
  (s.kindAt 0).bind fun k => (Operator.extension? k (s.kindAt 1)).map (k, ·)

/-- Nothing ahead extends an expression of no looser level than the given one. -/
def Stops (level : Nat) (s : State) : Prop :=
  ∀ k e, extensionAt s = some (k, e) → e.level < level

/-- The part of an extension behind the expression that is extended. -/
def extensionTail (k : TokenKind) (e : Operator.Extension) : Rule Nonterminal Unit :=
  match e.operandLevel? with
  | some operandLevel => infixTail e.node operandLevel k
  | none => postfixTail k

/-- One operator behind an expression, with what belongs to it. -/
def extendBy (k : TokenKind) (e : Operator.Extension) : Rule Nonterminal Unit := do
  when e.temporal requireTemporal
  enclose e.node (extensionTail k e)

theorem advances_extensionTail (henter : Steady enter) (k : TokenKind) (e : Operator.Extension) :
    Advances setting enter (extensionTail k e) := by
  unfold extensionTail
  split
  · exact advances_infixTail _ _ _
  · exact advances_postfixTail henter _

/-- An expression is extended by the operator ahead, if that is not too loose. -/
theorem run_extendOnce (setting : Setting) (enter : Nonterminal → State → Bool × State)
    (level : Nat) (s : State) :
    (Stops level s ∧ (extendOnce level).run setting enter s = (false, s)) ∨
    ∃ k e, extensionAt s = some (k, e) ∧ level ≤ e.level ∧
      (extendOnce level).run setting enter s = (true, ((extendBy k e).run setting enter s).2) := by
  unfold extendOnce Stops extensionAt
  simp only [run_bind, run_peek]
  cases hk : s.kindAt 0 with
  | none => exact .inl ⟨by simp, rfl⟩
  | some k =>
    dsimp only [Option.bind_some]
    cases he : Operator.extension? k (s.kindAt 1) with
    | none => exact .inl ⟨by simp, rfl⟩
    | some e =>
      by_cases hlevel : e.level < level
      · exact .inl ⟨by simp [hlevel], by simp [hlevel]⟩
      · refine .inr ⟨k, e, rfl, by omega, ?_⟩
        rw [run_ite, if_neg hlevel]
        rfl

theorem takes_extendBy (henter : Steady enter) (k : TokenKind) (e : Operator.Extension) :
    Takes setting enter AnyToken (extendBy k e) := by
  have hwords : ∀ s : State, ((when e.temporal requireTemporal : Rule Nonterminal Unit).run
      setting enter s).2.words = s.words := by
    cases e.temporal with
    | false => exact fun _ => rfl
    | true => exact words_requireTemporal
  refine .behind henter hwords fun _ => .enclose ?_ _
  unfold extensionTail
  split
  · exact takes_infixTail henter _ _ _
  · exact takes_postfixTail henter _

theorem extensionAt_eq_some {s : State} {k : TokenKind} {e : Operator.Extension} :
    extensionAt s = some (k, e)
      ↔ s.kindAt 0 = some k ∧ Operator.extension? k (s.kindAt 1) = some e := by
  unfold extensionAt
  cases hk : s.kindAt 0 with
  | none => simp
  | some k' =>
    rw [Option.bind_some, Option.map_eq_some_iff]
    constructor
    · rintro ⟨e', he, heq⟩
      obtain ⟨rfl, rfl⟩ := Prod.mk.inj heq
      exact ⟨rfl, he⟩
    · rintro ⟨hkind, he⟩
      obtain rfl := Option.some.inj hkind
      exact ⟨e, he, rfl⟩

/-- An operator takes its own token at least. -/
theorem moves_extendOnce (henter : Steady enter) (level : Nat) :
    Moves setting enter (extendOnce level) := by
  intro s hs hmore
  obtain ⟨-, hrun⟩ | ⟨k, e, he, -, hrun⟩ := run_extendOnce setting enter level s
  · rw [hrun] at hmore
    cases hmore
  · rw [hrun]
    exact takes_extendBy henter k e s hs (State.kindAt_zero_ne_none (extensionAt_eq_some.mp he).1)

theorem optionless_extendOnce (henter : Steady enter) (level : Nat) :
    Optionless setting enter (extendOnce level) := by
  unfold extendOnce
  refine ⟨trivial, fun first => ⟨trivial, fun second => ?_⟩⟩
  dsimp only
  split
  · trivial
  · split
    · trivial
    · next hextension =>
      simp only [every_ite, every_bind, every_when, every_enclose]
      refine ⟨fun _ => trivial, fun _ => ⟨fun _ => trivial, fun _ =>
        ⟨⟨node_ne_optionDecl_of_extension? hextension, ?_⟩, fun _ => trivial⟩⟩⟩
      split
      · exact (advances_infixTail _ _ _).optionless
      · exact (advances_postfixTail henter _).optionless

theorem optionless_extend (henter : Steady enter) (level : Nat) :
    Optionless setting enter (extend level) := by
  simp [extend, (moves_extendOnce henter level).advancing, optionless_extendOnce henter]

theorem optionless_expression (henter : Steady enter) (level : Nat) :
    Optionless setting enter (expression level) := by
  simp [expression, optionless_operandHead henter, optionless_extend henter]

theorem optionless_body (henter : Steady enter) (symbol : Nonterminal) :
    Optionless setting enter (language.body symbol) := by
  cases symbol with
  | expression level => exact optionless_expression henter level
  | boundGroup => exact (advances_boundGroup henter).optionless

theorem ends_body (henter : Steady enter) (symbol : Nonterminal) :
    Ends setting enter (language.body symbol) :=
  (optionless_body henter symbol).ends

theorem advances_beyond (setting : Setting) (enter : Empty → State → Bool × State)
    (symbol : Nonterminal) : Advances setting enter (language.beyond symbol) := by
  have hskip : Advances setting enter (skipNested : Rule Empty Unit) := advances_skipNested
  cases symbol with
  | expression level =>
    exact (every_bind _ _).mpr ⟨every_nthPasses .., fun _ => by simp [hskip]⟩
  | boundGroup => exact (every_bind _ _).mpr ⟨hskip, fun _ => trivial⟩

/-! ### Assertions and test suites -/

theorem optionless_asserted (henter : Steady enter) : Optionless setting enter asserted := by
  simp [asserted, atProperty, (advances_block henter).optionless, optionless_extend henter,
    (advances_quantDecls henter).optionless, (advances_binderBody henter).optionless,
    advances_expr.optionless, advances_name.optionless]

theorem optionless_assertionTail (henter : Steady enter) (form : AssertionForm) :
    Optionless setting enter (assertionTail form) := by
  cases form <;>
    simp [assertionTail, optionalArguments, (advances_arguments henter).optionless,
      (advances_scopeAndBounds henter).optionless, advances_name.optionless,
      (advances_expect _).optionless, (advances_expectCloser _ _).optionless]

theorem optionless_assertion (henter : Steady enter) : Optionless setting enter assertion := by
  have hform (form : AssertionForm) : form.node ≠ .optionDecl := by cases form <;> decide
  unfold assertion
  refine ⟨trivial, fun _ => ⟨optionless_asserted henter, fun body => ?_⟩⟩
  simp only [every_ite, every_bind, every_currentIs, every_peek, true_and]
  refine ⟨fun _ => by simp, fun _ tagged tag => ?_⟩
  split
  · simp [hform, optionless_assertionTail henter]
  · simp

theorem optionless_suiteItem (henter : Steady enter) : Optionless setting enter suiteItem := by
  unfold suiteItem
  refine ⟨trivial, fun first => ⟨trivial, fun second => ?_⟩⟩
  dsimp only
  split
  · exact (advances_exampleDecl henter).optionless
  · exact (advances_testExpectDecl henter).optionless
  · simp [optionless_assertion henter]
  · simp +decide [(advances_testExpectDecl henter).optionless]

theorem optionless_testSuiteDecl (henter : Steady enter) :
    Optionless setting enter testSuiteDecl := by
  have hitems : Optionless setting enter (items .rbrace .noTestConstruct suiteItem) :=
    every_items henter _ _ (by decide) (optionless_suiteItem henter)
  simp [testSuiteDecl, testBlock, hitems, (advances_expect _).optionless,
    (advances_expectCloser _ _).optionless, advances_name.optionless]

/-! ### Modules -/

/-- No paragraph but an option is one or holds one. -/
theorem optionless_paragraph (henter : Steady enter) {form : ParagraphStart}
    (hform : form ≠ .option) : Optionless setting enter form.rule := by
  cases form with
  | sig => exact (advances_sigDecl henter).optionless
  | pred => exact (advances_predDecl henter).optionless
  | func => exact (advances_funDecl henter).optionless
  | fact => exact (advances_factDecl henter).optionless
  | assertion => simpa [ParagraphStart.rule] using optionless_assertion henter
  | command => exact (advances_cmdDecl henter).optionless
  | testSuite => exact optionless_testSuiteDecl henter
  | testExpect => exact (advances_testExpectDecl henter).optionless
  | exampleTest => exact (advances_exampleDecl henter).optionless
  | inst => exact (advances_instDecl henter).optionless
  | option => exact absurd rfl hform
  | sexpr => exact advances_sexprDecl.optionless

theorem ends_paragraph (henter : Steady enter) (form : ParagraphStart) :
    Ends setting enter form.rule := by
  by_cases hform : form = .option
  · have hvalue : Ends setting enter optionValue := (advances_optionValue henter).ends
    subst hform
    simp [ParagraphStart.rule, optionDecl, hvalue, (advances_qualName henter).ends]
  · exact (optionless_paragraph henter hform).ends

theorem ends_declaration (henter : Steady enter) (seen : Seen) :
    Ends setting enter (declaration seen) := by
  unfold declaration
  refine ⟨trivial, fun first => ⟨trivial, fun second => ⟨trivial, fun third => ?_⟩⟩⟩
  dsimp only
  split
  · simp [(advances_moduleDecl henter).ends]
  · simp [(advances_importDecl henter).ends]
  · simp [advances_evalDecl.ends]
  · split
    · simp [ends_paragraph henter]
    · trivial

/-- A declaration that takes nothing is skipped. -/
theorem advancing_moduleItem (henter : Steady enter) : Advancing setting enter Seen moduleItem := by
  intro seen s hs hmore
  have hr := reaches_run setting henter (declaration seen) s
  simp only [moduleItem, run_bind, run_atEnd, run_ite, run_pure, run_progress] at hmore ⊢
  split
  · next hended =>
    rw [if_pos hended] at hmore
    cases hmore
  · next hended =>
    have hsome : s.kindAt 0 ≠ none := by simpa using hended
    dsimp only
    generalize ((declaration seen).run setting enter s).2 = t at hr
    by_cases hleft : t.left = s.left
    · have hsame : t.kindAt 0 ≠ none := by
        rwa [State.kindAt, hr.words_eq_of_left_eq hs hleft]
      have hcond : (!(t.left != s.left) && !(t.kindAt 0).isNone) = true := by
        simpa [hleft, Option.isSome_iff_ne_none] using hsame
      rw [hcond, run_when_true, ← hleft]
      exact takes_skipUntil henter _ _ t (hr.valid hs) hsame
    · have hcond : (!(t.left != s.left) && !(t.kindAt 0).isNone) = false := by
        simp [hleft]
      rw [hcond, run_when_false]
      exact Nat.lt_of_le_of_ne (hr.left_le hs) hleft

theorem ends_sourceFile (henter : Steady enter) : Ends setting enter sourceFile := by
  have hitem : ∀ seen, Ends setting enter (moduleItem seen) := by
    simp [moduleItem, ends_declaration henter, (advances_skipUntil _ _).ends]
  simp [sourceFile, (advances_moduleDecl henter).ends, advancing_moduleItem henter, hitem]

/-- A round of skipping to the end. -/
theorem moves_untilEnd : Moves setting enter (do
    let ended ← atEnd
    when (!ended) bump
    return !ended) := by
  intro s hs hmore
  simp only [run_bind, run_atEnd, run_pure] at hmore ⊢
  rw [hmore]
  exact State.left_bump_lt hs (by simpa [Option.isSome_iff_ne_none] using hmore)

theorem advances_exprRoot : Advances setting enter exprRoot := by
  have hround := (moves_untilEnd : Moves setting enter _).advancing
  simp +decide [exprRoot, hround]

end RelLang.Grammar
