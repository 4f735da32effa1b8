import RelLang.Proofs.Grammar.Ending
import RelLang.Proofs.Rule.Take

/-!
# All or nothing

The items of a list, the declarations of a module and expressions are *all or
nothing*: such a rule takes a token, or it leaves everything as it is and at most
reports something. So what has been read of a list tells whether its last item was one.
-/

namespace RelLang

namespace Grammar

open Rule

section Shared

variable {ν : Type} {setting : Setting} {enter : ν → State → Bool × State} {s : State}

/-! ### Names -/

theorem run_atQualName (s : State) : (atQualName : Rule ν Bool).run setting enter s
    = ((s.kindAt 0).any TokenKind.isNameSegment
        || (s.kindAt 0 == some (.keyword .thisKw) && s.kindAt 1 == some (.punct .slash)), s) := by
  rw [atQualName, run_orElse, run_andAlso, run_nthPasses, run_currentIs, run_nthIs]
  cases (s.kindAt 0).any TokenKind.isNameSegment <;>
    cases s.kindAt 0 == some (.keyword .thisKw) <;> rfl

/-- A qualified name is ahead. -/
def NameAhead (s : State) : Prop :=
  ((s.kindAt 0).any TokenKind.isNameSegment
    || (s.kindAt 0 == some (.keyword .thisKw) && s.kindAt 1 == some (.punct .slash))) = true

theorem takesFrom_qualName (henter : Steady enter) (h : NameAhead s) :
    TakesFrom setting enter s (qualName : Rule ν Bool) := by
  have hname : ∀ t : State, t.words = s.words →
      (atQualName : Rule ν Bool).run setting enter t = (true, t) := by
    intro t hwords
    rw [run_atQualName, kindAt_congr hwords, kindAt_congr hwords, h]
  refine .seen hname <| .node <| .currentIs ?_
  by_cases hthis : s.kindAt 0 = some (.keyword .thisKw)
  · rw [beq_iff_eq.mpr hthis]
    exact ((TakesFrom.bump (by simp [hthis])).bind henter _).bind henter _
  · have hsegment : (s.kindAt 0).any TokenKind.isNameSegment = true := by
      simpa [NameAhead, hthis] using h
    have hsome : s.kindAt 0 ≠ none := fun hnone => by simp [hnone] at hsegment
    refine .behind henter fun _ => .nthPasses ?_
    rw [hsegment]
    exact (TakesFrom.bump hsome).bind henter _

theorem takesFrom_name (henter : Steady enter) (hk : s.kindAt 0 = some .ident) :
    TakesFrom setting enter s (name : Rule ν Bool) := by
  refine .currentIs ?_
  rw [beq_iff_eq.mpr hk]
  exact (TakesFrom.node (.bump (by simp [hk]))).bind henter _

/-! ### Nesting that is too deep -/

/-- What is skipped of a text that is nested too deeply. -/
def nestedText : Rule ν Unit := do
  let isGroup ← nthPasses 0 TokenKind.isOpener
  let _ ← loop 0 fun openers => do
    let ended ← atEnd
    let opener ← nthPasses 0 TokenKind.isOpener
    let closer ← nthPasses 0 TokenKind.isCloser
    if ended || (closer && openers == 0) then return (openers, false)
    else
      let openers := if opener then openers + 1 else if closer then openers - 1 else openers
      bump
      let recovered ← atRecoveryPoint
      return (openers, !(openers == 0 && (isGroup || recovered)))
  return ()

theorem skipNested_eq :
    (skipNested : Rule ν Unit) = report .tooDeep >>= fun _ => node .error nestedText := rfl

/-- What is nested too deeply is skipped from its first token on, if that closes nothing. -/
theorem takesFrom_nestedText (henter : Steady enter) {kind : TokenKind}
    (hk : s.kindAt 0 = some kind) (hcloser : kind.isCloser = false) :
    TakesFrom setting enter s (nestedText : Rule ν Unit) := by
  refine .behind henter fun _ => TakesFrom.bind henter (.loop henter ?_) _
  refine .seen (fun t hwords => by rw [run_atEnd, kindAt_congr hwords]) ?_
  refine .nthPasses <| .nthPasses <| .ite (fun hstop => ?_) fun _ => ?_
  · simp [hk, hcloser] at hstop
  · exact (TakesFrom.bump (by simp [hk])).bind henter _

theorem takesFrom_skipNested (henter : Steady enter) {kind : TokenKind}
    (hk : s.kindAt 0 = some kind) (hcloser : kind.isCloser = false) :
    TakesFrom setting enter s (skipNested : Rule ν Unit) :=
  .behind henter fun _ => .node (takesFrom_nestedText henter hk hcloser)

end Shared

section Nested

variable {setting : Setting} {enter : Nonterminal → State → Bool × State} {s : State}

/-! ### Expressions -/

theorem takesFrom_block (henter : Steady enter) (hk : s.kindAt 0 = some (.punct .lbrace)) :
    TakesFrom setting enter s block :=
  .node <| .behind henter fun _ => TakesFrom.bind henter (.ignore (.expect henter hk)) _

theorem takesFrom_binder (henter : Steady enter) (hk : s.kindAt 0 ≠ none) (keyword : TokenKind) :
    TakesFrom setting enter s (binder keyword) := by
  unfold binder
  split
  all_goals exact .node <| (TakesFrom.bump hk).bind henter _

/-- A name that is an atom is a qualified name. -/
theorem nameAhead_of_nameRef
    (h : AtomForm.ofTokens? (s.kindAt 0) (s.kindAt 1) = some .nameRef) : NameAhead s := by
  unfold NameAhead
  unfold AtomForm.ofTokens? at h
  split at h <;> try split at h
  all_goals simp_all [TokenKind.isNameSegment]

theorem kindAt_of_atomForm {form : AtomForm}
    (h : AtomForm.ofTokens? (s.kindAt 0) (s.kindAt 1) = some form) : s.kindAt 0 ≠ none := by
  intro hnone
  rw [hnone] at h
  cases h

theorem kindAt_of_parenthesized
    (h : AtomForm.ofTokens? (s.kindAt 0) (s.kindAt 1) = some .parenthesized) :
    s.kindAt 0 = some (.punct .lparen) := by
  unfold AtomForm.ofTokens? at h
  split at h <;> try split at h
  all_goals simp_all

theorem kindAt_of_braced (h : AtomForm.ofTokens? (s.kindAt 0) (s.kindAt 1) = some .braced) :
    s.kindAt 0 = some (.punct .lbrace) := by
  unfold AtomForm.ofTokens? at h
  split at h <;> try split at h
  all_goals simp_all

theorem takesFrom_atomForm (henter : Steady enter) {form : AtomForm}
    (h : AtomForm.ofTokens? (s.kindAt 0) (s.kindAt 1) = some form) :
    TakesFrom setting enter s form.rule := by
  have hbump : TakesFrom setting enter s (.bump : Rule Nonterminal Unit) :=
    .bump (kindAt_of_atomForm h)
  cases form with
  | oneToken kind => exact .node hbump
  | negativeNumber => exact .node (hbump.bind henter _)
  | nameRef => exact .node (.ignore (takesFrom_qualName henter (nameAhead_of_nameRef h)))
  | atName => exact .node (hbump.bind henter _)
  | parenthesized => exact .node (.behind henter fun _ => hbump.bind henter _)
  | braced =>
    refine .behind henter fun _ => .ite (fun _ => ?_) fun _ => ?_
    · exact .node (.behind henter fun _ => hbump.bind henter _)
    · exact takesFrom_block henter (kindAt_of_braced h)

theorem run_atBinder_snd (s : State) : (atBinder.run setting enter s).2 = s := by
  rw [atBinder, run_orElse, atQuantifier, run_andAlso]
  split
  · rfl
  · split <;> rfl

/-- What begins an expression takes a token, or there is none. -/
theorem operandHead_decides (henter : Steady enter) {s : State} (hs : s.Valid) :
    ((operandHead.run setting enter s).1 = true ∧
      (operandHead.run setting enter s).2.left < s.left) ∨
    operandHead.run setting enter s = (false, s) := by
  unfold operandHead
  simp only [run_bind, run_peek, run_atBinder_snd]
  cases hk : s.kindAt 0 with
  | none => exact .inr rfl
  | some k =>
    have hsome : s.kindAt 0 ≠ none := by simp [hk]
    simp only [run_ite]
    split
    · exact .inl ⟨rfl, takesFrom_binder henter hsome k s hs rfl⟩
    · split
      · next row _ =>
        have hrow : TakesFrom setting enter s (node row.node do
            when row.temporal requireTemporal
            bump
            operand row.operandLevel k) :=
          .node (.behind henter fun _ => (TakesFrom.bump hsome).bind henter _)
        exact .inl ⟨rfl, hrow.bind henter _ s hs rfl⟩
      · simp only [atom, run_bind, run_peek]
        split
        · next form hform => exact .inl ⟨rfl, takesFrom_atomForm henter hform s hs rfl⟩
        · exact .inr rfl

theorem allOrNothing_expression (henter : Steady enter) (level : Nat) :
    AllOrNothing setting enter (expression level) := by
  refine .group fun s hs _ => ?_
  rw [run_bind]
  rcases @operandHead_decides setting enter henter s hs with ⟨-, htook⟩ | hnone
  · exact .inl (Nat.lt_of_le_of_lt
      (left_run_le setting henter _ (valid_run setting henter operandHead hs)) htook)
  · rw [hnone]
    exact .inr ⟨s.reports, rfl⟩

/-- A call of an expression takes a token, or does no more than report. -/
def Decided (setting : Setting) (enter : Nonterminal → State → Bool × State) : Prop :=
  ∀ level, AllOrNothing setting enter (call (.expression level))

/-- Whatever begins an expression closes nothing. -/
theorem isCloser_of_startsExpr {kind : TokenKind} (h : Operator.startsExpr kind = true) :
    kind.isCloser = false := by
  cases kind with
  | punct p => cases p <;> first | rfl | exact absurd h (by decide)
  | _ => rfl

theorem decided_enter (setting : Setting) (levels : Nat) :
    Decided setting (language.enter setting levels) := by
  intro level s hs hpending
  cases levels with
  | zero =>
    show (expressionTooDeep.runAlone setting s).2.left < s.left ∨
      ∃ reports, (expressionTooDeep.runAlone setting s).2 = { s with reports }
    simp only [expressionTooDeep, runAlone, run_bind, run_nthPasses, run_pure]
    cases hstarts : (s.kindAt 0).any Operator.startsExpr with
    | false => exact .inr ⟨s.reports, rfl⟩
    | true =>
      obtain ⟨kind, hkind, hstart⟩ := (Option.any_eq_true _ _).mp hstarts
      exact .inl (takesFrom_skipNested (steady_of_empty _) hkind (isCloser_of_startsExpr hstart)
        s hs rfl)
  | succ levels =>
    exact @allOrNothing_expression setting _ (language.steady_enter setting levels) level s hs
      hpending

/-! ### Items of lists -/

/-- The items of a list are of this kind: where nothing is pending, they take a token or do no more
than report. -/
def Idle (item : Rule Nonterminal Unit) : Prop :=
  ∀ setting enter, Steady enter → Decided setting enter → AllOrNothing setting enter item

theorem idle_expr : Idle (ignore expr) := by
  intro setting enter henter hdecided
  refine .bind henter ?_ fun _ => .ofLooking fun _ => rfl
  refine .bind henter (hdecided 0) fun present => .bind henter ?_ fun _ => .ofLooking fun _ => rfl
  exact .ite (.report _) (.ofLooking fun _ => rfl)

theorem takesFrom_bound (henter : Steady enter)
    (h : (s.kindAt 0).any [.keyword .noKw, .punct .hash].contains = true ∨ NameAhead s) :
    TakesFrom setting enter s bound := by
  refine .node ?_
  by_cases hno : s.kindAt 0 = some (.keyword .noKw)
  · exact (TakesFrom.eat hno).bind henter _
  refine .behind henter fun _ => TakesFrom.bind henter (.node ?_) _
  by_cases hhash : s.kindAt 0 = some (.punct .hash)
  · exact (TakesFrom.eat hhash).bind henter _
  refine .behind henter fun _ => TakesFrom.bind henter (.ignore (takesFrom_qualName henter ?_)) _
  refine h.resolve_left fun hfront => ?_
  cases hk : s.kindAt 0 with
  | none => simp [hk] at hfront
  | some k => simp_all

theorem idle_bound : Idle (do let present ← atBound; when present bound) := by
  intro setting enter henter _
  have hrun : ∀ s, atBound.run setting enter s
      = ((s.kindAt 0).any [.keyword .noKw, .punct .hash].contains
          || (atQualName.run setting enter s).1, s) := by
    intro s
    rw [atBound, run_orElse, run_currentIn, run_atQualName]
    cases (s.kindAt 0).any [.keyword .noKw, .punct .hash].contains <;> rfl
  refine .guarded (fun s => by rw [hrun]) fun s hs h => takesFrom_bound henter ?_ s hs rfl
  rw [hrun, run_atQualName] at h
  exact (Bool.or_eq_true _ _).mp h

theorem takesFrom_optionalTarget (henter : Steady enter)
    (h : s.kindAt 0 = some (.punct .lbrace) ∨ NameAhead s) :
    TakesFrom setting enter s optionalTarget := by
  refine .seen (fun t hwords => by rw [run_atQualName, kindAt_congr hwords, kindAt_congr hwords])
    <| .currentIs <| .ite (fun hname => .ignore (takesFrom_qualName henter hname)) fun hname => ?_
  have hbrace := h.resolve_right hname
  rw [beq_iff_eq.mpr hbrace]
  exact takesFrom_block henter hbrace

theorem takesFrom_testDecl (henter : Steady enter)
    (h : s.kindAt 0 = some (.punct .lbrace) ∨ NameAhead s) :
    TakesFrom setting enter s testDecl :=
  .node <| .behind henter fun _ => .behind henter fun _ =>
    (takesFrom_optionalTarget henter h).bind henter _

theorem idle_testItem : Idle testItem := by
  intro setting enter henter _
  have hrun : ∀ s, (orElse (currentIs Punct.lbrace) atQualName).run setting enter s
      = (s.kindAt 0 == some (.punct .lbrace) || (atQualName.run setting enter s).1, s) := by
    intro s
    rw [run_orElse, run_currentIs, run_atQualName]
    cases s.kindAt 0 == some (.punct .lbrace) <;> rfl
  refine .guarded (fun s => by rw [hrun]) fun s hs h => takesFrom_testDecl henter ?_ s hs rfl
  rw [hrun, run_atQualName] at h
  exact ((Bool.or_eq_true _ _).mp h).imp_left eq_of_beq

theorem takesFrom_testExpectDecl (henter : Steady enter)
    (h : s.kindAt 0 = some (.keyword .testKw) ∨ s.kindAt 0 = some (.keyword .expectKw)) :
    TakesFrom setting enter s testExpectDecl := by
  refine .node ?_
  rcases h with htest | hexpect
  · exact TakesFrom.bind henter (.ignore (.eat htest)) _
  · exact .behind henter fun _ => TakesFrom.bind henter (.ignore (.expect henter hexpect)) _

theorem takesFrom_assertion (henter : Steady enter) (hk : s.kindAt 0 ≠ none) :
    TakesFrom setting enter s assertion :=
  .group ((TakesFrom.bump hk).bind henter _)

theorem idle_suiteItem : Idle suiteItem := by
  intro setting enter henter _ s hs _
  simp only [suiteItem, run_bind, run_peek]
  split
  · next hk => exact .inl (TakesFrom.node ((TakesFrom.bump (by simp [hk])).bind henter _) s hs rfl)
  · next hk => exact .inl (takesFrom_testExpectDecl henter (.inr hk) s hs rfl)
  · next hk =>
    exact .inl ((takesFrom_assertion henter (by simp [hk])).bind henter _ s hs rfl)
  · rw [run_ite]
    split
    · next htest =>
      simp only [Bool.and_eq_true, beq_iff_eq] at htest
      exact .inl (takesFrom_testExpectDecl henter (.inl htest.1) s hs rfl)
    · simp only [run_bind, run_atRecoveryPoint]
      cases hrecovered : s.atRecoveryPoint with
      | true => exact .inr ⟨s.reports, rfl⟩
      | false =>
        refine .inl (takes_skipToken henter _ s hs fun hk => ?_)
        rw [State.atRecoveryPoint_of_kindAt hk] at hrecovered
        cases hrecovered

/-! ### Declarations -/

/-- Whether the rule takes a token is told by the kinds ahead; where it does not, it does
nothing. -/
def Gated {α : Type} (rule : Rule Nonterminal α) : Prop :=
  ∃ gate : (Nat → Option TokenKind) → Bool, ∀ setting enter, Steady enter → ∀ s, s.Valid →
    if gate s.kindAt then (rule.run setting enter s).2.left < s.left
    else (rule.run setting enter s).2 = s

theorem takesFrom_sigModifier (henter : Steady enter)
    (h : s.kindAt 0 = some (.keyword .varKw) ∨ s.kindAt 0 = some (.keyword .abstractKw) ∨
      (s.kindAt 0).any Operator.sigMultiplicities.contains = true) :
    TakesFrom setting enter s sigModifier := by
  have hsome : s.kindAt 0 ≠ none := by
    intro hnone
    simp [hnone] at h
  have hbump : TakesFrom setting enter s (do bump; return true : Rule Nonterminal Bool) :=
    (TakesFrom.bump hsome).bind henter _
  refine .currentIs <| .currentIs <| .nthPasses <| .ite (fun _ => .behind henter fun _ => hbump)
    fun hvar => .ite (fun _ => hbump) fun habstract => .ite (fun _ => ?_) fun hmany => ?_
  · exact (TakesFrom.node (.bump hsome)).bind henter _
  · simp_all

theorem takesFrom_sigDecl (henter : Steady enter)
    (h : s.kindAt 0 = some (.keyword .sigKw) ∨ s.kindAt 0 = some (.keyword .varKw) ∨
      s.kindAt 0 = some (.keyword .abstractKw) ∨
      (s.kindAt 0).any Operator.sigMultiplicities.contains = true) :
    TakesFrom setting enter s sigDecl := by
  refine .node ?_
  rcases h with hsig | hmodifier
  · exact .behind henter fun _ => TakesFrom.bind henter (.ignore (.expectToken henter hsig)) _
  · exact TakesFrom.bind henter
      (.loop henter ((takesFrom_sigModifier henter hmodifier).bind henter _)) _

theorem takesFrom_cmdDecl (henter : Steady enter)
    (h : s.kindAt 0 = some .ident ∨ s.kindAt 0 = some (.keyword .runKw) ∨
      s.kindAt 0 = some (.keyword .checkKw)) :
    TakesFrom setting enter s cmdDecl := by
  refine .node ?_
  rcases h with hlabel | hcommand
  · refine .currentIs ?_
    rw [beq_iff_eq.mpr hlabel]
    exact TakesFrom.bind henter (TakesFrom.bind henter (.ignore (takesFrom_name henter hlabel)) _) _
  · have hsome : s.kindAt 0 ≠ none := by
      intro hnone
      simp [hnone] at hcommand
    have hseen : (s.kindAt 0).any [.keyword .runKw, .keyword .checkKw].contains = true := by
      rcases hcommand with hk | hk <;> simp [hk]
    refine .behind henter fun _ => .behind henter fun _ => .nthPasses ?_
    rw [hseen]
    exact (TakesFrom.bump hsome).bind henter _

theorem kindAt_of_paragraph {form : ParagraphStart}
    (h : ParagraphStart.ofTokens? (s.kindAt 0) (s.kindAt 1) (s.kindAt 2) = some form) :
    s.kindAt 0 ≠ none := by
  intro hnone
  rw [hnone] at h
  cases h

/-- A paragraph takes the token that it is known by. -/
theorem takesFrom_paragraph (henter : Steady enter) {form : ParagraphStart}
    (h : ParagraphStart.ofTokens? (s.kindAt 0) (s.kindAt 1) (s.kindAt 2) = some form) :
    TakesFrom setting enter s form.rule := by
  have hsome := kindAt_of_paragraph h
  have hbump {next : Unit → Rule Nonterminal Unit} {kind : NodeKind} :
      TakesFrom setting enter s (node kind (bump >>= next)) :=
    .node ((TakesFrom.bump hsome).bind henter _)
  cases form with
  | sig =>
    refine takesFrom_sigDecl henter ?_
    unfold ParagraphStart.ofTokens? at h
    split at h <;> try split at h
    all_goals simp_all
  | assertion => exact .ignore (takesFrom_assertion henter hsome)
  | command =>
    refine takesFrom_cmdDecl henter ?_
    unfold ParagraphStart.ofTokens? at h
    split at h <;> try split at h
    all_goals simp_all
  | testExpect =>
    refine takesFrom_testExpectDecl henter ?_
    unfold ParagraphStart.ofTokens? at h
    split at h <;> try split at h
    all_goals simp_all
  | sexpr => exact .node (.bump hsome)
  | _ => exact hbump

/-- A declaration starts with these tokens. -/
def startsDeclaration (first second third : Option TokenKind) : Bool :=
  first == some (.keyword .moduleKw) || first == some (.keyword .openKw)
    || first == some (.keyword .evalKw) || (ParagraphStart.ofTokens? first second third).isSome

theorem takesFrom_declaration (henter : Steady enter) (seen : Seen)
    (h : startsDeclaration (s.kindAt 0) (s.kindAt 1) (s.kindAt 2) = true) :
    TakesFrom setting enter s (declaration seen) := by
  refine .peek <| .peek <| .peek ?_
  split
  · next hk =>
    have hsome : s.kindAt 0 ≠ none := by simp [hk]
    exact .behind henter fun _ =>
      TakesFrom.bind henter (.node ((TakesFrom.bump hsome).bind henter _)) _
  · next hk =>
    have hsome : s.kindAt 0 ≠ none := by simp [hk]
    exact .behind henter fun _ =>
      TakesFrom.bind henter (.node (.within ((TakesFrom.bump hsome).bind henter _))) _
  · next hk =>
    have hsome : s.kindAt 0 ≠ none := by simp [hk]
    exact .behind henter fun _ =>
      TakesFrom.bind henter (.node ((TakesFrom.bump hsome).bind henter _)) _
  · split
    · next hform => exact .behind henter fun _ => (takesFrom_paragraph henter hform).bind henter _
    · simp_all [startsDeclaration]

theorem run_declaration_of_not_starts (seen : Seen)
    (h : startsDeclaration (s.kindAt 0) (s.kindAt 1) (s.kindAt 2) = false) :
    (declaration seen).run setting enter s = (seen, s) := by
  simp only [startsDeclaration, Bool.or_eq_false_iff, beq_eq_false_iff_ne,
    Option.isSome_eq_false_iff, Option.isNone_iff_eq_none] at h
  simp only [declaration, run_bind, run_peek, h]
  split
  · next hk => exact absurd hk h.1.1.1
  · next hk => exact absurd hk h.1.1.2
  · next hk => exact absurd hk h.1.2
  · rfl

/-- Whether a declaration starts is told by three tokens, and then it takes the first. -/
theorem gated_declaration (seen : Seen) : Gated (declaration seen) := by
  refine ⟨fun kindAt => startsDeclaration (kindAt 0) (kindAt 1) (kindAt 2), ?_⟩
  intro setting enter henter s hs
  split
  · next hstarts => exact takesFrom_declaration henter seen hstarts s hs rfl
  · next hstarts =>
    exact congrArg Prod.snd (run_declaration_of_not_starts seen (Bool.eq_false_iff.mpr hstarts))

end Nested
end Grammar
end RelLang
