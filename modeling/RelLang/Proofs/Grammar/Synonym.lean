import RelLang.Proofs.Rule.Synonym

/-!
# No rule tells the spellings of an operator apart

Everything that the rules of the grammar ask of the kinds ahead is blind: the table of operators
holds both spellings in one row, and all other tests are about kinds of one spelling. So each rule
runs in parallel with itself on texts that are the same in words. Only the rules that name an
operator in a report differ, and only in the message.
-/

namespace RelLang.Grammar

open Rule

/-! ### Lookahead -/

theorem namesEndInColon_inWords :
    ∀ ks : List TokenKind, namesEndInColon (ks.map TokenKind.inWords) = namesEndInColon ks
  | [] => rfl
  | k :: ks => by
    have hhead : Blind fun k => namesEndInColon (k :: ks.map TokenKind.inWords) :=
      .intro rfl rfl rfl rfl rfl
    refine (hhead k).trans ?_
    cases k with
    | punct p =>
      cases p with
      | comma =>
        cases ks with
        | nil => rfl
        | cons k' ks =>
          have hsecond : Blind fun k' => namesEndInColon
              (.punct .comma :: k' :: ks.map TokenKind.inWords) := .intro rfl rfl rfl rfl rfl
          refine (hsecond k').trans ?_
          cases k' with
          | ident => exact namesEndInColon_inWords ks
          | _ => rfl
      | _ => rfl
    | _ => rfl

theorem namesAhead_inWords (ks : List TokenKind) :
    namesAhead (ks.map TokenKind.inWords) = namesAhead ks := by
  cases ks with
  | nil => rfl
  | cons k ks =>
    have hhead : Blind fun k => namesAhead (k :: ks.map TokenKind.inWords) :=
      .intro rfl rfl rfl rfl rfl
    refine (hhead k).trans ?_
    cases k with
    | ident => exact namesEndInColon_inWords ks
    | _ => rfl

theorem declarationAhead_inWords (ks : List TokenKind) :
    declarationAhead (ks.map TokenKind.inWords) = declarationAhead ks := by
  cases ks with
  | nil => rfl
  | cons k ks =>
    have hhead : Blind fun k => declarationAhead (k :: ks.map TokenKind.inWords) :=
      .intro rfl rfl rfl rfl rfl
    refine (hhead k).trans ?_
    cases k with
    | ident => exact namesEndInColon_inWords ks
    | keyword w =>
      cases w with
      | disjKw => exact namesAhead_inWords ks
      | _ => rfl
    | _ => rfl

theorem declarationBehind_inWords (ks : List TokenKind) :
    declarationBehind (ks.map TokenKind.inWords) = declarationBehind ks := by
  rw [declarationBehind, ← List.map_tail, declarationAhead_inWords]
  rfl

theorem segmentsEndInDot_inWords :
    ∀ ks : List TokenKind, segmentsEndInDot (ks.map TokenKind.inWords) = segmentsEndInDot ks
  | [] => rfl
  | k :: ks => by
    have hhead : Blind fun k => segmentsEndInDot (k :: ks.map TokenKind.inWords) :=
      .intro rfl rfl rfl rfl rfl
    refine (hhead k).trans ?_
    cases k with
    | punct p =>
      cases p with
      | slash =>
        cases ks with
        | nil => rfl
        | cons k' ks =>
          show (k'.inWords.isNameSegment && segmentsEndInDot (ks.map TokenKind.inWords)) = _
          rw [Blind.isNameSegment, segmentsEndInDot_inWords ks]
          rfl
      | _ => rfl
    | _ => rfl

theorem segmentsAhead_inWords (ks : List TokenKind) :
    segmentsAhead (ks.map TokenKind.inWords) = segmentsAhead ks := by
  cases ks with
  | nil => rfl
  | cons k ks =>
    simp only [List.map_cons, segmentsAhead, segmentsEndInDot_inWords, Blind.isNameSegment k]

theorem receiverAhead_inWords (ks : List TokenKind) :
    receiverAhead (ks.map TokenKind.inWords) = receiverAhead ks := by
  cases ks with
  | nil => rfl
  | cons k ks =>
    by_cases hthis : k = .keyword .thisKw
    · subst hthis
      cases ks with
      | nil => rfl
      | cons k' ks =>
        have hsecond : Blind fun k' => receiverAhead
            (.keyword .thisKw :: k' :: ks.map TokenKind.inWords) := .intro rfl rfl rfl rfl rfl
        refine (hsecond k').trans ?_
        cases k' with
        | punct p =>
          cases p with
          | slash => exact segmentsAhead_inWords ks
          | _ => rfl
        | _ => rfl
    · -- what does not begin with `this` is a name by itself
      have hname (k : TokenKind) (hk : k ≠ .keyword .thisKw) (ms : List TokenKind) :
          receiverAhead (k :: ms) = segmentsAhead (k :: ms) := by
        cases k with
        | keyword w => cases w <;> first | rfl | exact absurd rfl hk
        | _ => rfl
      rw [hname k hthis, List.map_cons, hname _ fun h => hthis ((TokenKind.inWords_eq_iff rfl).mp h)]
      exact segmentsAhead_inWords (k :: ks)

/-! ### Decisions -/

section Decisions

variable {k₁ k₂ : TokenKind} {first₁ first₂ second₁ second₂ third₁ third₂ : Option TokenKind}
variable (hk : k₁.inWords = k₂.inWords)
variable (hfirst : first₁.map TokenKind.inWords = first₂.map TokenKind.inWords)
variable (hsecond : second₁.map TokenKind.inWords = second₂.map TokenKind.inWords)
variable (hthird : third₁.map TokenKind.inWords = third₂.map TokenKind.inWords)

theorem blind_frontRow? : Blind Operator.frontRow? := .intro rfl rfl rfl rfl rfl

theorem blind_infixRow? : Blind Operator.infixRow? := .intro rfl rfl rfl rfl rfl

theorem blind_isNegation : Blind Operator.isNegation := .intro rfl rfl rfl rfl rfl

theorem blind_isComparison : Blind Operator.isComparison := .intro rfl rfl rfl rfl rfl

theorem blind_startsExpr : Blind Operator.startsExpr := .intro rfl rfl rfl rfl rfl

theorem blind_arrowMultiplicities : Blind Operator.arrowMultiplicities.contains :=
  .intro rfl rfl rfl rfl rfl

include hk hsecond in
/-- Both spellings of an operator continue an operand alike. -/
theorem extension?_eq : Operator.extension? k₁ second₁ = Operator.extension? k₂ second₂ := by
  have hresults : Blind Operator.testResults.contains := .intro rfl rfl rfl rfl rfl
  have his : Blind fun k => k == .keyword .isKw := .intro rfl rfl rfl rfl rfl
  simp only [Operator.extension?, blind_isNegation.eq hk, blind_isComparison.any_eq hsecond,
    blind_arrowMultiplicities.eq hk, TokenKind.beq_eq (.punct .arrow) rfl hsecond,
    hresults.any_eq hsecond, blind_infixRow?.eq hk, his.eq hk]

include hfirst hsecond in
theorem atomForm_eq : AtomForm.ofTokens? first₁ second₁ = AtomForm.ofTokens? first₂ second₂ := by
  have hblind : Blind fun k => AtomForm.ofTokens? (some k) second₁ := .intro rfl rfl rfl rfl rfl
  rw [hblind.option_eq (f := (AtomForm.ofTokens? · second₁)) hfirst]
  simp only [AtomForm.ofTokens?, TokenKind.beq_eq .number rfl hsecond,
    TokenKind.beq_eq (.punct .slash) rfl hsecond, TokenKind.beq_eq .ident rfl hsecond]

include hfirst hsecond in
theorem boundValueForm_eq :
    BoundValueForm.ofTokens? first₁ second₁ = BoundValueForm.ofTokens? first₂ second₂ := by
  have hblind : Blind fun k => BoundValueForm.ofTokens? (some k) second₁ :=
    .intro rfl rfl rfl rfl rfl
  rw [hblind.option_eq (f := (BoundValueForm.ofTokens? · second₁)) hfirst]
  simp only [BoundValueForm.ofTokens?, TokenKind.beq_eq .number rfl hsecond,
    TokenKind.beq_eq (.punct .slash) rfl hsecond]

include hfirst hsecond hthird in
theorem tupleCommaAhead_eq :
    tupleCommaAhead first₁ second₁ third₁ = tupleCommaAhead first₂ second₂ third₂ := by
  have hvalue : Blind startsPlainValue := .intro rfl rfl rfl rfl rfl
  have hoperators : Blind boundOperators.contains := .intro rfl rfl rfl rfl rfl
  have htuple (third : Option TokenKind) : Blind fun k => startsPlainValue k ||
      (k.isNameSegment && third != some (.punct .dot) && !third.any boundOperators.contains) := by
    intro k
    simp only [hvalue k, Blind.isNameSegment k]
  unfold tupleCommaAhead
  rw [(htuple third₁).any_eq hsecond]
  simp only [bne, TokenKind.beq_eq (.punct .comma) rfl hfirst,
    TokenKind.beq_eq (.punct .dot) rfl hthird, hoperators.any_eq hthird]

include hsecond hthird in
theorem paragraphStart_eq (first : Option TokenKind) :
    ParagraphStart.ofTokens? first second₁ third₁
      = ParagraphStart.ofTokens? first second₂ third₂ := by
  simp only [ParagraphStart.ofTokens?, TokenKind.beq_eq (.punct .colon) rfl hsecond,
    TokenKind.beq_eq (.keyword .suiteKw) rfl hsecond,
    TokenKind.beq_eq (.keyword .expectKw) rfl hsecond,
    TokenKind.beq_eq (.keyword .runKw) rfl hthird,
    TokenKind.beq_eq (.keyword .checkKw) rfl hthird]

end Decisions

section Shared

variable {ν : Type} {c : Respelling} {enter₁ enter₂ : ν → State → Bool × State}

/-! ### Names -/

theorem parallel_name : Parallel c enter₁ enter₂ name name :=
  .bind (.currentIs rfl) fun _ => .ite (.bind (.tokenNode _) fun _ => .pure _)
    (.bind (.report rfl) fun _ => .pure _)

theorem parallel_atCommaName : Parallel c enter₁ enter₂ atCommaName atCommaName :=
  .andAlso (.currentIs rfl) (.nthIs 1 rfl)

theorem parallel_nameList : Parallel c enter₁ enter₂ nameList nameList :=
  .node _ <| .bind parallel_name fun _ => .bind
    (.when <| .repeated <| .bind parallel_atCommaName fun _ => .bind
      (.when <| .bind .bump fun _ => .ignore parallel_name) fun _ => .pure _)
    fun _ => .pure _

theorem parallel_atQualName : Parallel c enter₁ enter₂ atQualName atQualName :=
  .orElse (.nthPasses 0 .isNameSegment) (.andAlso (.currentIs rfl) (.nthIs 1 rfl))

theorem parallel_qualName : Parallel c enter₁ enter₂ qualName qualName := by
  refine .bind parallel_atQualName fun _ => .ite (.node _ ?_) (.bind (.report rfl) fun _ => .pure _)
  exact .bind (.currentIs rfl) fun _ => .bind (.when <| .bind .bump fun _ => .bump) fun _ =>
    .bind (.nthPasses 0 .isNameSegment) fun _ => .bind (.pick .bump (.report rfl)) fun _ =>
    .bind (.repeated <| .bind (.andAlso (.currentIs rfl) (.nthPasses 1 .isNameSegment)) fun _ =>
      .bind (.when <| .bind .bump fun _ => .bump) fun _ => .pure _) fun _ => .pure _

/-- What is separated by a mark. -/
theorem parallel_separated {mark : Punct} (hmark : (TokenKind.punct mark).hasSynonym = false)
    {item₁ item₂ : Rule ν Unit} (h : Parallel c enter₁ enter₂ item₁ item₂) :
    Parallel c enter₁ enter₂
      (repeated do
        let more ← eat mark
        when more item₁
        return more)
      (repeated do
        let more ← eat mark
        when more item₂
        return more) :=
  .repeated <| .bind (.eat hmark) fun _ => .bind (.when h) fun _ => .pure _

theorem parallel_qualNameList : Parallel c enter₁ enter₂ qualNameList qualNameList :=
  .node _ <| .bind (.ignore parallel_qualName) fun _ =>
    parallel_separated rfl (.ignore parallel_qualName)

theorem parallel_optionalMult {allowed : List TokenKind} (h : Blind allowed.contains) :
    Parallel c enter₁ enter₂ (optionalMult allowed) (optionalMult allowed) :=
  .bind (.currentIn h) fun _ => .when (.tokenNode _)

/-- Text that is nested too deeply is skipped alike. -/
theorem parallel_skipNested : Parallel c enter₁ enter₂ skipNested skipNested := by
  have hopener : Blind TokenKind.isOpener := .intro rfl rfl rfl rfl rfl
  have hcloser : Blind TokenKind.isCloser := .intro rfl rfl rfl rfl rfl
  refine .bind (.report rfl) fun _ => .node _ <| .bind (.nthPasses 0 hopener) fun _ =>
    .bind (.loop _ fun _ => .bind .atEnd fun _ => .bind (.nthPasses 0 hopener) fun _ =>
      .bind (.nthPasses 0 hcloser) fun _ => .ite (.pure _) ?_) fun _ => .pure _
  exact .bind .bump fun _ => .bind .atRecoveryPoint fun _ => .pure _

end Shared

/-- Past the last level, texts are skipped alike. -/
theorem parallel_beyond {c : Respelling} {enter₁ enter₂ : Empty → State → Bool × State}
    (symbol : Nonterminal) :
    Parallel c enter₁ enter₂ (language.beyond symbol) (language.beyond symbol) := by
  cases symbol with
  | expression level =>
    exact .bind (.nthPasses 0 blind_startsExpr) fun _ =>
      .bind (.when parallel_skipNested) fun _ => .pure _
  | boundGroup => exact .bind parallel_skipNested fun _ => .pure _

section

variable {c : Respelling} {enter₁ enter₂ : Nonterminal → State → Bool × State}
variable (hcall : ∀ symbol, Parallel c enter₁ enter₂ (.call symbol) (.call symbol))

include hcall

/-! ### Expressions inside other rules -/

theorem parallel_exprAt (level : Nat) : Parallel c enter₁ enter₂ (exprAt level) (exprAt level) :=
  .bind (hcall _) fun _ => .bind (.when (.report rfl)) fun _ => .pure _

theorem parallel_expr : Parallel c enter₁ enter₂ (ignore expr) (ignore expr) :=
  .ignore (parallel_exprAt hcall 0)

/-- The operator in front is named only in the message. -/
theorem parallel_operand (level : Nat) (after₁ after₂ : TokenKind) :
    Parallel c enter₁ enter₂ (operand level after₁) (operand level after₂) :=
  .bind (hcall _) fun _ => .when (.report rfl)

theorem parallel_arguments : Parallel c enter₁ enter₂ arguments arguments :=
  .within _ <| .node _ <| .bind (.currentIs rfl) fun _ => .when <|
    .bind (parallel_expr hcall) fun _ => parallel_separated rfl (parallel_expr hcall)

/-! ### Bounds -/

theorem parallel_boundValue : Parallel c enter₁ enter₂ boundValue boundValue := by
  refine .node _ <| .peek 0 fun first₁ first₂ hfirst => .peek 1 fun second₁ second₂ hsecond => ?_
  rw [boundValueForm_eq hfirst hsecond]
  split
  · exact .bump
  · exact .bind .bump fun _ => .bump
  · exact .ignore (hcall _)
  · exact .ignore parallel_qualName
  · exact .report rfl

theorem parallel_boundProduct : Parallel c enter₁ enter₂ boundProduct boundProduct := by
  refine .node _ <| .bind (parallel_boundValue hcall) fun _ => .repeated <|
    .peek 0 fun _ _ hfirst => .peek 1 fun _ _ hsecond => .peek 2 fun _ _ hthird => ?_
  rw [TokenKind.beq_eq (.punct .arrow) rfl hfirst, tupleCommaAhead_eq hfirst hsecond hthird]
  exact .bind (.when <| .bind .bump fun _ => parallel_boundValue hcall) fun _ => .pure _

theorem parallel_boundUnion : Parallel c enter₁ enter₂ boundUnion boundUnion :=
  .node _ <| .bind (parallel_boundProduct hcall) fun _ =>
    parallel_separated rfl (parallel_boundProduct hcall)

theorem parallel_boundGroup : Parallel c enter₁ enter₂ boundGroup boundGroup :=
  .currentRange fun _ _ hopener => .bind .bump fun _ => .bind (parallel_boundUnion hcall) fun _ =>
    .bind (.ignore (.expectCloser rfl hopener)) fun _ => .pure _

omit hcall in
theorem parallel_boundLhs : Parallel c enter₁ enter₂ boundLhs boundLhs :=
  .node _ <| .bind (.eat rfl) fun _ => .bind (.ignore parallel_qualName) fun _ =>
    .loop _ fun _ => .bind (.andAlso (.currentIs rfl) (.nthPasses 1 .isNameSegment)) fun _ =>
    .bind (.when <| .bind .bump fun _ => .ignore parallel_qualName) fun _ => .pure _

theorem parallel_bound : Parallel c enter₁ enter₂ bound bound :=
  .node _ <| .bind (.eat rfl) fun _ => .bind parallel_boundLhs fun _ => .when <|
    .bind (.currentIn (.intro rfl rfl rfl rfl rfl)) fun _ => .ite
      (.bind (.tokenNode _) fun _ => parallel_boundUnion hcall) (.when (.report rfl))

omit hcall in
theorem parallel_atBound : Parallel c enter₁ enter₂ atBound atBound :=
  .orElse (.currentIn (.intro rfl rfl rfl rfl rfl)) parallel_atQualName

theorem parallel_bounds : Parallel c enter₁ enter₂ bounds bounds := by
  refine .node _ <| .bind (.ignore (.eat rfl)) fun _ => .bind (.currentIs rfl) fun _ => .ite ?_ ?_
  · exact .currentRange fun _ _ hopener => .bind .bump fun _ => .bind
      (.within _ <| .items rfl _ <| .bind parallel_atBound fun _ => .when (parallel_bound hcall))
      fun _ => .ignore (.expectCloser rfl hopener)
  · exact .bind parallel_atQualName fun _ => .ite (.ignore parallel_qualName) (.report rfl)

/-! ### Blocks and binders -/

theorem parallel_block : Parallel c enter₁ enter₂ block block :=
  .node _ <| .currentRange fun _ _ hopener => .bind (.ignore (.expect rfl)) fun _ =>
    .bind (.within _ <| .items rfl _ (parallel_expr hcall)) fun _ =>
    .ignore (.expectCloser rfl hopener)

/-- `'disj'? NameList ':' Mult? Expr`, of a variable or of a parameter. -/
theorem parallel_typed (kind : NodeKind) {declaration : Rule Nonterminal Unit}
    (h : declaration = .node kind do
      ignore (eat Keyword.disjKw)
      ignore nameList
      ignore (expect Punct.colon)
      optionalMult Operator.typeMultiplicities
      ignore expr) : Parallel c enter₁ enter₂ declaration declaration := by
  rw [h]
  exact .node _ <| .bind (.ignore (.eat rfl)) fun _ => .bind (.ignore parallel_nameList) fun _ =>
    .bind (.ignore (.expect rfl)) fun _ =>
    .bind (parallel_optionalMult (.intro rfl rfl rfl rfl rfl)) fun _ => parallel_expr hcall

theorem parallel_quantDecls : Parallel c enter₁ enter₂ quantDecls quantDecls :=
  .bind (parallel_typed hcall _ rfl) fun _ => .repeated <|
    .bind (.andAlso (.currentIs rfl) (.ahead declarationBehind_inWords)) fun _ =>
    .bind (.when <| .bind .bump fun _ => parallel_typed hcall _ rfl) fun _ => .pure _

theorem parallel_binderBody : Parallel c enter₁ enter₂ binderBody binderBody :=
  .bind (.eat rfl) fun _ => .ite (parallel_expr hcall) <| .bind (.currentIs rfl) fun _ =>
    .ite (parallel_block hcall) (.report rfl)

omit hcall in
theorem parallel_atQuantifier : Parallel c enter₁ enter₂ atQuantifier atQuantifier :=
  .andAlso (.currentIn (.intro rfl rfl rfl rfl rfl)) (.ahead declarationBehind_inWords)

omit hcall in
theorem parallel_atBinder : Parallel c enter₁ enter₂ atBinder atBinder :=
  .orElse (.nthPasses 0 (.intro rfl rfl rfl rfl rfl)) parallel_atQuantifier

/-- The quantifier is named only in the message. -/
theorem parallel_quantified (quantifier₁ quantifier₂ : TokenKind) :
    Parallel c enter₁ enter₂ (quantified quantifier₁) (quantified quantifier₂) :=
  .node _ <| .bind .bump fun _ => .bind (.ahead declarationAhead_inWords) fun _ =>
    .bind (.pick (parallel_quantDecls hcall) (.report rfl)) fun _ => parallel_binderBody hcall

theorem parallel_letDecl : Parallel c enter₁ enter₂ letDecl letDecl :=
  .node _ <| .bind (.ignore parallel_name) fun _ => .bind (.ignore (.expect rfl)) fun _ =>
    parallel_expr hcall

theorem parallel_bindings (kind : NodeKind) :
    Parallel c enter₁ enter₂ (bindings kind) (bindings kind) :=
  .node _ <| .bind .bump fun _ => .bind (parallel_letDecl hcall) fun _ =>
    .bind (.repeated <| .bind parallel_atCommaName fun _ => .bind
      (.when <| .bind .bump fun _ => parallel_letDecl hcall) fun _ => .pure _)
    fun _ => parallel_binderBody hcall

theorem parallel_binder {k₁ k₂ : TokenKind} (h : k₁.inWords = k₂.inWords) :
    Parallel c enter₁ enter₂ (binder k₁) (binder k₂) := by
  have hquantified {k : TokenKind} (hk : k.hasSynonym = true) : binder k = quantified k := by
    unfold binder
    split
    · cases hk
    · cases hk
    · rfl
  obtain rfl | ⟨hk₁, hk₂⟩ := TokenKind.eq_or_of_inWords_eq h
  · unfold binder
    split
    · exact parallel_bindings hcall _
    · exact parallel_bindings hcall _
    · exact parallel_quantified hcall _ _
  · rw [hquantified hk₁, hquantified hk₂]
    exact parallel_quantified hcall k₁ k₂

/-! ### Atoms -/

theorem parallel_parenthesized : Parallel c enter₁ enter₂ parenthesized parenthesized :=
  .node _ <| .currentRange fun _ _ hopener => .bind .bump fun _ =>
    .bind (.within _ (parallel_expr hcall)) fun _ => .ignore (.expectCloser rfl hopener)

theorem parallel_comprehension : Parallel c enter₁ enter₂ comprehension comprehension := by
  refine .node _ <| .currentRange fun _ _ hopener => .bind .bump fun _ => .bind (.within _ ?_)
    fun _ => .ignore (.expectCloser rfl hopener)
  exact .bind (parallel_quantDecls hcall) fun _ => .bind (.eat rfl) fun _ =>
    .ite (parallel_expr hcall) <| .bind (.currentIs rfl) fun _ => .when (parallel_block hcall)

theorem parallel_atomForm (form : AtomForm) :
    Parallel c enter₁ enter₂ form.rule form.rule := by
  cases form with
  | oneToken kind => exact .tokenNode kind
  | negativeNumber => exact .node _ <| .bind .bump fun _ => .bump
  | nameRef => exact .node _ (.ignore parallel_qualName)
  | atName => exact .node _ <| .bind .bump fun _ => .tokenNode _
  | parenthesized => exact parallel_parenthesized hcall
  | braced =>
    exact .bind (.ahead declarationBehind_inWords) fun _ =>
      .ite (parallel_comprehension hcall) (parallel_block hcall)

theorem parallel_atom : Parallel c enter₁ enter₂ atom atom := by
  refine .peek 0 fun _ _ hfirst => .peek 1 fun _ _ hsecond => ?_
  rw [atomForm_eq hfirst hsecond]
  split
  · exact .bind (parallel_atomForm hcall _) fun _ => .pure _
  · exact .pure _

/-! ### Expressions -/

theorem parallel_operandHead : Parallel c enter₁ enter₂ operandHead operandHead := by
  refine .peek 0 fun first₁ first₂ hfirst => .bind parallel_atBinder fun isBinder => ?_
  cases first₁ <;> cases first₂
  · exact .pure _
  · cases hfirst
  · cases hfirst
  · next k₁ k₂ =>
    have hk := Option.some.inj hfirst
    refine .ite (.bind (parallel_binder hcall hk) fun _ => .pure _) ?_
    rw [blind_frontRow?.eq hk]
    split
    · exact .bind (.node _ <| .bind (.when .requireTemporal) fun _ => .bind .bump fun _ =>
        parallel_operand hcall _ k₁ k₂) fun _ => .pure _
    · exact parallel_atom hcall

omit hcall in
theorem parallel_compareOperator :
    Parallel c enter₁ enter₂ compareOperator compareOperator :=
  .node _ <| .bind (.nthPasses 0 blind_isNegation) fun _ => .bind (.when .bump) fun _ => .bump

omit hcall in
theorem parallel_arrowOperator : Parallel c enter₁ enter₂ arrowOperator arrowOperator :=
  .node _ <| .bind (.currentIn blind_arrowMultiplicities) fun _ => .bind (.when .bump) fun _ =>
    .bind .bump fun _ => .bind (.currentIn blind_arrowMultiplicities) fun _ =>
    .bind parallel_atQuantifier fun _ => .bind (.nthPasses 1 blind_startsExpr) fun _ => .when .bump

omit hcall in
theorem parallel_infixOperator (node : NodeKind) :
    Parallel c enter₁ enter₂ (infixOperator node) (infixOperator node) := by
  unfold infixOperator
  split
  · exact parallel_compareOperator
  · exact parallel_arrowOperator
  · exact .bump

theorem parallel_infixTail (node : NodeKind) (level : Nat) (k₁ k₂ : TokenKind) :
    Parallel c enter₁ enter₂ (infixTail node level k₁) (infixTail node level k₂) :=
  .bind (parallel_infixOperator node) fun _ => .bind (parallel_operand hcall level k₁ k₂) fun _ =>
    .bind (.currentIs rfl) fun _ => .when <| .bind .bump fun _ => parallel_operand hcall _ _ _

theorem parallel_postfixTail {k₁ k₂ : TokenKind} (h : k₁.inWords = k₂.inWords) :
    Parallel c enter₁ enter₂ (postfixTail k₁) (postfixTail k₂) := by
  have hbracket : Blind fun k => k == .punct .lbracket := .intro rfl rfl rfl rfl rfl
  unfold postfixTail
  rw [hbracket.eq h]
  exact .ite (.bind .bump fun _ => .bind (parallel_arguments hcall) fun _ =>
    .ignore (.expectToken rfl _ rfl)) .bump

theorem parallel_extendOnce (level : Nat) :
    Parallel c enter₁ enter₂ (extendOnce level) (extendOnce level) := by
  refine .peek 0 fun first₁ first₂ hfirst => .peek 1 fun second₁ second₂ hsecond => ?_
  cases first₁ <;> cases first₂
  · exact .pure _
  · cases hfirst
  · cases hfirst
  · next k₁ k₂ =>
    have hk := Option.some.inj hfirst
    dsimp only
    rw [extension?_eq hk hsecond]
    split
    · exact .pure _
    · next extension _ =>
      refine .ite (.pure _) <| .bind (.when .requireTemporal) fun _ =>
        .bind (.enclose _ ?_) fun _ => .pure _
      cases extension.operandLevel? with
      | some operandLevel => exact parallel_infixTail hcall _ operandLevel k₁ k₂
      | none => exact parallel_postfixTail hcall hk

theorem parallel_extend (level : Nat) :
    Parallel c enter₁ enter₂ (extend level) (extend level) :=
  .repeated (parallel_extendOnce hcall level)

theorem parallel_expression (level : Nat) :
    Parallel c enter₁ enter₂ (expression level) (expression level) :=
  .group <| .bind (parallel_operandHead hcall) fun _ =>
    .bind (.when (parallel_extend hcall level)) fun _ => .pure _

/-! ### Commands -/

omit hcall in
theorem parallel_atScope : Parallel c enter₁ enter₂ atScope atScope :=
  .andAlso (.currentIs rfl) (.orElse (.nthIs 1 rfl) (.andAlso (.nthIs 1 rfl) (.nthIs 2 rfl)))

omit hcall in
theorem parallel_typescope : Parallel c enter₁ enter₂ typescope typescope :=
  .node _ <| .bind (.ignore (.eat rfl)) fun _ => .bind (.currentIs rfl) fun _ =>
    .ite (.bind .bump fun _ => .ignore parallel_qualName) (.report rfl)

omit hcall in
theorem parallel_typescopes : Parallel c enter₁ enter₂ typescopes typescopes :=
  .bind parallel_typescope fun _ => .repeated <|
    .bind (.andAlso (.currentIs rfl) (.nthPasses 1 (.intro rfl rfl rfl rfl rfl))) fun _ =>
    .bind (.when <| .bind .bump fun _ => parallel_typescope) fun _ => .pure _

omit hcall in
theorem parallel_atTypescope : Parallel c enter₁ enter₂ atTypescope atTypescope :=
  .orElse (.currentIs rfl) <| .andAlso (.currentIs rfl) <|
    .orElse (.nthPasses 1 .isNameSegment) (.andAlso (.nthIs 1 rfl) (.nthIs 2 rfl))

omit hcall in
theorem parallel_scope : Parallel c enter₁ enter₂ scope scope :=
  .node _ <| .within _ <| .bind (.ignore (.expect rfl)) fun _ =>
    .bind parallel_atTypescope fun _ => .bind (.currentIs rfl) fun _ =>
    .ite parallel_typescopes <| .ite (.bind .bump fun _ => .bind (.eat rfl) fun _ =>
      .when parallel_typescopes) (.report rfl)

theorem parallel_scopeAndBounds : Parallel c enter₁ enter₂ scopeAndBounds scopeAndBounds :=
  .bind parallel_atScope fun _ => .bind (.when parallel_scope) fun _ => .bind (.eat rfl) fun _ =>
    .when (parallel_bounds hcall)

theorem parallel_optionalTarget : Parallel c enter₁ enter₂ optionalTarget optionalTarget :=
  .bind parallel_atQualName fun _ => .bind (.currentIs rfl) fun _ =>
    .ite (.ignore parallel_qualName) (.when (parallel_block hcall))

theorem parallel_cmdDecl : Parallel c enter₁ enter₂ cmdDecl cmdDecl :=
  .node _ <| .bind (.currentIs rfl) fun _ =>
    .bind (.when <| .bind (.ignore parallel_name) fun _ => .bump) fun _ =>
    .bind (.currentIn (.intro rfl rfl rfl rfl rfl)) fun _ => .bind (.pick .bump (.report rfl))
    fun _ => .bind (parallel_optionalTarget hcall) fun _ => parallel_scopeAndBounds hcall

theorem parallel_instDecl : Parallel c enter₁ enter₂ instDecl instDecl :=
  .node _ <| .bind .bump fun _ => .bind (.ignore parallel_name) fun _ =>
    .bind (parallel_bounds hcall) fun _ => .bind parallel_atScope fun _ => .when parallel_scope

/-! ### Assertions -/

theorem parallel_optionalArguments :
    Parallel c enter₁ enter₂ optionalArguments optionalArguments :=
  .bind (.currentIs rfl) fun _ => .when <| .currentRange fun _ _ hopener => .bind .bump fun _ =>
    .bind (parallel_arguments hcall) fun _ => .ignore (.expectCloser rfl hopener)

theorem parallel_assertionTail (form : AssertionForm) :
    Parallel c enter₁ enter₂ (assertionTail form) (assertionTail form) := by
  refine .bind .bump fun _ => .bind (.currentIs rfl) fun _ => .bind .bump fun _ => ?_
  have hname {next : Unit → Rule Nonterminal Unit}
      (h : Parallel c enter₁ enter₂ (next ()) (next ())) :
      Parallel c enter₁ enter₂ (ignore name >>= next) (ignore name >>= next) :=
    .bind (.ignore parallel_name) fun _ => h
  have hend := parallel_scopeAndBounds hcall
  cases form with
  | property => exact .bind (.ignore (.expect rfl)) fun _ => hname hend
  | quantifiedProperty =>
    exact .bind (.ignore (.expect rfl)) fun _ => hname <|
      .bind (parallel_optionalArguments hcall) fun _ => hend
  | satisfiability => exact .bind (.when (.ignore (.eat rfl))) fun _ => hend
  | consistency => exact .bind (.ignore (.expect rfl)) fun _ => hname hend

omit hcall in
theorem parallel_atProperty : Parallel c enter₁ enter₂ atProperty atProperty :=
  .andAlso (.currentIs rfl) (.nthPasses 1 (.intro rfl rfl rfl rfl rfl))

theorem parallel_asserted : Parallel c enter₁ enter₂ asserted asserted := by
  refine .bind (.andAlso (.currentIs rfl) (.nthIs 1 rfl)) fun _ => .bind (.currentIs rfl) fun _ =>
    .bind (.currentIs rfl) fun _ =>
    .bind (.andAlso (.pure _) (.ahead declarationBehind_inWords)) fun _ => .ite ?_ <| .ite ?_ <|
    .ite ?_ <| .bind (parallel_expr hcall) fun _ => .pure _
  · exact .bind (.ignore parallel_name) fun _ => .bind (parallel_block hcall) fun _ => .pure _
  · exact .bind (.group <| .bind (parallel_block hcall) fun _ => parallel_extend hcall 0) fun _ =>
      .bind (.currentIs rfl) fun _ => .pure _
  · exact .group <| .bind .bump fun _ => .bind (parallel_quantDecls hcall) fun _ =>
      .bind (parallel_binderBody hcall) fun _ => .bind parallel_atProperty fun _ =>
      .ite (.pure _) <| .bind (.enclose _ (.pure _)) fun _ => .pure _

theorem parallel_assertion : Parallel c enter₁ enter₂ assertion assertion := by
  refine .group <| .bind .bump fun _ => .bind (parallel_asserted hcall) fun body =>
    .ite (.bind (.enclose _ (.pure _)) fun _ => .pure _) <| .bind (.currentIs rfl) fun _ =>
    .peek 1 fun tag₁ tag₂ htag => ?_
  have hform : Blind fun k => (some k).bind (AssertionForm.ofTag? (body == .quantified)) :=
    .intro rfl rfl rfl rfl rfl
  rw [hform.option_eq (f := (Option.bind · _)) htag]
  split
  · exact .bind (.enclose _ (parallel_assertionTail hcall _)) fun _ => .pure _
  · exact .bind (.enclose _ (.report rfl)) fun _ => .pure _

/-! ### Predicates, functions and facts -/

theorem parallel_declBody (owner : BodyOwner) :
    Parallel c enter₁ enter₂ (declBody owner) (declBody owner) :=
  .bind (.currentIs rfl) fun _ => .ite (parallel_block hcall) (.report rfl)

omit hcall in
theorem parallel_optionalReceiver :
    Parallel c enter₁ enter₂ optionalReceiver optionalReceiver :=
  .bind (.ahead receiverAhead_inWords) fun _ => .when <| .node _ <|
    .bind (.ignore parallel_qualName) fun _ => .bump

theorem parallel_paraItem {closer : Punct} (h : (TokenKind.punct closer).hasSynonym = false)
    (hstops : Blind [.punct .comma, .punct closer].contains) :
    Parallel c enter₁ enter₂ (paraItem closer) (paraItem closer) :=
  .bind (.currentIs h) fun _ => .bind .atEnd fun _ => .ite (.pure _) <|
    .bind (.currentIn (.intro rfl rfl rfl rfl rfl)) fun _ => .bind .atRecoveryPoint fun _ =>
    .ite (.bind (parallel_typed hcall _ rfl) fun _ => .eat rfl) <| .ite (.pure _) <|
    .bind (.skipUntil rfl hstops) fun _ => .eat rfl

theorem parallel_paraDecls : Parallel c enter₁ enter₂ paraDecls paraDecls := by
  refine .node _ <| .bind (.currentIs rfl) fun parenthesis => .currentRange fun _ _ hopener =>
    .bind .bump fun _ => ?_
  cases parenthesis with
  | true =>
    exact .bind (.within _ <| .repeated <| parallel_paraItem hcall rfl (.intro rfl rfl rfl rfl rfl))
      fun _ => .ignore (.expectCloser rfl hopener)
  | false =>
    exact .bind (.within _ <| .repeated <| parallel_paraItem hcall rfl (.intro rfl rfl rfl rfl rfl))
      fun _ => .ignore (.expectCloser rfl hopener)

theorem parallel_optionalParaDecls :
    Parallel c enter₁ enter₂ optionalParaDecls optionalParaDecls :=
  .bind (.currentIn (.intro rfl rfl rfl rfl rfl)) fun _ => .when (parallel_paraDecls hcall)

theorem parallel_predDecl : Parallel c enter₁ enter₂ predDecl predDecl :=
  .node _ <| .bind .bump fun _ => .bind (.currentIs rfl) fun _ =>
    .bind (.when (.tokenNode _)) fun _ => .bind parallel_optionalReceiver fun _ =>
    .bind (.ignore parallel_name) fun _ => .bind (parallel_optionalParaDecls hcall) fun _ =>
    parallel_declBody hcall _

theorem parallel_funDecl : Parallel c enter₁ enter₂ funDecl funDecl :=
  .node _ <| .bind .bump fun _ => .bind parallel_optionalReceiver fun _ =>
    .bind (.ignore parallel_name) fun _ => .bind (parallel_optionalParaDecls hcall) fun _ =>
    .bind (.ignore (.expect rfl)) fun _ =>
    .bind (parallel_optionalMult (.intro rfl rfl rfl rfl rfl)) fun _ =>
    .bind (parallel_expr hcall) fun _ => parallel_declBody hcall _

theorem parallel_factDecl : Parallel c enter₁ enter₂ factDecl factDecl :=
  .node _ <| .bind .bump fun _ => .bind (.currentIs rfl) fun _ =>
    .bind (.when (.ignore parallel_name)) fun _ => parallel_declBody hcall _

/-! ### Signatures -/

omit hcall in
theorem parallel_sigModifier : Parallel c enter₁ enter₂ sigModifier sigModifier :=
  .bind (.currentIs rfl) fun _ => .bind (.currentIs rfl) fun _ =>
    .bind (.currentIn (.intro rfl rfl rfl rfl rfl)) fun _ =>
    .ite (.bind .requireTemporal fun _ => .bind .bump fun _ => .pure _) <|
    .ite (.bind .bump fun _ => .pure _) <| .ite (.bind (.tokenNode _) fun _ => .pure _) (.pure _)

omit hcall in
theorem parallel_sigExt : Parallel c enter₁ enter₂ sigExt sigExt :=
  .node _ <| .bind (.currentIs rfl) fun _ => .bind .bump fun _ =>
    .bind (.ignore parallel_qualName) fun _ =>
    .when (parallel_separated rfl (.ignore parallel_qualName))

theorem parallel_fieldDecl : Parallel c enter₁ enter₂ fieldDecl fieldDecl :=
  .node _ <| .bind (.currentIs rfl) fun _ =>
    .bind (.when <| .bind .requireTemporal fun _ => .bump) fun _ =>
    .bind (.ignore parallel_nameList) fun _ => .bind (.ignore (.expect rfl)) fun _ =>
    .bind (parallel_optionalMult (.intro rfl rfl rfl rfl rfl)) fun _ =>
    .ignore (parallel_exprAt hcall _)

omit hcall in
theorem parallel_atField : Parallel c enter₁ enter₂ atField atField :=
  .currentIn (.intro rfl rfl rfl rfl rfl)

omit hcall in
theorem parallel_fieldEnd : Parallel c enter₁ enter₂ fieldEnd fieldEnd :=
  .bind (.eat rfl) fun _ => .when <| .bind parallel_atField fun _ => .when (.report rfl)

theorem parallel_fieldItem : Parallel c enter₁ enter₂ fieldItem fieldItem :=
  .bind (.currentIs rfl) fun _ => .bind .atEnd fun _ => .ite (.pure _) <|
    .bind parallel_atField fun _ => .bind (.currentIs rfl) fun _ => .bind .atRecoveryPoint fun _ =>
    .ite (.bind (parallel_fieldDecl hcall) fun _ => .bind parallel_fieldEnd fun _ => .pure _) <|
    .ite (.bind (.skipToken rfl) fun _ => .pure _) <| .ite (.pure _) <|
    .bind (.skipUntil rfl (.intro rfl rfl rfl rfl rfl)) fun _ => .bind parallel_fieldEnd fun _ =>
    .pure _

theorem parallel_fieldList : Parallel c enter₁ enter₂ fieldList fieldList :=
  .node _ <| .currentRange fun _ _ hopener => .bind (.expect rfl) fun _ => .when <|
    .bind (.within _ <| .repeated (parallel_fieldItem hcall)) fun _ =>
    .ignore (.expectCloser rfl hopener)

theorem parallel_sigDecl : Parallel c enter₁ enter₂ sigDecl sigDecl :=
  .node _ <| .bind (.repeated parallel_sigModifier) fun _ =>
    .bind (.ignore (.expectToken rfl _ rfl)) fun _ => .bind (.ignore parallel_nameList) fun _ =>
    .bind (.currentIn (.intro rfl rfl rfl rfl rfl)) fun _ => .bind (.when parallel_sigExt) fun _ =>
    .bind (parallel_fieldList hcall) fun _ => .bind (.currentIs rfl) fun _ =>
    .when (parallel_block hcall)

/-! ### Tests -/

omit hcall in
theorem parallel_testResult : Parallel c enter₁ enter₂ testResult testResult :=
  .bind (.currentIn (.intro rfl rfl rfl rfl rfl)) fun _ => .bind (.currentIs rfl) fun _ =>
    .ite .bump <| .ite (.bind .bump fun _ => .ignore (.eat rfl)) (.report rfl)

theorem parallel_testDecl : Parallel c enter₁ enter₂ testDecl testDecl :=
  .node _ <| .bind (.andAlso (.currentIs rfl) (.nthIs 1 rfl)) fun _ =>
    .bind (.when <| .bind (.ignore parallel_name) fun _ => .bump) fun _ =>
    .bind (parallel_optionalTarget hcall) fun _ => .bind (parallel_scopeAndBounds hcall) fun _ =>
    .bind (.ignore (.expect rfl)) fun _ => parallel_testResult

omit hcall in
theorem parallel_testBlock (context : Context) {item : Rule Nonterminal Unit}
    (hitem : Parallel c enter₁ enter₂ item item) :
    Parallel c enter₁ enter₂ (testBlock context item) (testBlock context item) :=
  .node _ <| .currentRange fun _ _ hopener => .bind (.expect rfl) fun _ => .when <|
    .bind (.within _ (.items rfl _ hitem)) fun _ => .ignore (.expectCloser rfl hopener)

theorem parallel_testExpectDecl : Parallel c enter₁ enter₂ testExpectDecl testExpectDecl :=
  .node _ <| .bind (.ignore (.eat rfl)) fun _ => .bind (.ignore (.expect rfl)) fun _ =>
    .bind (.currentIs rfl) fun _ => .bind (.when (.ignore parallel_name)) fun _ =>
    parallel_testBlock _ <| .bind (.orElse (.currentIs rfl) parallel_atQualName) fun _ =>
      .when (parallel_testDecl hcall)

theorem parallel_exampleDecl : Parallel c enter₁ enter₂ exampleDecl exampleDecl :=
  .node _ <| .bind .bump fun _ => .bind (.ignore parallel_name) fun _ =>
    .bind (.ignore (.expect rfl)) fun _ => .bind (parallel_expr hcall) fun _ =>
    .bind (.ignore (.expect rfl)) fun _ => parallel_bounds hcall

theorem parallel_suiteItem : Parallel c enter₁ enter₂ suiteItem suiteItem := by
  refine .peekBlind 0 (.intro rfl rfl rfl rfl rfl) fun first => .peek 1 fun _ _ hsecond => ?_
  rw [TokenKind.beq_eq (.keyword .expectKw) rfl hsecond]
  split
  · exact parallel_exampleDecl hcall
  · exact parallel_testExpectDecl hcall
  · exact .bind (parallel_assertion hcall) fun _ => .when (.report rfl)
  · exact .ite (parallel_testExpectDecl hcall) <| .bind .atRecoveryPoint fun _ =>
      .when (.skipToken rfl)

theorem parallel_testSuiteDecl : Parallel c enter₁ enter₂ testSuiteDecl testSuiteDecl :=
  .node _ <| .bind .bump fun _ => .bind .bump fun _ => .bind (.ignore (.expect rfl)) fun _ =>
    .bind (.ignore parallel_name) fun _ => parallel_testBlock _ (parallel_suiteItem hcall)

/-! ### Modules -/

omit hcall in
theorem parallel_moduleDecl : Parallel c enter₁ enter₂ moduleDecl moduleDecl :=
  .node _ <| .bind .bump fun _ => .bind parallel_atQualName fun _ =>
    .bind (.pick (.ignore parallel_qualName) (.report rfl)) fun _ => .bind (.currentIs rfl) fun _ =>
    .when <| .currentRange fun _ _ hopener => .bind .bump fun _ =>
    .bind (.ignore parallel_nameList) fun _ => .ignore (.expectCloser rfl hopener)

omit hcall in
theorem parallel_importTarget : Parallel c enter₁ enter₂ importTarget importTarget :=
  .bind parallel_atQualName fun _ => .bind (.currentIs rfl) fun _ => .ite
    (.bind (.ignore parallel_qualName) fun _ => .bind (.currentIs rfl) fun _ => .when <|
      .currentRange fun _ _ hopener => .bind .bump fun _ => .bind parallel_qualNameList fun _ =>
      .ignore (.expectCloser rfl hopener))
    (.ite .bump (.report rfl))

omit hcall in
theorem parallel_importDecl : Parallel c enter₁ enter₂ importDecl importDecl :=
  .node _ <| .within _ <| .bind .bump fun _ => .bind parallel_importTarget fun _ =>
    .bind (.eat rfl) fun _ => .when (.ignore parallel_name)

omit hcall in
theorem parallel_optionValue : Parallel c enter₁ enter₂ optionValue optionValue := by
  refine .peek 0 fun _ _ hfirst => .peek 1 fun _ _ hsecond => ?_
  rw [TokenKind.beq_eq .filePath rfl hfirst, TokenKind.beq_eq .number rfl hfirst,
    TokenKind.beq_eq (.punct .minus) rfl hfirst, TokenKind.beq_eq .number rfl hsecond]
  exact .bind parallel_atQualName fun _ => .ite .bump <|
    .ite (.bind .bump fun _ => .bump) <| .ite (.ignore parallel_qualName) (.report rfl)

omit hcall in
/-- No spelling of an operator is the name or the value of the option that is looked for. -/
theorem parallel_optionDecl : Parallel c enter₁ enter₂ optionDecl optionDecl := by
  refine .node _ <| .bind .bump fun _ => .currentText fun key₁ key₂ hkey =>
    .bind (.ignore parallel_qualName) fun _ => .currentText fun value₁ value₂ hvalue =>
    .bind parallel_optionValue fun _ => ?_
  have hkeys : ∀ p w, Punct.word? p = some w →
      (w.spelling == "problem_type") = (p.spelling == "problem_type") := by
    intro p w h
    cases p <;> cases h <;> decide
  have hvalues : ∀ p w, Punct.word? p = some w →
      (w.spelling == "temporal") = (p.spelling == "temporal") := by
    intro p w h
    cases p <;> cases h <;> decide
  rw [text_eq (f := (· == "problem_type")) hkeys hkey,
    text_eq (f := (· == "temporal")) hvalues hvalue]
  exact .when .admitTemporal

theorem parallel_evalDecl : Parallel c enter₁ enter₂ evalDecl evalDecl :=
  .node _ <| .bind .bump fun _ => parallel_expr hcall

theorem parallel_paragraph (form : ParagraphStart) :
    Parallel c enter₁ enter₂ form.rule form.rule := by
  cases form with
  | sig => exact parallel_sigDecl hcall
  | pred => exact parallel_predDecl hcall
  | func => exact parallel_funDecl hcall
  | fact => exact parallel_factDecl hcall
  | assertion => exact .ignore (parallel_assertion hcall)
  | command => exact parallel_cmdDecl hcall
  | testSuite => exact parallel_testSuiteDecl hcall
  | testExpect => exact parallel_testExpectDecl hcall
  | exampleTest => exact parallel_exampleDecl hcall
  | inst => exact parallel_instDecl hcall
  | option => exact parallel_optionDecl
  | sexpr => exact .tokenNode _

theorem parallel_declaration (seen : Seen) :
    Parallel c enter₁ enter₂ (declaration seen) (declaration seen) := by
  refine .peekBlind 0 (.intro rfl rfl rfl rfl rfl) fun first =>
    .peek 1 fun _ _ hsecond => .peek 2 fun _ _ hthird => ?_
  rw [paragraphStart_eq hsecond hthird]
  split
  · exact .bind (.report rfl) fun _ => .bind parallel_moduleDecl fun _ => .pure _
  · exact .bind (.when (.report rfl)) fun _ => .bind parallel_importDecl fun _ => .pure _
  · exact .bind (.when (.report rfl)) fun _ => .bind (parallel_evalDecl hcall) fun _ => .pure _
  · split
    · exact .bind (.when (.report rfl)) fun _ => .bind (parallel_paragraph hcall _) fun _ =>
        .pure _
    · exact .pure _

theorem parallel_sourceFile : Parallel c enter₁ enter₂ sourceFile sourceFile :=
  .bind (.currentIs rfl) fun _ => .bind (.when parallel_moduleDecl) fun _ => .ignore <|
    .loop _ fun seen => .bind .atEnd fun _ => .ite (.pure _) <|
    .bind (.progress (parallel_declaration hcall seen)) fun _ => .bind .atEnd fun _ =>
    .bind (.when (.skipUntil rfl (.intro rfl rfl rfl rfl rfl))) fun _ => .pure _

theorem parallel_exprRoot : Parallel c enter₁ enter₂ exprRoot exprRoot :=
  .within _ <| .bind (parallel_expr hcall) fun _ => .bind .atEnd fun _ => .when <|
    .bind (.report rfl) fun _ => .node _ <| .repeated <| .bind .atEnd fun _ =>
    .bind (.when .bump) fun _ => .pure _

theorem parallel_body (symbol : Nonterminal) :
    Parallel c enter₁ enter₂ (language.body symbol) (language.body symbol) := by
  cases symbol with
  | expression level => exact parallel_expression hcall level
  | boundGroup => exact parallel_boundGroup hcall

theorem parallel_entry (entry : Entry) :
    Parallel c enter₁ enter₂ entry.rule entry.rule := by
  cases entry with
  | wholeModule => exact parallel_sourceFile hcall
  | oneExpression => exact parallel_exprRoot hcall

end

/-- Calls run in parallel, however many levels are left. -/
theorem parallel_enter (c : Respelling) (levels : Nat) (symbol : Nonterminal) :
    Parallel c (language.enter c.setting₁ levels) (language.enter c.setting₂ levels)
      (.call symbol) (.call symbol) := by
  induction levels generalizing symbol with
  | zero => exact fun s t h => parallel_beyond symbol s t h
  | succ levels ih => exact fun s t h => parallel_body ih symbol s t h

end RelLang.Grammar
