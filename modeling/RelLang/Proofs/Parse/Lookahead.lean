import RelLang.Proofs.Grammar.Operand
import RelLang.Proofs.Parse.Placement
import RelLang.Proofs.Parse.Visit

/-!
# What a reading has seen it takes

The tests that look ahead and the rules behind them agree, wherever the reading of a text comes. A
rule that takes tokens without a look at them finds the tokens that it stands for, and two reports,
of a scope and of a command, are made of no text at all.
-/

namespace RelLang.Parse

open Grammar Rule

/-! ### Following a rule in a text -/

/-- What comes of a rule in a state of the reading of a text, with some levels left. -/
def follow (config : ParseConfig) (text : String) (levels : Nat) {α : Type}
    (rule : Rule Nonterminal α) (s : State) : α × State :=
  rule.run (setting config (tokenize text))
    (Grammar.language.enter (setting config (tokenize text)) levels) s

/-- Following the rule takes just tokens of the kinds, and reports nothing. -/
def TakesJust (config : ParseConfig) (text : String) (levels : Nat) {α : Type}
    (rule : Rule Nonterminal α) (s : State) (ks : List TokenKind) : Prop :=
  s.kinds = ks ++ (follow config text levels rule s).2.kinds ∧
    (follow config text levels rule s).2.reports = s.reports

variable {config : ParseConfig} {entry : Entry} {text : String} {tokens : List Token} {levels : Nat}
  {α : Type} {s : State} {ks behind : List TokenKind}

theorem takesJust_of_consumes {rule : Rule Nonterminal α} {a : α}
    (h : Consumes (setting config (tokenize text))
      (Grammar.language.enter (setting config (tokenize text)) levels) rule a ks behind)
    (hs : s.Valid) (hkinds : s.kinds = ks ++ behind) : TakesJust config text levels rule s ks := by
  obtain ⟨-, hrest, hreports⟩ := h s hs hkinds
  exact ⟨hkinds.trans (congrArg (ks ++ ·) hrest.symm), hreports⟩

/-! ### What agrees -/

/-- The rule makes a node that begins with what its head makes, and the head takes just tokens of
the kinds and reports nothing. -/
structure NodeBegins (config : ParseConfig) (text : String) (levels : Nat) {α β : Type}
    (rule : Rule Nonterminal α) (kind : NodeKind) (head : Rule Nonterminal β) (s : State)
    (ks : List TokenKind) : Prop where
  made : ∃ next : β → Rule Nonterminal α, follow config text levels rule s
    = follow config text levels (.node kind (head >>= next)) s
  taken : TakesJust config text levels head (Grammar.inner s) ks

/-- The tests that look ahead and the rules behind them agree in the reading of a text. -/
structure SeenIsTaken (config : ParseConfig) (entry : Entry) (text : String) : Prop where
  /-- Where a declaration is ahead, its header is taken, from the first token that was seen to the
  last. -/
  declaration : ∀ {levels : Nat} {s : State}, Reached config entry (tokenize text) levels s →
    declarationAhead s.kinds = true → ∃ disj names,
      NodeBegins config text levels quantDecl .quantDecl quantHeader s
        (declarationHeader disj names)
  /-- Where a receiver is ahead, it becomes a node of a qualified name and a dot. -/
  receiver : ∀ {levels : Nat} {s : State}, Reached config entry (tokenize text) levels s →
    receiverAhead s.kinds = true → ∃ this first segments,
      TakesJust config text levels optionalReceiver s
        (qualifiedPath this first segments ++ [.punct .dot]) ∧
      ∃ (name : List Tree) (skipped : List Token) (dot : String),
        (∀ t ∈ skipped, t.kind.isSignificant = false) ∧
        (follow config text levels optionalReceiver s).2.siblings
          = .node .receiver (.node .qualName name :: skipped.map Token.skippedTree
            ++ [.token (.punct .dot) dot]) :: s.attachPending.siblings
  /-- No declaration and no receiver is begun where it has not been seen. -/
  begun : ∀ {levels : Nat} {s : State} {α : Type} {kind : NodeKind} {body : Rule Nonterminal α},
    ComesTo config entry (tokenize text) levels (.node kind body) s →
      (kind = .quantDecl → declarationAhead s.kinds = true) ∧
      (kind = .receiver → receiverAhead s.kinds = true)
  /-- A command that begins with a name has a colon behind it. -/
  commandLabel : ∀ {levels : Nat} {s : State},
    ComesTo config entry (tokenize text) levels cmdDecl s → s.kindAt 0 = some .ident →
      NodeBegins config text levels cmdDecl .cmdDecl label s [.ident, .punct .colon]
  /-- So has a test that has been seen to have a label. -/
  testLabel : ∀ {levels : Nat} {s : State}, Reached config entry (tokenize text) levels s →
    s.kindAt 0 = some .ident → s.kindAt 1 = some (.punct .colon) →
      NodeBegins config text levels testDecl .testDecl label s [.ident, .punct .colon]
  /-- The word `suite` is behind `test`. -/
  suite : ∀ {levels : Nat} {s : State},
    ComesTo config entry (tokenize text) levels testSuiteDecl s →
      NodeBegins config text levels testSuiteDecl .testSuiteDecl knownPair s
        [.keyword .testKw, .keyword .suiteKw]
  /-- The slash of `this/` is behind `this`. -/
  thisName : ∀ {levels : Nat} {s : State}, Reached config entry (tokenize text) levels s →
    NameAhead s → s.kindAt 0 = some (.keyword .thisKw) →
      NodeBegins config text levels qualName .qualName knownPair s
        [.keyword .thisKw, .punct .slash]
  /-- From its `is` on an assertion is of the form that the word behind tells. -/
  assertionTag : ∀ {levels : Nat} {s : State} {form : AssertionForm},
    ComesTo config entry (tokenize text) levels (.enclose form.node (assertionTail form)) s →
      ∃ quantified tag, AssertionForm.ofTag? quantified tag = some form ∧
        TakesJust config text levels knownPair s [.keyword .isKw, tag] ∧
        ∃ next, follow config text levels (assertionTail form) s
          = follow config text levels (knownPair >>= next) s
  /-- An arrow is there, with a multiplicity in front of it or none. -/
  arrow : ∀ {levels : Nat} {s : State},
    ComesTo config entry (tokenize text) levels arrowOperator s →
    ∃ left, (left = [] ∨ ∃ k ∈ Operator.arrowMultiplicities, left = [k]) ∧
      NodeBegins config text levels arrowOperator .arrowOp arrowHead s (left ++ [.punct .arrow])
  /-- A comparison is there, with a negation in front of it or none. -/
  compare : ∀ {levels : Nat} {s : State},
    ComesTo config entry (tokenize text) levels compareOperator s →
      ∃ negation k, (negation = [] ∨ ∃ n, Operator.isNegation n = true ∧ negation = [n]) ∧
        Operator.isComparison k = true ∧
        NodeBegins config text levels compareOperator .compareOp comparisonHead s (negation ++ [k])
  /-- No command is without its word and no scope malformed. -/
  reports : ∀ r ∈ (ofText config entry text).reports,
    r.problem ≠ .command ∧ r.problem ≠ .scope ∧ r.toDiagnostic.code.label ≠ "E0601"

/-! ### Tokens that have been seen -/

theorem exists_of_one {k : TokenKind} (hk : s.kindAt 0 = some k) :
    ∃ behind, s.kinds = [k] ++ behind := by
  rw [State.kindAt_eq] at hk
  generalize s.kinds = ks at hk
  cases ks with
  | nil => cases hk
  | cons k' behind =>
    obtain rfl := Option.some.inj hk
    exact ⟨behind, rfl⟩

theorem exists_of_two {k l : TokenKind} (hk : s.kindAt 0 = some k) (hl : s.kindAt 1 = some l) :
    ∃ behind, s.kinds = [k, l] ++ behind := by
  obtain ⟨behind, hkinds⟩ := exists_of_one hk
  rw [State.kindAt_eq, hkinds] at hl
  rw [hkinds]
  cases behind with
  | nil => cases hl
  | cons l' behind =>
    obtain rfl := Option.some.inj hl
    exact ⟨behind, rfl⟩

/-- What has been seen of a token with another one in front of it that may be missing. -/
theorem exists_of_prefixedAhead {first last : TokenKind → Bool}
    (h : prefixedAhead first last s.kinds = true) :
    ∃ before k behind, (before = [] ∨ ∃ n, first n = true ∧ before = [n]) ∧ last k = true ∧
      s.kinds = before ++ [k] ++ behind := by
  rw [prefixedAhead, ← State.kindAt_eq, ← State.kindAt_eq, Bool.or_eq_true, Bool.and_eq_true,
    Option.any_eq_true, Option.any_eq_true, Option.any_eq_true] at h
  rcases h with ⟨k, hk, hlast⟩ | ⟨⟨n, hn, hfirst⟩, k, hk, hlast⟩
  · obtain ⟨behind, hkinds⟩ := exists_of_one hk
    exact ⟨[], k, behind, .inl rfl, hlast, hkinds⟩
  · obtain ⟨behind, hkinds⟩ := exists_of_two hn hk
    exact ⟨[n], k, behind, .inr ⟨n, hfirst, rfl⟩, hlast, hkinds⟩

/-! ### What is made -/

variable {β : Type}

theorem follow_node {kind : NodeKind} {body body' : Rule Nonterminal α}
    (h : follow config text levels body (Grammar.inner s)
      = follow config text levels body' (Grammar.inner s)) :
    follow config text levels (.node kind body) s
      = follow config text levels (.node kind body') s := by
  exact congrArg (fun r : α × State => (r.1, { r.2 with
    siblings := .node kind r.2.siblings.reverse :: s.attachPending.siblings })) h

theorem follow_look {test : Rule Nonterminal β} {next : β → Rule Nonterminal α} {b : β}
    (h : follow config text levels test s = (b, s)) :
    follow config text levels (test >>= next) s = follow config text levels (next b) s := by
  simp only [follow] at h
  simp only [follow, run_bind, h]

theorem steady_levels (config : ParseConfig) (text : String) (levels : Nat) :
    Steady (Grammar.language.enter (setting config (tokenize text)) levels) :=
  Grammar.language.steady_enter _ levels

/-- A node that begins with a pair of known tokens. -/
theorem NodeBegins.pair {rule : Rule Nonterminal α} {kind : NodeKind} {k l : TokenKind}
    (hmade : ∃ next : Unit → Rule Nonterminal α, follow config text levels rule s
      = follow config text levels (.node kind (knownPair >>= next)) s)
    (hs : s.Valid) (hk : s.kindAt 0 = some k) (hl : s.kindAt 1 = some l) :
    NodeBegins config text levels rule kind knownPair s [k, l] := by
  obtain ⟨behind, hkinds⟩ := exists_of_two hk hl
  exact ⟨hmade, takesJust_of_consumes (consumes_two (steady_levels config text levels) k l)
    (valid_inner hs) hkinds⟩

theorem NodeBegins.labelled {rule : Rule Nonterminal α} {kind : NodeKind}
    (hmade : ∃ next : Unit → Rule Nonterminal α, follow config text levels rule s
      = follow config text levels (.node kind (label >>= next)) s)
    (hs : s.Valid) (hk : s.kindAt 0 = some .ident) (hl : s.kindAt 1 = some (.punct .colon)) :
    NodeBegins config text levels rule kind label s [.ident, .punct .colon] := by
  obtain ⟨behind, hkinds⟩ := exists_of_two hk hl
  exact ⟨hmade, takesJust_of_consumes (consumes_label (steady_levels config text levels))
    (valid_inner hs) hkinds⟩

theorem declaration_taken (h : Reached config entry (tokenize text) levels s)
    (hahead : declarationAhead s.kinds = true) : ∃ disj names,
      NodeBegins config text levels quantDecl .quantDecl quantHeader s
        (declarationHeader disj names) := by
  obtain ⟨disj, names, behind, hkinds⟩ := declarationAhead_iff.mp hahead
  exact ⟨disj, names, ⟨fun _ => quantType, run_quantDecl s⟩, takesJust_of_consumes
    (consumes_quantHeader (steady_levels config text levels) disj names) (valid_inner h.valid)
    hkinds⟩

theorem receiver_taken (h : Reached config entry (tokenize text) levels s)
    (hahead : receiverAhead s.kinds = true) : ∃ this first segments,
      TakesJust config text levels optionalReceiver s
        (qualifiedPath this first segments ++ [.punct .dot]) ∧
      ∃ (name : List Tree) (skipped : List Token) (dot : String),
        (∀ t ∈ skipped, t.kind.isSignificant = false) ∧
        (follow config text levels optionalReceiver s).2.siblings
          = .node .receiver (.node .qualName name :: skipped.map Token.skippedTree
            ++ [.token (.punct .dot) dot]) :: s.attachPending.siblings := by
  obtain ⟨this, first, segments, t, -, -, hrun, hkinds, hreports, name, skipped, dot, hskipped,
    htree⟩ := run_optionalReceiver (steady_levels config text levels) h.valid hahead
  refine ⟨this, first, segments, ?_, name, skipped, dot, hskipped, ?_⟩
  · rw [TakesJust, follow, hrun, List.append_assoc]
    exact ⟨hkinds, hreports⟩
  · rw [follow, hrun, htree]

theorem commandLabel_taken (h : ComesTo config entry (tokenize text) levels cmdDecl s)
    (hlabel : s.kindAt 0 = some .ident) :
    NodeBegins config text levels cmdDecl .cmdDecl label s [.ident, .punct .colon] := by
  have hahead : commandAhead s.kinds = true := h.foreseen
  simp only [commandAhead, ← State.kindAt_eq, hlabel] at hahead
  have hcolon : s.kindAt 1 = some (.punct .colon) :=
    eq_of_beq (Bool.and_eq_true_iff.mp (Bool.and_eq_true_iff.mp hahead).1).2
  refine .labelled ⟨_, follow_node (follow_look (b := true) ?_)⟩ h.valid hlabel hcolon
  rw [follow, run_currentIs, kindAt_inner, hlabel, beq_self_eq_true]

theorem testLabel_taken (hs : s.Valid) (hlabel : s.kindAt 0 = some .ident)
    (hcolon : s.kindAt 1 = some (.punct .colon)) :
    NodeBegins config text levels testDecl .testDecl label s [.ident, .punct .colon] := by
  refine .labelled ⟨_, follow_node (follow_look (b := true) ?_)⟩ hs hlabel hcolon
  rw [follow, run_andAlso_look (run_currentIs _ _) (run_nthIs 1 _ _), kindAt_inner, kindAt_inner,
    hlabel, hcolon]
  rfl

theorem suite_taken (h : ComesTo config entry (tokenize text) levels testSuiteDecl s) :
    NodeBegins config text levels testSuiteDecl .testSuiteDecl knownPair s
      [.keyword .testKw, .keyword .suiteKw] := by
  have hahead : suiteAhead s.kinds = true := h.foreseen
  simp only [suiteAhead, ← State.kindAt_eq, Bool.and_eq_true, beq_iff_eq] at hahead
  exact .pair ⟨fun _ => do
    ignore (expect Keyword.forKw)
    ignore name
    testBlock .testSuiteBody suiteItem, rfl⟩ h.valid hahead.1 hahead.2

theorem thisName_taken (hs : s.Valid) (hname : NameAhead s)
    (hthis : s.kindAt 0 = some (.keyword .thisKw)) :
    NodeBegins config text levels qualName .qualName knownPair s
      [.keyword .thisKw, .punct .slash] := by
  have hslash : s.kindAt 1 = some (.punct .slash) := by
    simpa [NameAhead, hthis, TokenKind.isNameSegment] using hname
  have hahead : follow config text levels atQualName s = (true, s) := by
    rw [follow, run_atQualName, hname]
  refine .pair ⟨fun _ => pathSegments, (follow_look hahead).trans (follow_node ?_)⟩ hs hthis hslash
  refine follow_look (b := true) ?_
  rw [follow, run_currentIs, kindAt_inner, hthis, beq_self_eq_true]

/-- The tail of an assertion begins with the two tokens that have told its form. -/
theorem follow_assertionTail (form : AssertionForm) (s : State) :
    ∃ next, follow config text levels (assertionTail form) s
      = follow config text levels (knownPair >>= next) s := by
  cases form with
  | property =>
    refine ⟨fun _ => do
      ignore (expect Keyword.forKw)
      ignore name
      scopeAndBounds, ?_⟩
    simp only [follow, assertionTail, knownPair, run_bind, run_bump, run_currentIs]
  | quantifiedProperty =>
    refine ⟨fun _ => do
      ignore (expect Keyword.forKw)
      ignore name
      optionalArguments
      scopeAndBounds, ?_⟩
    simp only [follow, assertionTail, knownPair, run_bind, run_bump, run_currentIs]
  | satisfiability =>
    refine ⟨fun _ => do
      when (s.bump.kindAt 0 == some (.keyword .forgeErrorKw)) do
        ignore (eat .filePath)
      scopeAndBounds, ?_⟩
    simp only [follow, assertionTail, knownPair, run_bind, run_bump, run_currentIs]
  | consistency =>
    refine ⟨fun _ => do
      ignore (expect Keyword.withKw)
      ignore name
      scopeAndBounds, ?_⟩
    simp only [follow, assertionTail, knownPair, run_bind, run_bump, run_currentIs]

theorem node_injective {form form' : AssertionForm} (h : form.node = form'.node) :
    form = form' := by
  cases form <;> cases form' <;> first | rfl | cases h

/-- The tag of an assertion is behind its `is`, and tells the form. -/
theorem tag_of_formAhead {form : AssertionForm} (h : formAhead form.node s.kinds = true) :
    s.kindAt 0 = some (.keyword .isKw) ∧ ∃ quantified tag, s.kindAt 1 = some tag ∧
      AssertionForm.ofTag? quantified tag = some form := by
  rw [formAhead, ← State.kindAt_eq, ← State.kindAt_eq, Bool.and_eq_true, beq_iff_eq,
    Option.any_eq_true] at h
  obtain ⟨his, tag, htag, htold⟩ := h
  obtain ⟨quantified, -, htold⟩ := List.any_eq_true.mp htold
  obtain ⟨form', hform, hnode⟩ := (Option.any_eq_true _ _).mp htold
  obtain rfl := node_injective (eq_of_beq hnode)
  exact ⟨his, quantified, tag, htag, hform⟩

theorem assertionTag_taken {form : AssertionForm}
    (h : ComesTo config entry (tokenize text) levels (.enclose form.node (assertionTail form)) s) :
    ∃ quantified tag, AssertionForm.ofTag? quantified tag = some form ∧
      TakesJust config text levels knownPair s [.keyword .isKw, tag] ∧
      ∃ next, follow config text levels (assertionTail form) s
        = follow config text levels (knownPair >>= next) s := by
  have hahead : formAhead form.node s.kinds = true := by
    have hseen := h.foreseen
    cases form <;> exact hseen
  obtain ⟨his, quantified, tag, htag, hform⟩ := tag_of_formAhead hahead
  obtain ⟨behind, hkinds⟩ := exists_of_two his htag
  exact ⟨quantified, tag, hform, takesJust_of_consumes
    (consumes_two (steady_levels config text levels) _ tag) h.valid hkinds,
    follow_assertionTail form s⟩

theorem arrow_taken (h : ComesTo config entry (tokenize text) levels arrowOperator s) :
    ∃ left, (left = [] ∨ ∃ k ∈ Operator.arrowMultiplicities, left = [k]) ∧
      NodeBegins config text levels arrowOperator .arrowOp arrowHead s
        (left ++ [.punct .arrow]) := by
  have hahead : arrowAhead s.kinds = true := h.foreseen
  obtain ⟨left, k, behind, hleft, hk, hkinds⟩ := exists_of_prefixedAhead hahead
  obtain rfl := eq_of_beq hk
  refine ⟨left, hleft.imp_right ?_, ⟨fun _ => do
      let right ← currentIn Operator.arrowMultiplicities
      let quantifier ← atQuantifier
      let operandBehind ← nthPasses 1 Operator.startsExpr
      when (right && !quantifier && operandBehind) bump, ?_⟩, takesJust_of_consumes
    (consumes_prefixed (steady_levels config text levels) (run_currentIn _) rfl hleft)
    (valid_inner h.valid) hkinds⟩
  · rintro ⟨n, hn, rfl⟩
    exact ⟨n, List.contains_iff_mem.mp hn, rfl⟩
  · simp only [follow, arrowOperator, arrowHead, run_node, run_bind]

theorem compare_taken (h : ComesTo config entry (tokenize text) levels compareOperator s) :
    ∃ negation k, (negation = [] ∨ ∃ n, Operator.isNegation n = true ∧ negation = [n]) ∧
      Operator.isComparison k = true ∧
      NodeBegins config text levels compareOperator .compareOp comparisonHead s
        (negation ++ [k]) := by
  have hahead : comparisonAhead s.kinds = true := h.foreseen
  obtain ⟨negation, k, behind, hnegation, hk, hkinds⟩ := exists_of_prefixedAhead hahead
  obtain ⟨row, hrow, -⟩ := (Option.any_eq_true _ _).mp hk
  refine ⟨negation, k, hnegation, hk, ⟨⟨fun _ => pure (), rfl⟩, takesJust_of_consumes
    (consumes_prefixed (steady_levels config text levels) (run_nthPasses 0 _)
      (Operator.isNegation_of_infixRow? hrow) hnegation) (valid_inner h.valid) hkinds⟩⟩

/-! ### What is reported -/

/-- No report that the grammar makes is one of the two. -/
theorem reportable_ne {problem : Problem} {ks : List TokenKind} (h : reportable problem ks = true) :
    problem ≠ .command ∧ problem ≠ .scope ∧ problem.code ≠ .malformedScope := by
  cases problem with
  | command => cases h
  | scope => cases h
  | tooDeep => exact ⟨nofun, nofun, nofun⟩
  | _ => exact ⟨nofun, nofun, bne_iff_ne.mp h⟩

theorem code_of_label {code : Code} (h : code.label = "E0601") : code = .malformedScope := by
  revert h
  cases code <;> decide +kernel

theorem reports_ne {r : Report} (hr : r ∈ (ofText config entry text).reports) :
    r.problem ≠ .command ∧ r.problem ≠ .scope ∧ r.problem.code ≠ .malformedScope := by
  rcases comesTo_of_mem_reports hr with hstart | hproblem | ⟨levels, s, h⟩ | ⟨s, h⟩
  · obtain ⟨t, -, -, rfl⟩ := invalid_of_mem_reports_start _ _ r hstart
    refine ⟨nofun, nofun, ?_⟩
    show (LexicalFault.ofText t.text).code ≠ .malformedScope
    cases LexicalFault.ofText t.text <;> nofun
  · rw [hproblem]
    exact ⟨nofun, nofun, nofun⟩
  · exact reportable_ne h.foreseen
  · exact reportable_ne h.foreseen

/-- Whatever text is read as whatever, the tests that look ahead and the rules behind them agree in
every state that the reading goes through, the tokens that are taken without a look are the ones
that they stand for, and no scope and no command is reported. -/
theorem seen_is_taken (config : ParseConfig) (entry : Entry) (text : String) :
    SeenIsTaken config entry text where
  declaration := declaration_taken
  receiver := receiver_taken
  begun h := by
    constructor
    · rintro rfl
      exact h.foreseen
    · rintro rfl
      exact h.foreseen
  commandLabel := commandLabel_taken
  testLabel h := testLabel_taken h.valid
  suite := suite_taken
  thisName h := thisName_taken h.valid
  assertionTag := assertionTag_taken
  arrow := arrow_taken
  compare := compare_taken
  reports r hr := by
    obtain ⟨hcommand, hscope, hcode⟩ := reports_ne hr
    exact ⟨hcommand, hscope, fun hlabel => hcode (code_of_label hlabel)⟩

/-- A text that begins with a labelled command is read by the rule for commands. -/
theorem comesTo_labelledCommand (hlabel : (start config tokens).kindAt 0 = some .ident)
    (hcolon : (start config tokens).kindAt 1 = some (.punct .colon))
    (hrun : (start config tokens).kindAt 2 = some (.keyword .runKw)) :
    ComesTo config .wholeModule tokens nestingLimit cmdDecl (start config tokens) := by
  have hdeclaration : Visits (setting config tokens)
      (Grammar.language.enter (setting config tokens) nestingLimit) (declaration {})
      (start config tokens) cmdDecl (start config tokens) := by
    refine .next (.next (.next ?_))
    simp only [run_peek, hlabel, hcolon, hrun]
    exact .next (.first (.here _ _))
  have hitem : Visits (setting config tokens)
      (Grammar.language.enter (setting config tokens) nestingLimit) (moduleItem {})
      (start config tokens) cmdDecl (start config tokens) := by
    refine .next ?_
    simp only [run_atEnd, hlabel]
    exact .first (.progress hdeclaration)
  refine .inside (.next (.next (.first (.loop ?_ hitem))))
  rw [run_currentIs, hlabel]
  exact .start

/-- In front of declared names their list is taken up to the colon, and in front of a command its
label is. -/
theorem seen_is_taken_names :
    (∃ disj names, NodeBegins {} "x, y: A" nestingLimit quantDecl .quantDecl quantHeader
      (start {} (tokenize "x, y: A")) (declarationHeader disj names)) ∧
    NodeBegins {} "c: run p" nestingLimit cmdDecl .cmdDecl label
      (start {} (tokenize "c: run p")) [.ident, .punct .colon] := by
  refine ⟨(seen_is_taken {} .oneExpression "x, y: A").declaration (reached_start _ _ _) ?_,
    (seen_is_taken {} .wholeModule "c: run p").commandLabel
      (comesTo_labelledCommand ?_ ?_ ?_) ?_⟩
  all_goals
    rw [tokenize_eq]
    decide +kernel

end RelLang.Parse
