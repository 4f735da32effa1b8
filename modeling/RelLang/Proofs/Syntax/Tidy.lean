import RelLang.Proofs.Syntax.Module
import RelLang.Proofs.Syntax.Neat

/-!
# What the nodes of the grammar end with

In a reading without reports every rule of the grammar ends with a token or with a node that does,
unless nothing of it is there; only a list of arguments may hold nothing. Few rules need to know the
tokens ahead for that: an operator, an atom or the dot of a receiver, which end with tokens that
they have not looked at themselves.
-/

namespace RelLang.Grammar

open Rule

variable {r : Reader} {closed : Bool} {pre : List TokenKind → Prop} {α : Type}

/-! ### Names -/

section

variable (hr : r.Faithful)

include hr

theorem neat_name {closes : Bool → Bool} :
    Neat r closed pre (name : Rule Nonterminal Bool) closes :=
  .look (looks_currentIs _) fun _ => .ite
    (fun h => .after hr (.tokenNode hr fun _ hp => front_of_at? (hp.2.trans h)) fun _ =>
      .done fun _ => rfl)
    fun _ => .ofLoud ((rejects_report hr _).bind hr _)

theorem neat_moreNames :
    Neat r closed pre (repeated do
      let more ← atCommaName
      when more do
        bump
        ignore (name : Rule Nonterminal Bool)
      return more) fun _ => closed :=
  .repeatedWhile hr looks_atCommaName <| .then hr .bumpLoose fun _ =>
    .ignore hr (neat_name hr)

theorem neat_nameList {closes : Bool → Bool} :
    Neat r closed pre (nameList : Rule Nonterminal Bool) closes :=
  .node hr <| .after hr (neat_name hr) fun _ =>
    .after hr (.when fun _ => neat_moreNames hr) fun _ => .done id

theorem neat_qualName {closes : Bool → Bool} :
    Neat r closed pre (qualName : Rule Nonterminal Bool) closes := by
  refine .look looks_atQualName fun _ => .ite (fun _ => .node hr ?_)
    fun _ => .ofLoud ((rejects_report hr _).bind hr _)
  refine .look (looks_currentIs _) fun _ => .then hr
    (.when fun _ => .then hr .bumpLoose fun _ => .bumpLoose) fun _ =>
    .look (looks_nthPasses 0 _) fun segment => .after hr (.ite (fun hsegment => .bump fun _ hp =>
      front_of_isNameSegment (hp.2.trans hsegment)) fun _ => .report hr _) fun _ => .after hr ?_
    fun _ => .done id
  exact .repeatedWhile hr (looks_segmentBehind .slash) (.bumpBump fun _ => front_of_segmentBehind)

theorem neat_qualNameList {closes : Unit → Bool} :
    Neat r closed pre (qualNameList : Rule Nonterminal Unit) closes :=
  .node hr <| .after hr (.ignore hr (neat_qualName hr)) fun _ =>
    .separated hr (.ignore hr (neat_qualName hr))

theorem neat_optionalMult {allowed : List TokenKind} :
    Neat r closed pre (optionalMult allowed : Rule Nonterminal Unit) fun _ => closed :=
  .look (looks_currentIn _) fun _ => .when fun h => .tokenNode hr fun _ hp =>
    front_of_atAny (hp.2.trans h)

end

variable (hr : r.Faithful) (ht : r.Tidy)

include hr ht

/-! ### Expressions inside other rules -/

theorem neat_exprAt {level : Nat} {closes : Bool → Bool} :
    Neat r closed pre (exprAt level) closes := by
  refine .bind hr ((ht.expression level).mono nofun (fun _ _ => trivial) fun _ => id)
    fun present => ?_
  cases present with
  | true => exact .after hr (.done fun _ => rfl) fun _ => .done fun _ => rfl
  | false => exact .after hr (.report hr _) fun _ => .done fun _ => rfl

theorem neat_expr {closes : Unit → Bool} : Neat r closed pre (ignore expr) closes :=
  .always (.ignore hr (neat_exprAt hr ht))

theorem neat_operand {level : Nat} {after : TokenKind} {closes : Unit → Bool} :
    Neat r closed pre (operand level after) closes := by
  refine .bind hr ((ht.expression level).mono nofun (fun _ _ => trivial) fun _ => id)
    fun present => ?_
  cases present with
  | true => exact .done fun _ => rfl
  | false => exact .report hr _

/-- There may be no arguments, and then their list holds nothing. -/
theorem neat_arguments : Neat r closed pre arguments fun _ => false :=
  .within <| .argumentNode hr <| .after hr (neat_expr hr ht) fun _ =>
    .separated hr (neat_expr hr ht)

/-! ### Bounds -/

theorem neat_boundValue {closes : Unit → Bool} : Neat r closed pre boundValue closes := by
  refine .node hr <| .look (looks_peek 0) fun first => .look (looks_peek 1) fun second => ?_
  cases hform : BoundValueForm.ofTokens? first second with
  | none => exact .report hr _
  | some form =>
    have htokens := tokens_of_boundValueForm hform
    cases form with
    | oneToken =>
      obtain ⟨k, -, rfl⟩ := htokens
      exact .bump fun _ hp => front_of_eq hp.1.2
    | negativeNumber =>
      obtain ⟨rfl, rfl⟩ := htokens
      exact .bumpBump fun _ hp => front_front_of_eq hp.1.2 hp.2
    | group => exact .ignore hr (.always ht.boundGroup)
    | name => exact .ignore hr (neat_qualName hr)

theorem neat_boundProduct {closes : Unit → Bool} : Neat r closed pre boundProduct closes := by
  refine .node hr <| .after hr (neat_boundValue hr ht) fun _ => .repeated hr ?_
  exact .look (looks_peek 0) fun first => .look (looks_peek 1) fun second =>
    .look (looks_peek 2) fun _ => .after hr (.when fun _ => .then hr .bumpLoose fun _ =>
      neat_boundValue hr ht) fun _ => .done id

theorem neat_boundUnion {closes : Unit → Bool} : Neat r closed pre boundUnion closes :=
  .node hr <| .after hr (neat_boundProduct hr ht) fun _ => .separated hr (neat_boundProduct hr ht)

theorem neat_boundGroup {closes : Bool → Bool} : Neat r closed pre boundGroup closes :=
  .skipLook (fun _ => rfl) fun _ => .then hr .bumpLoose fun _ =>
    .then hr (neat_boundUnion hr ht) fun _ =>
    .after hr (.requireToken hr) fun _ => .done fun _ => rfl

omit ht in
theorem neat_boundLhs {closes : Bool → Bool} : Neat r closed pre boundLhs closes :=
  .node hr <| .then hr .mayEat fun _ =>
    .after hr (.ignore hr (neat_qualName hr)) fun _ => .loop hr fun _ =>
    .look (looks_segmentBehind .dot) fun _ => .after hr (.when fun _ =>
      .then hr .bumpLoose fun _ => .ignore hr (neat_qualName hr)) fun _ => .done id

theorem neat_bound {closes : Unit → Bool} : Neat r closed pre bound closes := by
  refine .node hr <| .then hr .mayEat fun _ => .after hr (neat_boundLhs hr) fun _ =>
    .when fun _ => .look (looks_currentIn _) fun related => .ite (fun hrelated => ?_) fun _ =>
    .when fun _ => .report hr _
  exact .then hr (.tokenNode hr fun _ hp => front_of_atAny (hp.2.trans hrelated)) fun _ =>
    neat_boundUnion hr ht

theorem neat_bounds {closes : Unit → Bool} : Neat r closed pre bounds closes := by
  refine .node hr <| .then hr (.ignore hr .mayEat) fun _ => .look (looks_currentIs _) fun _ =>
    .ite (fun _ => .skipLook (fun _ => rfl) fun _ => ?_) fun _ =>
    .look looks_atQualName fun _ => .ite (fun _ => .ignore hr (neat_qualName hr)) fun _ =>
    .report hr _
  exact .then hr .bumpLoose fun _ => .then hr (.within <| .items hr <|
    .look looks_atBound fun _ => .when fun _ => neat_bound hr ht) fun _ => .requireToken hr

/-! ### Blocks and binders -/

theorem neat_block {closes : Unit → Bool} : Neat r closed pre block closes :=
  .node hr <| .skipLook (fun _ => rfl) fun _ => .then hr (.requireToken hr) fun _ =>
    .then hr (.within <| .items hr <| neat_expr hr ht) fun _ => .requireToken hr

/-- A declaration of names with their type. -/
theorem neat_declaration {kind : NodeKind} {closes : Unit → Bool} :
    Neat r closed pre (node kind do
      ignore (eat Keyword.disjKw)
      ignore nameList
      ignore (expect Punct.colon)
      optionalMult Operator.typeMultiplicities
      ignore expr) closes :=
  .node hr <| .then hr (.ignore hr .mayEat) fun _ => .then hr (.ignore hr (neat_nameList hr))
    fun _ => .then hr (.requireToken hr) fun _ => .then hr (neat_optionalMult hr) fun _ =>
    neat_expr hr ht

theorem neat_quantDecls {closes : Unit → Bool} : Neat r closed pre quantDecls closes := by
  have hlook : Looks (andAlso (currentIs Punct.comma) (ahead declarationBehind))
      Form.commaDeclaration := (looks_currentIs _).andAlso (looks_ahead _)
  exact .always <| .after hr (neat_declaration hr ht) fun _ => .repeatedWhile hr hlook <|
    .then hr .bumpLoose fun _ => neat_declaration hr ht

theorem neat_binderBody {closes : Unit → Bool} : Neat r closed pre binderBody closes :=
  .always <| .then hr .mayEat fun _ => .ite (fun _ => neat_expr hr ht)
    fun _ => .look (looks_currentIs _) fun _ => .ite (fun _ => neat_block hr ht) fun _ =>
    .report hr _

theorem neat_quantified {quantifier : TokenKind} {closes : Unit → Bool} :
    Neat r closed pre (quantified quantifier) closes :=
  .node hr <| .then hr .bumpLoose fun _ => .look (looks_ahead _) fun _ =>
    .then hr (.ite (fun _ => neat_quantDecls hr ht) fun _ => .report hr _) fun _ =>
    neat_binderBody hr ht

theorem neat_letDecl {closes : Unit → Bool} : Neat r closed pre letDecl closes :=
  .node hr <| .then hr (.ignore hr (neat_name hr)) fun _ => .then hr (.requireToken hr) fun _ =>
    neat_expr hr ht

theorem neat_bindings {kind : NodeKind} {closes : Unit → Bool} :
    Neat r closed pre (bindings kind) closes :=
  .node hr <| .then hr .bumpLoose fun _ => .then hr (neat_letDecl hr ht) fun _ =>
    .then hr (.repeatedWhile hr looks_atCommaName <| .then hr .bumpLoose fun _ =>
      neat_letDecl hr ht) fun _ => neat_binderBody hr ht

theorem neat_binder {keyword : TokenKind} {closes : Unit → Bool} :
    Neat r closed pre (binder keyword) closes := by
  unfold binder
  split
  · exact neat_bindings hr ht
  · exact neat_bindings hr ht
  · exact neat_quantified hr ht

/-! ### Atoms -/

theorem neat_parenthesized {closes : Unit → Bool} : Neat r closed pre parenthesized closes :=
  .node hr <| .skipLook (fun _ => rfl) fun _ => .then hr .bumpLoose fun _ =>
    .then hr (.within (neat_expr hr ht)) fun _ => .requireToken hr

theorem neat_comprehension {closes : Unit → Bool} : Neat r closed pre comprehension closes := by
  refine .node hr <| .skipLook (fun _ => rfl) fun _ => .then hr .bumpLoose fun _ =>
    .then hr (.within <| .then hr (neat_quantDecls hr ht) fun _ => ?_) fun _ => .requireToken hr
  exact .then hr .mayEat fun _ => .ite (fun _ => neat_expr hr ht) fun _ =>
    .look (looks_currentIs _) fun _ => .when fun _ => neat_block hr ht

/-- An atom, in front of the tokens that tell its form. -/
theorem neat_ofAtom {first second : Option TokenKind} {form : AtomForm}
    (h : AtomForm.ofTokens? first second = some form) {closes : Unit → Bool} :
    Neat r closed (fun ks => ks[0]? = first ∧ ks[1]? = second) form.rule closes := by
  obtain ⟨k, rfl⟩ : ∃ k, first = some k := by
    cases first with
    | none => cases h
    | some k => exact ⟨k, rfl⟩
  have htokens := tokens_of_atomForm h
  cases form with
  | oneToken kind => exact .tokenNode hr fun _ hp => front_of_eq hp.1
  | negativeNumber =>
    obtain rfl : second = some .number := htokens
    exact .node hr <| .bumpBump fun _ hp => front_front_of_eq hp.1 hp.2
  | nameRef => exact .node hr (.ignore hr (neat_qualName hr))
  | atName =>
    obtain rfl : second = some .ident := htokens
    exact .node hr <| .bumpThen (fun _ hp => front_front_of_eq hp.1 hp.2) <|
      .tokenNode hr fun _ => id
  | parenthesized => exact neat_parenthesized hr ht
  | braced =>
    exact .look (looks_ahead _) fun _ => .ite (fun _ => neat_comprehension hr ht)
      fun _ => neat_block hr ht

theorem neat_atom : Neat r closed pre atom id := by
  refine .look (looks_peek 0) fun first => .look (looks_peek 1) fun second => ?_
  cases hform : AtomForm.ofTokens? first second with
  | none => exact .done nofun
  | some form =>
    exact .after hr ((neat_ofAtom hr ht hform).mono id (fun _ hp => ⟨hp.1.2, hp.2⟩) fun _ => id)
      fun _ => .done id

/-! ### Expressions -/

theorem neat_operandHead : Neat r closed pre operandHead id := by
  refine .look (looks_peek 0) fun first => .look looks_atBinder fun isBinder => ?_
  cases first with
  | none => exact .done nofun
  | some k =>
    refine .ite (fun _ => .after hr (neat_binder hr ht) fun _ => .done id) fun _ => ?_
    cases Operator.frontRow? k with
    | none => exact neat_atom hr ht
    | some row =>
      exact .after hr (.node hr <| .whenTemporal hr <| .then hr .bumpLoose fun _ =>
        neat_operand hr ht) fun _ => .done id

omit ht in
/-- The operator of a binary node, in front of the tokens that tell what it extends to. -/
theorem neat_infixOperator {first : TokenKind} {e : Operator.Extension} {kind : NodeKind} :
    Neat r closed (fun ks => Operator.extensionOf ks = some (first, e)) (infixOperator kind)
      fun _ => false := by
  have hfirst : ∀ ks, Operator.extensionOf ks = some (first, e) → ks[0]? = some first :=
    fun _ hp => (Operator.extensionOf_eq_some.mp hp).1
  unfold infixOperator
  split
  · refine .node hr <| .look (looks_nthPasses 0 _) fun negated => ?_
    cases negated with
    | true =>
      refine .bumpBump fun ks hp => Operator.front_of_negation hp.1 ?_
      simpa [hfirst ks hp.1] using hp.2
    | false =>
      exact .skipLook (fun _ => rfl) fun _ => .bump fun ks hp => Operator.front_of_extensionOf hp.1
  · refine .node hr <| .look (looks_currentIn _) fun left => ?_
    have hright : Neat r true anything (do
        let right ← currentIn Operator.arrowMultiplicities
        let quantifier ← atQuantifier
        let operandBehind ← nthPasses 1 Operator.startsExpr
        when (right && !quantifier && operandBehind) bump) fun _ => true := by
      refine .look (looks_currentIn _) fun right => .look looks_atQuantifier fun quantifier =>
        .look (looks_nthPasses 1 _) fun behind => .when fun hall => ?_
      simp only [Bool.and_eq_true] at hall
      exact .bump fun _ hp => front_of_atAny (hp.1.1.2.trans hall.1.1)
    cases left with
    | true =>
      refine .bumpThen (fun ks hp => Operator.front_of_arrowMult hp.1 ?_)
        (.bumpThen (fun _ => id) hright)
      simpa [Form.atAny, hfirst ks hp.1] using hp.2
    | false =>
      exact .skipLook (fun _ => rfl) fun _ =>
        .bumpThen (fun ks hp => Operator.front_of_extensionOf hp.1) hright
  · exact .bumpLoose

theorem neat_extensionTail {first : TokenKind} {e : Operator.Extension} :
    Neat r closed (fun ks => Operator.extensionOf ks = some (first, e)) (extensionTail first e)
      fun _ => true := by
  unfold extensionTail
  cases e.operandLevel? with
  | some level =>
    refine .then hr (neat_infixOperator hr) fun _ => .after hr (neat_operand hr ht) fun _ =>
      .look (looks_currentIs _) fun otherwise => .when fun _ => ?_
    exact .then hr .bumpLoose fun _ => neat_operand hr ht
  | none =>
    refine .ite (fun _ => ?_) fun _ => .bump fun _ => Operator.front_of_extensionOf
    exact .then hr .bumpLoose fun _ => .then hr (neat_arguments hr ht) fun _ => .requireToken hr

theorem neat_extendOnce {level : Nat} :
    Neat r true pre (extendOnce level) fun _ => true := by
  intro s hs hsound hclosed _ hclean
  obtain ⟨-, hstep⟩ | ⟨k, e, hat, -, hstep⟩ := run_extendOnce r.setting r.enter level s
  · rw [hstep]
    exact ⟨hsound, fun _ => hclosed rfl⟩
  · rw [hstep] at hclean ⊢
    rw [extensionAt_eq] at hat
    have hby : Neat r true (fun ks => Operator.extensionOf ks = some (k, e)) (extendBy k e)
        fun _ => true := .whenTemporal hr (.enclose (neat_extensionTail hr ht))
    exact hby s hs hsound hclosed hat hclean

theorem neat_expression {level : Nat} : Neat r closed pre (expression level) id := by
  refine .group hr <| .bind hr (neat_operandHead hr ht) fun present => ?_
  cases present with
  | true => exact .after hr (.repeated hr (neat_extendOnce hr ht)) fun _ => .done id
  | false => exact .then hr (.done id) fun _ => .done nofun

/-! ### Commands and assertions -/

omit ht

theorem neat_typescope {closes : Unit → Bool} : Neat r closed pre typescope closes :=
  .node hr <| .then hr (.ignore hr .mayEat) fun _ => .look (looks_currentIs _) fun _ =>
    .ite (fun _ => .then hr .bumpLoose fun _ => .ignore hr (neat_qualName hr)) fun _ =>
    .report hr _

theorem neat_typescopes {closes : Unit → Bool} : Neat r closed pre typescopes closes := by
  have hlook : Looks (andAlso (currentIs Punct.comma)
      (nthPasses 1 [.number, .keyword .exactlyKw].contains)) Form.commaTypescope :=
    (looks_currentIs _).andAlso (looks_nthPasses _ _)
  exact .always <| .after hr (neat_typescope hr) fun _ => .repeatedWhile hr hlook <|
    .then hr .bumpLoose fun _ => neat_typescope hr

theorem neat_scope {closes : Unit → Bool} : Neat r closed pre scope closes := by
  refine .node hr <| .within <| .then hr (.requireToken hr) fun _ => .look looks_atTypescope
    fun _ => .look (looks_currentIs _) fun number => .ite (fun _ => neat_typescopes hr) fun _ =>
    .ite (fun hnumber => ?_) fun _ => .report hr _
  exact .bumpThen (fun _ hp => front_of_at? (hp.2.trans hnumber))
    (.eatWhen hr (neat_typescopes hr))

include ht

theorem neat_scopeAndBounds : Neat r closed pre scopeAndBounds fun _ => closed :=
  .look looks_atScope fun _ => .bind hr (.when fun _ => neat_scope hr) fun _ =>
    .eatWhen hr (neat_bounds hr ht)

theorem neat_optionalTarget : Neat r closed pre optionalTarget fun _ => closed :=
  .look looks_atQualName fun _ => .look (looks_currentIs _) fun _ =>
    .ite (fun _ => .ignore hr (neat_qualName hr)) fun _ => .when fun _ => neat_block hr ht

theorem neat_cmdDecl {closes : Unit → Bool} : Neat r closed pre cmdDecl closes := by
  refine .node hr <| .look (looks_currentIs _) fun _ => .then hr
    (.when fun _ => .then hr (.ignore hr (neat_name hr)) fun _ => .bumpLoose) fun _ =>
    .look (looks_currentIn _) fun command => .after hr (.ite (fun hcommand => ?_) fun _ =>
      .report hr _) fun _ => .after hr (neat_optionalTarget hr ht) fun _ =>
    neat_scopeAndBounds hr ht
  exact .bump fun _ hp => front_of_atAny (hp.2.trans hcommand)

theorem neat_instDecl {closes : Unit → Bool} : Neat r closed pre instDecl closes :=
  .node hr <| .then hr .bumpLoose fun _ => .then hr (.ignore hr (neat_name hr)) fun _ =>
    .after hr (neat_bounds hr ht) fun _ => .look looks_atScope fun _ =>
    .when fun _ => neat_scope hr

theorem neat_asserted {closes : Asserted → Bool} : Neat r closed pre asserted closes := by
  have hnamed : Looks (andAlso (currentIs .ident) (nthIs 1 Punct.lbrace) : Rule Nonterminal Bool)
      Form.namedBlockAhead := (looks_currentIs _).andAlso (looks_nthIs _ _)
  refine .look hnamed fun _ => .look (looks_currentIs _) fun _ => .look (looks_currentIs _)
    fun _ => .look (looks_asserted _ _) fun _ => .ite (fun _ => ?_) fun _ => .ite (fun _ => ?_)
    fun _ => .ite (fun _ => ?_) fun _ => ?_
  · exact .then hr (.ignore hr (neat_name hr)) fun _ => .after hr (neat_block hr ht) fun _ =>
      .done fun _ => rfl
  · exact .after hr (.group hr <| .after hr (neat_block hr ht) fun _ =>
      .repeated hr (neat_extendOnce hr ht)) fun _ => .look (looks_currentIs _) fun _ =>
      .done fun _ => rfl
  · refine .group hr <| .then hr .bumpLoose fun _ => .then hr (neat_quantDecls hr ht) fun _ =>
      .after hr (neat_binderBody hr ht) fun _ => .look looks_atProperty fun _ =>
      .ite (fun _ => .done fun _ => rfl) fun _ => ?_
    exact .after hr (.enclose (.done fun _ => rfl)) fun _ => .done fun _ => rfl
  · exact .after hr (neat_expr hr ht) fun _ => .done fun _ => rfl

theorem neat_optionalArguments : Neat r closed pre optionalArguments fun _ => closed :=
  .look (looks_currentIs _) fun _ => .when fun _ => .skipLook (fun _ => rfl) fun _ =>
    .then hr .bumpLoose fun _ => .then hr (neat_arguments hr ht) fun _ => .requireToken hr

/-- The end of an assertion, in front of the word behind `is` that tells what it is. -/
theorem neat_assertionTail {quantified : Bool} {form : AssertionForm} {closes : Unit → Bool} :
    Neat r closed (Form.tagAhead quantified form · = true) (assertionTail form) closes := by
  refine .bumpThen (fun _ => front_of_tagAhead) <| .look (looks_currentIs _) fun failing =>
    .bumpThen (fun _ hp => hp.1) ?_
  cases form with
  | property =>
    exact .always <| .then hr (.requireToken hr) fun _ => .after hr (.ignore hr (neat_name hr))
      fun _ => neat_scopeAndBounds hr ht
  | quantifiedProperty =>
    exact .always <| .then hr (.requireToken hr) fun _ => .after hr (.ignore hr (neat_name hr))
      fun _ => .after hr (neat_optionalArguments hr ht) fun _ => neat_scopeAndBounds hr ht
  | satisfiability =>
    exact .after hr (.when fun _ => .ignore hr .mayEat) fun _ =>
      (neat_scopeAndBounds hr ht).mono id (fun _ => id) fun _ _ => rfl
  | consistency =>
    exact .always <| .then hr (.requireToken hr) fun _ => .after hr (.ignore hr (neat_name hr))
      fun _ => neat_scopeAndBounds hr ht

theorem neat_assertion {closes : Bool → Bool} : Neat r closed pre assertion closes := by
  refine .group hr <| .then hr .bumpLoose fun _ => .after hr (neat_asserted hr ht) fun body =>
    .ite (fun _ => .after hr (.enclose (.done fun _ => rfl)) fun _ => .done fun _ => rfl)
    fun _ => .look (looks_currentIs _) fun tagged => .look (looks_peek 1) fun tag => ?_
  split
  · next form hform =>
    have htail : Neat r true (Form.tagAhead (body == .quantified) form · = true)
        (assertionTail form) fun _ => true := neat_assertionTail hr ht
    refine .after hr (.enclose (htail.mono id (fun ks hp => tagOf_eq_some.mp ?_) fun _ => id))
      fun _ => .done fun _ => rfl
    rwa [tagOf, hp.1.2, hp.2]
  · exact .after hr (.enclose (.report hr _)) fun _ => .done fun _ => rfl

/-! ### Declarations -/

omit ht in
/-- A receiver has a dot behind it. -/
theorem neat_optionalReceiver : Neat r closed pre optionalReceiver fun _ => closed := by
  have hdot : Neat r false (Form.at? (.punct .dot) · = true) bump fun _ => true :=
    .bump fun _ => front_of_at?
  refine .look (looks_ahead _) fun present => .when fun hpresent => .node hr ?_
  exact .thenKnown hr (reads_qualName hr).ignore (.ignore hr (neat_qualName hr)) hdot
    fun n ts behind hts hp => at?_dot_of_receiver hts (hp.2.trans hpresent)

theorem neat_declBody {owner : BodyOwner} {closes : Unit → Bool} :
    Neat r closed pre (declBody owner) closes :=
  .look (looks_currentIs _) fun _ => .ite (fun _ => neat_block hr ht) fun _ => .report hr _

/-- The parameters in their parentheses or brackets. -/
theorem neat_paraDecls {closes : Unit → Bool} : Neat r closed pre paraDecls closes := by
  refine .node hr <| .look (looks_currentIs _) fun _ => .skipLook (fun _ => rfl) fun _ =>
    .then hr .bumpLoose fun _ => .then hr (.within <| .repeated hr ?_) fun _ => .requireToken hr
  refine .look (looks_currentIs _) fun _ => .look looks_atEnd fun _ => .ite (fun _ => .done id)
    fun _ => .look (looks_currentIn _) fun _ => .skipLook (fun _ => rfl) fun _ =>
    .ite (fun _ => .then hr (neat_declaration hr ht) fun _ => .mayEat) fun _ =>
    .ite (fun _ => .done id) fun _ => .ofLoud ((rejects_skipUntil hr _ _).bind hr _)

theorem neat_optionalParaDecls : Neat r closed pre optionalParaDecls fun _ => closed :=
  .look (looks_currentIn _) fun _ => .when fun _ => neat_paraDecls hr ht

theorem neat_predDecl {closes : Unit → Bool} : Neat r closed pre predDecl closes := by
  refine .node hr <| .then hr .bumpLoose fun _ => .look (looks_currentIs _) fun wheat =>
    .then hr (.when fun hwheat => .tokenNode hr fun _ hp => front_of_at? (hp.2.trans hwheat))
    fun _ => .then hr (neat_optionalReceiver hr) fun _ => ?_
  exact .then hr (.ignore hr (neat_name hr)) fun _ => .then hr (neat_optionalParaDecls hr ht)
    fun _ => neat_declBody hr ht

theorem neat_funDecl {closes : Unit → Bool} : Neat r closed pre funDecl closes :=
  .node hr <| .then hr .bumpLoose fun _ => .then hr (neat_optionalReceiver hr) fun _ =>
    .then hr (.ignore hr (neat_name hr)) fun _ => .then hr (neat_optionalParaDecls hr ht)
    fun _ => .then hr (.requireToken hr) fun _ => .then hr (neat_optionalMult hr) fun _ =>
    .then hr (neat_expr hr ht) fun _ => neat_declBody hr ht

theorem neat_factDecl {closes : Unit → Bool} : Neat r closed pre factDecl closes :=
  .node hr <| .then hr .bumpLoose fun _ => .look (looks_currentIs _) fun _ =>
    .then hr (.when fun _ => .ignore hr (neat_name hr)) fun _ => neat_declBody hr ht

omit ht in
theorem neat_sigModifier : Neat r closed pre sigModifier fun _ => closed := by
  refine .look (looks_currentIs _) fun varying => .look (looks_currentIs _) fun abstracted =>
    .look (looks_currentIn _) fun multiplicity => .ite (fun hvarying => ?_) fun _ =>
    .ite (fun habstracted => ?_) fun _ => .ite (fun hmultiplicity => ?_) fun _ => .done id
  · exact .requireTemporal hr <| .after hr
      (.bump fun _ hp => front_of_at? (hp.1.1.2.trans hvarying)) fun _ => .done fun _ => rfl
  · exact .after hr (.bump fun _ hp => front_of_at? (hp.1.2.trans habstracted)) fun _ =>
      .done fun _ => rfl
  · exact .after hr (.tokenNode hr fun _ hp => front_of_atAny (hp.2.trans hmultiplicity)) fun _ =>
      .done fun _ => rfl

omit ht in
theorem neat_sigExt {closes : Unit → Bool} : Neat r closed pre sigExt closes :=
  .node hr <| .look (looks_currentIs _) fun _ => .then hr .bumpLoose fun _ =>
    .after hr (.ignore hr (neat_qualName hr)) fun _ => .when fun _ =>
    .separated hr (.ignore hr (neat_qualName hr))

theorem neat_fieldDecl {closes : Unit → Bool} : Neat r closed pre fieldDecl closes :=
  .node hr <| .look (looks_currentIs _) fun _ => .then hr
    (.when fun _ => .requireTemporal hr .bumpLoose) fun _ =>
    .then hr (.ignore hr (neat_nameList hr)) fun _ => .then hr (.requireToken hr) fun _ =>
    .then hr (neat_optionalMult hr) fun _ => .always (.ignore hr (neat_exprAt hr ht))

omit ht in
theorem neat_fieldEnd : Neat r closed pre fieldEnd fun _ => closed :=
  .bind hr .mayEat fun _ => .when fun _ => .look looks_atField fun _ => .when fun _ => .report hr _

theorem neat_fieldItem : Neat r closed pre fieldItem fun _ => closed := by
  refine .look (looks_currentIs _) fun _ => .look looks_atEnd fun _ => .ite (fun _ => .done id)
    fun _ => .look looks_atField fun _ => .look (looks_currentIs _) fun _ =>
    .skipLook (fun _ => rfl) fun _ => .ite (fun _ => ?_) fun _ =>
    .ite (fun _ => .ofLoud ((rejects_skipToken hr _).bind hr _)) fun _ => .ite (fun _ => .done id)
    fun _ => .ofLoud ((rejects_skipUntil hr _ _).bind hr _)
  exact .bind hr (neat_fieldDecl hr ht) fun _ => .bind hr (neat_fieldEnd hr) fun _ => .done id

theorem neat_fieldList {closes : Unit → Bool} : Neat r closed pre fieldList closes := by
  refine .node hr <| .skipLook (fun _ => rfl) fun _ => .after hr (.expectToken hr) fun opened =>
    .when fun _ => ?_
  have hfields : Neat r false anything (repeated fieldItem) fun _ => false :=
    .repeated hr (neat_fieldItem hr ht)
  exact .then hr (.within (hfields.mono nofun (fun _ => id) nofun)) fun _ => .requireToken hr

theorem neat_sigDecl {closes : Unit → Bool} : Neat r closed pre sigDecl closes :=
  .node hr <| .then hr (.repeated hr (neat_sigModifier hr)) fun _ => .then hr (.requireToken hr)
    fun _ => .then hr (.ignore hr (neat_nameList hr)) fun _ => .look (looks_currentIn _) fun _ =>
    .then hr (.when fun _ => neat_sigExt hr) fun _ => .after hr (neat_fieldList hr ht) fun _ =>
    .look (looks_currentIs _) fun _ => .when fun _ => neat_block hr ht

/-! ### Tests -/

omit ht in
theorem neat_testResult {closes : Unit → Bool} : Neat r closed pre testResult closes := by
  refine .look (looks_currentIn _) fun plain => .look (looks_currentIs _) fun failing =>
    .ite (fun hplain => .bump fun _ hp => front_of_atAny (hp.1.2.trans hplain)) fun _ =>
    .ite (fun hfailing => ?_) fun _ => .report hr _
  exact .bumpThen (fun _ hp => front_of_at? (hp.2.trans hfailing))
    ((Neat.ignore hr .mayEat).mono id (fun _ => id) fun _ _ => rfl)

theorem neat_testDecl {closes : Unit → Bool} : Neat r closed pre testDecl closes :=
  .node hr <| .look looks_labelled fun _ => .then hr
    (.when fun _ => .then hr (.ignore hr (neat_name hr)) fun _ => .bumpLoose) fun _ =>
    .then hr (neat_optionalTarget hr ht) fun _ => .then hr (neat_scopeAndBounds hr ht) fun _ =>
    .then hr (.requireToken hr) fun _ => neat_testResult hr

omit ht in
theorem neat_testBlock {context : Context} {item : Rule Nonterminal Unit}
    (hitem : Neat r false anything item fun _ => false) {closes : Unit → Bool} :
    Neat r closed pre (testBlock context item) closes := by
  refine .node hr <| .skipLook (fun _ => rfl) fun _ => .after hr (.expectToken hr) fun _ =>
    .when fun _ => .then hr (.within ?_) fun _ => .requireToken hr
  exact (Neat.items hr hitem).mono nofun (fun _ => id) nofun

theorem neat_testExpectDecl {closes : Unit → Bool} : Neat r closed pre testExpectDecl closes :=
  .node hr <| .then hr (.ignore hr .mayEat) fun _ => .then hr (.requireToken hr) fun _ =>
    .look (looks_currentIs _) fun _ => .then hr (.when fun _ => .ignore hr (neat_name hr)) fun _ =>
    neat_testBlock hr <| .look looks_atTest fun _ => .when fun _ => neat_testDecl hr ht

theorem neat_exampleDecl {closes : Unit → Bool} : Neat r closed pre exampleDecl closes :=
  .node hr <| .then hr .bumpLoose fun _ => .then hr (.ignore hr (neat_name hr)) fun _ =>
    .then hr (.requireToken hr) fun _ => .then hr (neat_expr hr ht) fun _ =>
    .then hr (.requireToken hr) fun _ => neat_bounds hr ht

theorem neat_suiteItem : Neat r false pre suiteItem fun _ => false := by
  refine .look (looks_peek 0) fun first => .look (looks_peek 1) fun second => ?_
  split
  · exact neat_exampleDecl hr ht
  · exact neat_testExpectDecl hr ht
  · exact .then hr (neat_assertion hr ht) fun _ => .when fun _ => .report hr _
  · exact .ite (fun _ => neat_testExpectDecl hr ht) fun _ => .skipLook (fun _ => rfl) fun _ =>
      .when fun _ => .ofLoud (rejects_skipToken hr _)

theorem neat_testSuiteDecl {closes : Unit → Bool} : Neat r closed pre testSuiteDecl closes :=
  .node hr <| .then hr .bumpLoose fun _ => .then hr .bumpLoose fun _ => .then hr (.requireToken hr)
    fun _ => .then hr (.ignore hr (neat_name hr)) fun _ => neat_testBlock hr (neat_suiteItem hr ht)

/-! ### Modules -/

omit ht

theorem neat_moduleDecl {closes : Unit → Bool} : Neat r closed pre moduleDecl closes := by
  refine .node hr <| .then hr .bumpLoose fun _ => .look looks_atQualName fun _ =>
    .after hr (.ite (fun _ => .ignore hr (neat_qualName hr)) fun _ => .report hr _) fun _ =>
    .look (looks_currentIs _) fun _ => .when fun _ => .skipLook (fun _ => rfl) fun _ => ?_
  exact .then hr .bumpLoose fun _ => .then hr (.ignore hr (neat_nameList hr)) fun _ =>
    .requireToken hr

theorem neat_importTarget {closes : Unit → Bool} : Neat r closed pre importTarget closes := by
  refine .look looks_atQualName fun _ => .look (looks_currentIs _) fun path =>
    .ite (fun _ => ?_) fun _ =>
    .ite (fun hpath => .bump fun _ hp => front_of_at? (hp.2.trans hpath)) fun _ => .report hr _
  refine .always <| .after hr (.ignore hr (neat_qualName hr)) fun _ => .look (looks_currentIs _)
    fun _ => .when fun _ => .skipLook (fun _ => rfl) fun _ => .then hr .bumpLoose fun _ => ?_
  exact .then hr (neat_qualNameList hr) fun _ => .requireToken hr

theorem neat_importDecl {closes : Unit → Bool} : Neat r closed pre importDecl closes :=
  .node hr <| .within <| .then hr .bumpLoose fun _ => .after hr (neat_importTarget hr) fun _ =>
    .eatWhen hr (.ignore hr (neat_name hr))

theorem neat_optionValue {closes : Unit → Bool} : Neat r closed pre optionValue closes := by
  refine .look (looks_peek 0) fun first => .look (looks_peek 1) fun second =>
    .look looks_atQualName fun _ => .ite (fun htoken => ?_) fun _ => .ite (fun hnegative => ?_)
    fun _ => .ite (fun _ => .always (.ignore hr (neat_qualName hr))) fun _ => .report hr _
  · cases first with
    | none => cases htoken
    | some k => exact .bump fun _ hp => front_of_eq hp.1.1.2
  · simp only [Bool.and_eq_true, beq_iff_eq] at hnegative
    obtain ⟨rfl, rfl⟩ := hnegative
    exact .bumpBump fun _ hp => front_front_of_eq hp.1.1.2 hp.1.2

theorem neat_optionDecl {closes : Unit → Bool} : Neat r closed pre optionDecl closes := by
  refine .node hr <| .then hr .bumpLoose fun _ => .skipLook (fun _ => rfl) fun key =>
    .then hr (.ignore hr (neat_qualName hr)) fun _ => .skipLook (fun _ => rfl) fun value =>
    .after hr (neat_optionValue hr) fun _ => .when fun _ => .admitTemporal

include ht

theorem neat_evalDecl {closes : Unit → Bool} : Neat r closed pre evalDecl closes :=
  .node hr <| .then hr .bumpLoose fun _ => neat_expr hr ht

/-- A paragraph, in front of the tokens that tell what it is. -/
theorem neat_paragraph {first second third : Option TokenKind} {start : ParagraphStart}
    (h : ParagraphStart.ofTokens? first second third = some start) :
    Neat r closed (fun ks => ks[0]? = first) start.rule fun _ => false := by
  cases start with
  | sig => exact neat_sigDecl hr ht
  | pred => exact neat_predDecl hr ht
  | func => exact neat_funDecl hr ht
  | fact => exact neat_factDecl hr ht
  | assertion => exact .ignore hr (neat_assertion hr ht)
  | command => exact neat_cmdDecl hr ht
  | testSuite => exact neat_testSuiteDecl hr ht
  | testExpect => exact neat_testExpectDecl hr ht
  | exampleTest => exact neat_exampleDecl hr ht
  | inst => exact neat_instDecl hr ht
  | option => exact neat_optionDecl hr
  | sexpr =>
    cases first with
    | none => cases h
    | some k => exact .tokenNode hr fun _ hp => front_of_eq hp

theorem neat_declarationItem (seen : Seen) :
    Neat r false pre (declaration seen) fun _ => false := by
  refine .look (looks_peek 0) fun first => .look (looks_peek 1) fun second =>
    .look (looks_peek 2) fun third => ?_
  split
  · exact .ofLoud ((rejects_report hr _).bind hr _)
  · exact .whenReport hr <| .then hr (neat_importDecl hr) fun _ => .done nofun
  · exact .whenReport hr <| .then hr (neat_evalDecl hr ht) fun _ => .done nofun
  · split
    · next hform =>
      exact .whenReport hr <| .then hr ((neat_paragraph hr ht hform).mono id
        (fun _ hp => hp.1.1.2) fun _ => id) fun _ => .done nofun
    · exact .done nofun

theorem neat_sourceFile : Neat r false pre sourceFile fun _ => false := by
  refine .look (looks_currentIs _) fun _ => .then hr (.when fun _ => neat_moduleDecl hr) fun _ =>
    .ignore hr <| .loop hr fun seen => .look looks_atEnd fun _ => .ite (fun _ => .done id)
    fun _ => ?_
  exact .then hr (.progress (neat_declarationItem hr ht seen)) fun _ => .look looks_atEnd fun _ =>
    .then hr (.when fun _ => .ofLoud (rejects_skipUntil hr _ _)) fun _ => .done id

theorem neat_exprRoot : Neat r false pre exprRoot fun _ => false :=
  .within <| .then hr (neat_expr hr ht) fun _ => .look looks_atEnd fun _ => .when fun _ =>
    .ofLoud ((rejects_report hr _).bind hr _)

theorem neat_entry (entry : Entry) : Neat r false anything entry.rule fun _ => false := by
  cases entry with
  | wholeModule => exact neat_sourceFile hr ht
  | oneExpression => exact neat_exprRoot hr ht

omit hr ht

/-! ### Levels -/

variable {setting : Setting} {passes : List Report → Prop}

/-- What is past the last level is reported, or there is nothing. -/
theorem run_expressionTooDeep (hkeep : setting.maxDiagnostics = none) {s : State}
    (hclean : (expressionTooDeep.runAlone setting s).2.reports = []) :
    expressionTooDeep.runAlone setting s = (false, s) := by
  have hnone : (s.kindAt 0).any Operator.startsExpr = false := by
    cases hfound : (s.kindAt 0).any Operator.startsExpr with
    | false => rfl
    | true => exact absurd hclean (reports_expressionTooDeep hkeep hfound)
  simp only [expressionTooDeep, runAlone, run_bind, run_nthPasses, run_pure, hnone, run_when_false]

/-- What is called is tidy, whatever the levels. -/
theorem tidy_readerOf (hkeep : setting.maxDiagnostics = none) (levels : Nat) :
    (readerOf setting levels 0 fun _ => True).Tidy := by
  have hfaithful (levels : Nat) : (readerOf setting levels 0 fun _ => True).Faithful :=
    faithful_readerOf hkeep (fun _ _ => trivial) levels 0 (.inl (Nat.zero_le _))
  induction levels with
  | zero =>
    refine ⟨fun level s _ hsound _ _ hclean => ?_, fun s _ _ _ _ hclean => ?_⟩
    · have hrun : (Rule.call (.expression level)).run (readerOf setting 0 0 fun _ => True).setting
          (readerOf setting 0 0 fun _ => True).enter s = (false, s) :=
        run_expressionTooDeep hkeep (s := s) hclean
      rw [hrun]
      exact ⟨hsound, nofun⟩
    · obtain ⟨report, hmem, -⟩ := mem_reports_skipNested hkeep s
      exact absurd hmem (List.eq_nil_iff_forall_not_mem.mp hclean report)
  | succ levels ih =>
    have hexpression (level : Nat) : Neat (readerOf setting levels 0 fun _ => True) false anything
        (expression level) id := neat_expression (hfaithful levels) ih
    have hgroup : Neat (readerOf setting levels 0 fun _ => True) false anything boundGroup
        fun _ => true := neat_boundGroup (hfaithful levels) ih
    exact ⟨hexpression, hgroup⟩

end RelLang.Grammar
