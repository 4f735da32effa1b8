import RelLang.Proofs.Syntax.Whole

/-!
# Kinds of nodes with one form

Some kinds of nodes are made in one place of the grammar only, so that all their nodes
are around what one form derives. A form is uniform if it has such nodes around no other
form; all nodes of the trees that it derives are then told by their kind.
-/

namespace RelLang

/-- What the nodes of a kind are around, for kinds of nodes that are made in one place only. -/
def NodeKind.body? : NodeKind → Option Form
  | .assertDecl => some (Form.assertionHead .plain)
  | .optionDecl => some (.row [.token [.keyword .optionKw], Form.qualName, Form.optionValue])
  | _ => none

namespace Form

open Tree (kinds)

/-- The form has nodes of a kind with one body around no other form. -/
def Uniform : Form → Prop
  | .nothing | .token _ | .part _ => True
  | .seq f g | .either f g => Uniform f ∧ Uniform g
  | .many f => Uniform f
  | .node kind f => Uniform f ∧ ∀ body ∈ kind.body?, f = body
  | .ahead choice => ∀ ks, Uniform (choice ks)
  | .extended _ f => Uniform f

/-- The children of a node are derived from the body of its kind. -/
def Embodied (kind : NodeKind) (ts : List Tree) : Prop :=
  ∀ body ∈ kind.body?, ∃ n behind, Derives n body ts behind

variable {f g : Form}

theorem Uniform.given {test : List TokenKind → Bool} (hf : Uniform f) (hg : Uniform g) :
    Uniform (given test f g) := by
  intro ks
  dsimp only
  split
  · exact hf
  · exact hg

theorem uniform_look {test : List TokenKind → Bool} : Uniform (look test) :=
  Uniform.given trivial trivial

theorem Uniform.ifAhead {test : List TokenKind → Bool} (hf : Uniform f) :
    Uniform (ifAhead test f) :=
  hf.given trivial

theorem uniform_optional {kind : TokenKind} : Uniform (optional kind) := Uniform.ifAhead trivial

theorem Uniform.whileAhead {test : List TokenKind → Bool} (hf : Uniform f) :
    Uniform (whileAhead test f) :=
  ⟨⟨uniform_look, hf⟩, uniform_look⟩

theorem Uniform.separated {mark : Punct} (hf : Uniform f) : Uniform (separated mark f) :=
  Uniform.whileAhead ⟨trivial, hf⟩

theorem Uniform.yields {α : Type} [DecidableEq α] {a b : α} (hf : Uniform f) :
    Uniform (yields a f b) := by
  unfold Form.yields
  split
  · exact hf
  · trivial

theorem uniform_anyOf {forms : List Form} (h : ∀ f ∈ forms, Uniform f) : Uniform (anyOf forms) := by
  induction forms with
  | nil => trivial
  | cons f forms ih =>
    obtain ⟨hf, hforms⟩ := List.forall_mem_cons.mp h
    exact ⟨hf, ih hforms⟩

/-- Expressions are made in more than one place. -/
theorem body?_of_isExpr {kind : NodeKind} (h : (ExprForm.ofKind? kind).isSome = true) :
    kind.body? = none := by
  cases kind with
  | assertDecl | optionDecl => cases h
  | _ => rfl

theorem uniform_expr_node {kind : NodeKind} (h : (ExprForm.ofKind? kind).isSome = true)
    (hf : Uniform f) : Uniform (.node kind f) :=
  ⟨hf, by rw [body?_of_isExpr h]; exact nofun⟩

/-! ### Names and bounds -/

theorem uniform_name : Uniform name := ⟨trivial, nofun⟩

theorem uniform_nameList : Uniform nameList :=
  ⟨⟨uniform_name, .whileAhead ⟨trivial, uniform_name⟩⟩, nofun⟩

theorem uniform_qualName : Uniform qualName :=
  ⟨⟨.ifAhead ⟨trivial, trivial⟩, trivial, .whileAhead ⟨trivial, trivial⟩⟩, nofun⟩

theorem uniform_qualNameList : Uniform qualNameList :=
  ⟨⟨uniform_qualName, .separated uniform_qualName⟩, nofun⟩

theorem uniform_optionalMult {allowed : List TokenKind} : Uniform (optionalMult allowed) :=
  .ifAhead ⟨trivial, nofun⟩

theorem uniform_arguments : Uniform arguments := ⟨⟨trivial, trivial, .separated trivial⟩, nofun⟩

theorem uniform_boundValue : Uniform boundValue := by
  refine ⟨fun ks => ?_, nofun⟩
  dsimp only
  split
  · next form _ =>
    cases form with
    | oneToken => trivial
    | negativeNumber => exact ⟨trivial, trivial⟩
    | group => trivial
    | name => exact uniform_qualName
  · trivial

theorem uniform_boundProduct : Uniform boundProduct :=
  ⟨⟨uniform_boundValue, .whileAhead ⟨trivial, uniform_boundValue⟩⟩, nofun⟩

theorem uniform_boundUnion : Uniform boundUnion :=
  ⟨⟨uniform_boundProduct, .separated uniform_boundProduct⟩, nofun⟩

theorem uniform_boundPath (simple whole : Bool) : Uniform (boundPath simple whole) := by
  have hjoined : Uniform (token [.punct .dot] ++ qualName) := ⟨trivial, uniform_qualName⟩
  cases simple <;> cases whole
  · exact .whileAhead hjoined
  · trivial
  · exact ⟨uniform_look, hjoined, .whileAhead hjoined⟩
  · exact uniform_look

theorem uniform_boundLhs (simple : Bool) : Uniform (boundLhs simple) :=
  ⟨.given ⟨trivial, uniform_qualName, uniform_boundPath _ _⟩
    ⟨uniform_qualName, uniform_boundPath _ _⟩, nofun⟩

theorem uniform_boundRhs : Uniform boundRhs := ⟨⟨trivial, nofun⟩, uniform_boundUnion⟩

theorem uniform_bound : Uniform bound :=
  ⟨.given ⟨trivial, uniform_boundLhs _, uniform_boundLhs _⟩
    ⟨⟨uniform_boundLhs _, .ifAhead uniform_boundRhs⟩, uniform_boundLhs _, uniform_boundRhs⟩, nofun⟩

theorem uniform_bounds : Uniform bounds :=
  ⟨⟨uniform_optional, .given ⟨trivial, uniform_bound, trivial⟩ uniform_qualName⟩, nofun⟩

/-! ### Expressions -/

theorem uniform_block : Uniform block := ⟨⟨trivial, trivial, trivial⟩, nofun⟩

theorem uniform_declaration {kind : NodeKind} (h : kind.body? = none) :
    Uniform (declaration kind) :=
  ⟨⟨uniform_optional, uniform_nameList, trivial, uniform_optionalMult, trivial⟩,
    by rw [h]; exact nofun⟩

theorem uniform_quantDecls : Uniform quantDecls :=
  ⟨uniform_declaration rfl, .whileAhead ⟨trivial, uniform_declaration rfl⟩⟩

theorem uniform_binderBody : Uniform binderBody := .given ⟨trivial, trivial⟩ uniform_block

theorem uniform_letDecl : Uniform letDecl := ⟨⟨uniform_name, trivial, trivial⟩, nofun⟩

theorem uniform_binder (k : TokenKind) : Uniform (binder k) := by
  have hbindings : ∀ kind, (ExprForm.ofKind? kind).isSome = true → Uniform (bindings kind k) :=
    fun kind hkind => uniform_expr_node hkind ⟨trivial, uniform_letDecl,
      .whileAhead ⟨trivial, uniform_letDecl⟩, uniform_binderBody⟩
  unfold binder
  split
  · exact hbindings _ rfl
  · exact hbindings _ rfl
  · exact ⟨⟨trivial, .given uniform_quantDecls trivial, uniform_binderBody⟩, nofun⟩

theorem uniform_comprehension : Uniform comprehension :=
  ⟨⟨trivial, uniform_quantDecls, .given ⟨trivial, trivial⟩ (.ifAhead uniform_block), trivial⟩,
    nofun⟩

theorem uniform_ofAtom {k : TokenKind} {second : Option TokenKind} {form : Grammar.AtomForm}
    (h : Grammar.AtomForm.ofTokens? (some k) second = some form) : Uniform (ofAtom k form) := by
  cases form with
  | oneToken kind =>
    refine uniform_expr_node ?_ trivial
    have hatom : Derives 0 (ofAtom k (.oneToken kind)) [.node kind [.token k ""]] [] := .node .one
    obtain ⟨kind', us, heq, hkind⟩ := isExpr_ofAtom h 0 _ _ hatom
    obtain ⟨rfl, -⟩ := Tree.node.inj (List.cons.inj heq).1
    exact hkind
  | negativeNumber => exact ⟨⟨trivial, trivial⟩, nofun⟩
  | nameRef => exact ⟨uniform_qualName, nofun⟩
  | atName => exact ⟨⟨trivial, uniform_name⟩, nofun⟩
  | parenthesized => exact ⟨⟨trivial, trivial, trivial⟩, nofun⟩
  | braced => exact uniform_comprehension.given uniform_block

theorem uniform_operandHead : Uniform operandHead := by
  intro ks
  dsimp only
  split
  · trivial
  split
  · exact uniform_binder _
  split
  · next row hrow =>
    exact uniform_expr_node
      (Operator.form_of_row row (Operator.mem_table_of_frontRow? hrow)).2.2 ⟨trivial, trivial⟩
  split
  · next form hform => exact uniform_ofAtom hform
  · trivial

theorem uniform_infixOperator (kind : NodeKind) (k : TokenKind) :
    Uniform (infixOperator kind k) := by
  unfold infixOperator compareOperator arrowOperator
  split
  · refine ⟨?_, nofun⟩
    split
    · exact ⟨trivial, trivial⟩
    · trivial
  · refine ⟨⟨?_, .ifAhead trivial⟩, nofun⟩
    split
    · exact ⟨trivial, trivial⟩
    · trivial
  · trivial

theorem uniform_tail (k : TokenKind) (e : Operator.Extension) : Uniform (tail k e) := by
  unfold tail
  split
  · refine ⟨uniform_infixOperator _ _, trivial, ?_⟩
    split
    · exact .ifAhead ⟨trivial, trivial⟩
    · trivial
  · split
    · exact ⟨trivial, uniform_arguments, trivial⟩
    · trivial

theorem uniform_ofNonterminal (symbol : Grammar.Nonterminal) : Uniform (ofNonterminal symbol) := by
  cases symbol with
  | expression level => exact ⟨uniform_operandHead, uniform_look⟩
  | boundGroup => exact ⟨trivial, uniform_boundUnion, trivial⟩

/-! ### Commands and assertions -/

theorem uniform_typescopes : Uniform typescopes := by
  have htypescope : Uniform typescope := ⟨⟨uniform_optional, trivial, uniform_qualName⟩, nofun⟩
  exact ⟨htypescope, .whileAhead ⟨trivial, htypescope⟩⟩

theorem uniform_scope : Uniform scope :=
  ⟨⟨trivial, .given uniform_typescopes ⟨trivial, .ifAhead ⟨trivial, uniform_typescopes⟩⟩⟩, nofun⟩

theorem uniform_scopeAndBounds : Uniform scopeAndBounds :=
  ⟨.ifAhead uniform_scope, .ifAhead ⟨trivial, uniform_bounds⟩⟩

theorem uniform_optionalTarget : Uniform optionalTarget :=
  .given uniform_qualName (.ifAhead uniform_block)

theorem uniform_result {others : List TokenKind} : Uniform (result others) :=
  .given ⟨trivial, uniform_optional⟩ trivial

theorem uniform_ofAssertion (form : Grammar.AssertionForm) : Uniform (ofAssertion form) := by
  cases form with
  | quantifiedProperty =>
    exact ⟨trivial, trivial, uniform_name, .ifAhead ⟨trivial, uniform_arguments, trivial⟩,
      uniform_scopeAndBounds⟩
  | satisfiability => exact ⟨uniform_result, uniform_scopeAndBounds⟩
  | _ => exact ⟨trivial, trivial, uniform_name, uniform_scopeAndBounds⟩

theorem uniform_assertionHead (body : Grammar.Asserted) : Uniform (assertionHead body) := by
  have hblock : Uniform (assertedBlock body) :=
    ⟨⟨uniform_block, uniform_look⟩, fun _ => .yields trivial⟩
  have huniversal : Uniform universal := ⟨trivial, uniform_quantDecls, uniform_binderBody⟩
  refine ⟨trivial, .given (.yields ⟨uniform_name, uniform_block⟩) (.given hblock
    (.given ?_ (.yields trivial)))⟩
  cases body with
  | plain => trivial
  | expression => exact ⟨⟨huniversal, nofun⟩, uniform_look⟩
  | quantified => exact ⟨huniversal, uniform_look⟩

theorem uniform_assertion (admitted : Bool) : Uniform (assertion admitted) := by
  have htagged : ∀ body form, Uniform (tagged body form) := fun body form =>
    ⟨⟨uniform_assertionHead body, .given ⟨trivial, uniform_ofAssertion form⟩ trivial⟩,
      by cases form <;> exact nofun⟩
  cases admitted with
  | false =>
    exact ⟨uniform_assertionHead _, fun body hbody => Option.some.inj (Option.mem_def.mp hbody)⟩
  | true =>
    refine uniform_anyOf fun f hf => ?_
    simp only [List.mem_cons, List.not_mem_nil, or_false] at hf
    obtain rfl | rfl | rfl | rfl := hf
    all_goals exact htagged _ _

/-! ### Declarations -/

theorem uniform_optionalReceiver : Uniform optionalReceiver :=
  .ifAhead ⟨⟨uniform_qualName, trivial⟩, nofun⟩

theorem uniform_commaList (hf : Uniform f) : Uniform (commaList f) := ⟨⟨hf, trivial⟩, hf, trivial⟩

theorem uniform_optionalParaDecls : Uniform optionalParaDecls := by
  have hlist : Uniform (commaList paraDecl) := uniform_commaList (uniform_declaration rfl)
  exact .ifAhead ⟨.given ⟨trivial, hlist, trivial⟩ ⟨trivial, hlist, trivial⟩, nofun⟩

theorem uniform_predDecl : Uniform predDecl :=
  ⟨⟨trivial, .ifAhead ⟨trivial, nofun⟩, uniform_optionalReceiver, uniform_name,
    uniform_optionalParaDecls, uniform_block⟩, nofun⟩

theorem uniform_funDecl : Uniform funDecl :=
  ⟨⟨trivial, uniform_optionalReceiver, uniform_name, uniform_optionalParaDecls, trivial,
    uniform_optionalMult, trivial, uniform_block⟩, nofun⟩

theorem uniform_factDecl : Uniform factDecl :=
  ⟨⟨trivial, .ifAhead uniform_name, uniform_block⟩, nofun⟩

theorem uniform_sigDecl : Uniform sigDecl := by
  have hext : Uniform sigExt :=
    ⟨.given ⟨trivial, uniform_qualName, .separated uniform_qualName⟩ ⟨trivial, uniform_qualName⟩,
      nofun⟩
  have hfield : Uniform fieldDecl :=
    ⟨⟨uniform_optional, uniform_nameList, trivial, uniform_optionalMult, trivial⟩, nofun⟩
  exact ⟨⟨⟨trivial, trivial, nofun⟩, trivial, uniform_nameList, .ifAhead hext,
    ⟨⟨trivial, uniform_commaList hfield, trivial⟩, nofun⟩, .ifAhead uniform_block⟩, nofun⟩

/-! ### Tests -/

theorem uniform_testBlock (hf : Uniform f) : Uniform (testBlock f) :=
  ⟨⟨trivial, hf, trivial⟩, nofun⟩

theorem uniform_testExpectDecl : Uniform testExpectDecl := by
  have htest : Uniform testDecl :=
    ⟨⟨.ifAhead ⟨uniform_name, trivial⟩, uniform_optionalTarget, uniform_scopeAndBounds, trivial,
      uniform_result⟩, nofun⟩
  exact ⟨⟨uniform_optional, trivial, .ifAhead uniform_name,
    uniform_testBlock (.given htest trivial)⟩, nofun⟩

theorem uniform_exampleDecl : Uniform exampleDecl :=
  ⟨⟨trivial, uniform_name, trivial, trivial, trivial, uniform_bounds⟩, nofun⟩

theorem uniform_testSuiteDecl : Uniform testSuiteDecl := by
  have hitem : Uniform suiteItem :=
    ⟨uniform_exampleDecl, uniform_testExpectDecl, uniform_assertion true, trivial⟩
  exact ⟨⟨trivial, trivial, trivial, uniform_name, uniform_testBlock hitem⟩, nofun⟩

/-! ### Modules -/

theorem uniform_moduleDecl : Uniform moduleDecl :=
  ⟨⟨trivial, uniform_qualName, .ifAhead ⟨trivial, uniform_nameList, trivial⟩⟩, nofun⟩

theorem uniform_importDecl : Uniform importDecl :=
  ⟨⟨trivial, .given ⟨uniform_qualName, .ifAhead ⟨trivial, uniform_qualNameList, trivial⟩⟩ trivial,
    .ifAhead ⟨trivial, uniform_name⟩⟩, nofun⟩

theorem uniform_ofParagraph (start : Grammar.ParagraphStart) : Uniform (ofParagraph start) := by
  cases start with
  | sig => exact uniform_sigDecl
  | pred => exact uniform_predDecl
  | func => exact uniform_funDecl
  | fact => exact uniform_factDecl
  | assertion => exact ⟨uniform_assertion true, uniform_assertion false⟩
  | command =>
    exact ⟨⟨.ifAhead ⟨uniform_name, trivial⟩, trivial, uniform_optionalTarget,
      uniform_scopeAndBounds⟩, nofun⟩
  | testSuite => exact uniform_testSuiteDecl
  | testExpect => exact uniform_testExpectDecl
  | exampleTest => exact uniform_exampleDecl
  | inst => exact ⟨⟨trivial, uniform_name, uniform_bounds, .ifAhead uniform_scope⟩, nofun⟩
  | option =>
    exact ⟨⟨trivial, uniform_qualName, .given trivial (.given ⟨trivial, trivial⟩ uniform_qualName)⟩,
      fun body hbody => Option.some.inj (Option.mem_def.mp hbody)⟩
  | sexpr => exact ⟨trivial, nofun⟩

theorem uniform_ofEntry (entry : Entry) : Uniform (ofEntry entry) := by
  have heval : Uniform evalDecl := ⟨⟨trivial, trivial⟩, nofun⟩
  have hparagraph : Uniform paragraph := by
    intro ks
    dsimp only
    split
    · exact uniform_ofParagraph _
    · trivial
  cases entry with
  | wholeModule =>
    exact ⟨.ifAhead uniform_moduleDecl, ⟨uniform_importDecl, hparagraph, heval,
      uniform_importDecl, heval⟩, uniform_look⟩
  | oneExpression => exact ⟨trivial, uniform_look⟩

/-! ### Derived trees -/

/-- All nodes of the trees that a uniform form derives are told by their kind. -/
theorem embodied_of_derives {n : Nat} {ts : List Tree} {behind : List TokenKind}
    (h : Derives n f ts behind) (hf : Uniform f) (rest : List (TokenKind × String)) :
    Tree.EverywhereAll (fun kind us _ => Embodied kind us) ts rest := by
  induction h generalizing rest with
  | nothing => trivial
  | token => exact ⟨trivial, trivial⟩
  | seq _ _ ih₁ ih₂ => exact (Tree.everywhereAll_append _ _ _).mpr ⟨ih₁ hf.1 _, ih₂ hf.2 _⟩
  | left _ ih => exact ih hf.1 _
  | right _ ih => exact ih hf.2 _
  | stop => trivial
  | round _ _ ih₁ ih₂ => exact (Tree.everywhereAll_append _ _ _).mpr ⟨ih₁ hf _, ih₂ hf _⟩
  | node h ih => exact ⟨⟨fun body hbody => ⟨_, _, hf.2 body hbody ▸ h⟩, ih hf.1 _⟩, trivial⟩
  | part _ ih => exact ih (uniform_ofNonterminal _) _
  | ahead _ ih => exact ih (hf _) _
  | head _ ih => exact ih hf _
  | extend _ asked _ _ ih₁ ih₂ =>
    refine ⟨⟨fun body hbody => ?_,
      (Tree.everywhereAll_append _ _ _).mpr ⟨ih₁ hf _, ih₂ (uniform_tail _ _) _⟩⟩, trivial⟩
    rw [body?_of_isExpr (isExpr_of_extensionOf asked)] at hbody
    cases hbody

end Form
end RelLang
