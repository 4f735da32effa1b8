import RelLang.Proofs.Syntax.Whole
import RelLang.View.Declaration

/-!
# Views that find what they look for

What the views of whole nodes yield. A view looks for its parts among the direct
children of its node; names are two nodes further down.
-/

namespace RelLang

open Constituent (child word)

/-- The views of a node yield all that no node of its kind goes without. -/
structure Located.Complete (n : Located) : Prop where
  name : ∀ v : Name, v.node = n → v.text.isSome
  nameList : ∀ v : NameList, v.node = n → v.names ≠ []
  qualName : ∀ v : QualName, v.node = n → v.segments ≠ []
  binary : ∀ v : BinaryExpr, v.node = n → v.lhs.isSome ∧ v.operator.isSome ∧ v.rhs.isSome ∧
    (v.hasToken (.keyword .elseKw) → v.elseBranch.isSome)
  unary : ∀ v : UnaryExpr, v.node = n → v.operator.isSome ∧ v.operand.isSome
  quant : ∀ v : QuantExpr, v.node = n →
    v.quantifier.isSome ∧ v.quantDecls ≠ [] ∧ v.body.isSome
  quantDecl : ∀ v : QuantDecl, v.node = n → v.names ≠ [] ∧ v.type.isSome
  letExpr : ∀ v : LetExpr, v.node = n → v.bindings ≠ [] ∧ v.body.isSome
  letDecl : ∀ v : LetDecl, v.node = n → v.name.isSome ∧ v.value.isSome
  comprehension : ∀ v : ComprehensionExpr, v.node = n → v.quantDecls ≠ []
  boxJoin : ∀ v : BoxJoinExpr, v.node = n → v.target.isSome
  prime : ∀ v : PrimeExpr, v.node = n → v.operand.isSome
  paren : ∀ v : ParenExpr, v.node = n → v.inner.isSome
  nameRef : ∀ v : NameRef, v.node = n → v.qualName.isSome
  atName : ∀ v : AtNameExpr, v.node = n → v.name.isSome
  moduleDecl : ∀ v : ModuleDecl, v.node = n → v.qualName.isSome
  sig : ∀ v : SigDecl, v.node = n → v.names ≠ [] ∧ v.fieldList.isSome
  sigExt : ∀ v : SigExt, v.node = n → v.kind.isSome ∧ v.parents ≠ []
  field : ∀ v : FieldDecl, v.node = n → v.names ≠ [] ∧ v.type.isSome
  pred : ∀ v : PredDecl, v.node = n → v.name.isSome ∧ v.block.isSome
  func : ∀ v : FunDecl, v.node = n → v.name.isSome ∧ v.block.isSome
  para : ∀ v : ParaDecl, v.node = n → v.names ≠ [] ∧ v.type.isSome
  fact : ∀ v : FactDecl, v.node = n → v.block.isSome
  command : ∀ v : CmdDecl, v.node = n → v.kind.isSome
  typescope : ∀ v : Typescope, v.node = n → v.sig.isSome
  test : ∀ v : TestDecl, v.node = n → v.expected.isSome
  testSuite : ∀ v : TestSuiteDecl, v.node = n → v.pred.isSome
  exampleTest : ∀ v : ExampleDecl, v.node = n → v.name.isSome ∧ v.expr.isSome ∧ v.bounds.isSome
  property : ∀ v : PropertyDecl, v.node = n →
    v.propertyKind.isSome ∧ v.name.isSome ∧ v.expr.isSome
  quantifiedProperty : ∀ v : QuantifiedPropertyDecl, v.node = n →
    v.propertyKind.isSome ∧ v.name.isSome ∧ v.quantDecls ≠ [] ∧ v.expr.isSome
  satisfiability : ∀ v : SatisfiabilityDecl, v.node = n → v.expr.isSome ∧ v.expected.isSome
  consistency : ∀ v : ConsistencyDecl, v.node = n → v.expr.isSome ∧ v.name.isSome
  inst : ∀ v : InstDecl, v.node = n → v.name.isSome ∧ v.bounds.isSome
  bound : ∀ v : Bound, v.node = n → v.lhs.isSome
  boundLhs : ∀ v : BoundLhs, v.node = n → v.path ≠ []
  union : ∀ v : BindRhsUnion, v.node = n → v.products ≠ []
  product : ∀ v : BindRhsProduct, v.node = n → v.atoms ≠ []
  option : ∀ v : OptionDecl, v.node = n → v.key.isSome
  eval : ∀ v : EvalDecl, v.node = n → v.expr.isSome

namespace View

variable {c : Category} {v : View c}

/-! ### Parts among the children -/

theorem all_ne_nil {d : Category} (h : v.node.children.any (child d).isAt = true) :
    v.all d ≠ [] := by
  intro hnil
  have hmap := v.map_tree_all d
  rw [hnil, List.map_nil] at hmap
  obtain ⟨t, ht, hd⟩ := List.any_eq_true.mp h
  exact List.filter_eq_nil_iff.mp hmap.symm t ht hd

theorem isSome_first {d : Category} (h : v.node.children.any (child d).isAt = true) :
    (v.first d).isSome = true := by
  rw [first_eq_head?]
  cases hall : v.all d with
  | nil => exact absurd hall (all_ne_nil h)
  | cons => rfl

theorem length_exprs : v.exprs.length = Tree.exprCount v.node.children := by
  rw [exprs, ← List.length_map (f := (·.node.tree)), v.map_tree_all, Tree.exprCount,
    List.countP_eq_length_filter]

theorem exists_tokenKinds {ks : List TokenKind}
    (h : v.node.children.any (word ks).isAt = true) : ∃ k ∈ v.tokenKinds, k ∈ ks := by
  obtain ⟨t, ht, hk⟩ := List.any_eq_true.mp h
  cases t with
  | token k text =>
    refine ⟨k, ?_, List.contains_iff_mem.mp hk⟩
    rw [tokenKinds_eq]
    exact List.mem_filterMap.mpr ⟨_, ht, rfl⟩
  | node kind children => cases hk

theorem any_word_of_hasToken {kind : TokenKind} (h : v.hasToken kind = true) :
    v.node.children.any (word [kind]).isAt = true := by
  rw [hasToken, tokenKinds_eq, List.contains_iff_mem] at h
  obtain ⟨t, ht, hk⟩ := List.mem_filterMap.mp h
  cases t with
  | token k text =>
    obtain rfl := Option.some.inj hk
    exact List.any_eq_true.mpr ⟨_, ht, List.contains_iff_mem.mpr (List.mem_singleton_self _)⟩
  | node kind children => cases hk

theorem isSome_tokenText? {kind : TokenKind} (h : v.node.children.any (word [kind]).isAt = true) :
    (v.tokenText? kind).isSome = true := by
  obtain ⟨k, hk, hmem⟩ := exists_tokenKinds h
  obtain ⟨t, ht, rfl⟩ := List.mem_map.mp hk
  rw [tokenText?, Option.isSome_map, List.find?_isSome]
  exact ⟨t, ht, beq_iff_eq.mpr (List.mem_singleton.mp hmem)⟩

theorem isSome_find? {test : TokenKind → Bool} {ks : List TokenKind}
    (h : v.node.children.any (word ks).isAt = true) (hks : ∀ k ∈ ks, test k = true) :
    (v.tokenKinds.find? test).isSome = true := by
  obtain ⟨k, hk, hmem⟩ := exists_tokenKinds h
  exact List.find?_isSome.mpr ⟨k, hk, hks k hmem⟩

theorem isSome_firstMeaning {α : Type} {meaning : TokenKind → Option α} {ks : List TokenKind}
    (h : v.node.children.any (word ks).isAt = true) (hks : ∀ k ∈ ks, (meaning k).isSome = true) :
    (v.firstMeaning meaning).isSome = true := by
  obtain ⟨k, hk, hmem⟩ := exists_tokenKinds h
  exact List.findSome?_isSome_iff.mpr ⟨k, hk, hks k hmem⟩

/-! ### Nodes below a node -/

section Below

variable {root : Located} (h : ∀ n ∈ root.descendants, Tree.Whole n.kind n.children)
include h

theorem part_only {kind : NodeKind} {v : View (.only kind)} (hv : v.node ∈ root.descendants)
    {p : Constituent} (hp : p ∈ kind.constituents) : v.node.children.any p.isAt = true := by
  have hkind : kind = v.node.kind := eq_of_beq v.admitted
  exact (h _ hv).parts p (hkind ▸ hp)

/-- A name has the text of its token. -/
theorem isSome_text {v : Name} (hv : v.node ∈ root.descendants) : v.text.isSome = true :=
  isSome_tokenText? (part_only h hv (.head _))

/-- The names of a declaration have texts. -/
theorem names_ne_nil (hv : v.node ∈ root.descendants)
    (hlist : v.node.children.any (child (.only .nameList)).isAt = true) : v.names ≠ [] := by
  obtain ⟨(list : NameList), hfirst⟩ := Option.isSome_iff_exists.mp (isSome_first hlist)
  have hbelow := Located.mem_descendants_of_mem_childNodes hv (node_mem_childNodes_of_first hfirst)
  obtain ⟨name, hname⟩ := List.exists_mem_of_ne_nil _
    (all_ne_nil (part_only h hbelow (.head _)) : list.names ≠ [])
  obtain ⟨text, htext⟩ := Option.isSome_iff_exists.mp (isSome_text h
    (Located.mem_descendants_of_mem_childNodes hbelow (node_mem_childNodes_of_mem_all hname)))
  have hnames : v.names = list.texts := by
    rw [names, nameList, hfirst]
    rfl
  rw [hnames]
  exact List.ne_nil_of_mem (List.mem_filterMap.mpr ⟨name, hname, htext⟩)

theorem segments_ne_nil {v : QualName} (hv : v.node ∈ root.descendants) : v.segments ≠ [] := by
  obtain ⟨k, hk, hmem⟩ := exists_tokenKinds (part_only h hv (.head _))
  obtain ⟨t, ht, rfl⟩ := List.mem_map.mp hk
  refine List.ne_nil_of_mem (List.mem_map.mpr ⟨t, List.mem_filter.mpr ⟨ht, ?_⟩, rfl⟩)
  exact (Form.isNameSegment_iff _).mpr hmem

end Below

/-! ### Operators -/

theorem constituents_of_binary {kind : NodeKind} (h : ExprForm.ofKind? kind = some .binary) :
    kind.constituents = [child (.only .compareOp)] ∨ kind.constituents = [child (.only .arrowOp)] ∨
      kind.constituents = [word (Operator.operatorsOf kind)] := by
  cases kind
  all_goals first
    | cases h
      done
    | exact .inl rfl
    | exact .inr (.inl rfl)
    | exact .inr (.inr rfl)

theorem constituents_of_unary {kind : NodeKind} (h : ExprForm.ofKind? kind = some .unary) :
    kind.constituents = [word (Operator.operatorsOf kind), child .expr] := by
  cases kind
  all_goals first
    | cases h
      done
    | rfl

theorem isTrivia_of_mem_operatorsOf {kind : NodeKind} {k : TokenKind}
    (h : k ∈ Operator.operatorsOf kind) : k.isTrivia = false := by
  obtain ⟨row, hrow, hk⟩ := List.mem_flatMap.mp h
  exact Operator.isTrivia_of_mem_operators row (List.mem_filter.mp hrow).1 k hk

section Operators

variable {root : Located} (h : ∀ n ∈ root.descendants, Tree.Whole n.kind n.children)
include h

/-- The operator of a binary node is there, in the node or in one of its own below. -/
theorem isSome_operator {v : BinaryExpr} (hv : v.node ∈ root.descendants) :
    v.operator.isSome = true := by
  have hform : ExprForm.ofKind? v.node.kind = some .binary := eq_of_beq v.admitted
  have hbelow : ∀ {d : Category} {w : View d}, v.first d = some w → w.node ∈ root.descendants :=
    fun hw => Located.mem_descendants_of_mem_childNodes hv (node_mem_childNodes_of_first hw)
  rw [BinaryExpr.operator]
  split
  · next compare _ hcompare =>
    exact isSome_find? (part_only h (hbelow hcompare) (.head _)) (by decide)
  · next arrow _ harrow => exact isSome_find? (part_only h (hbelow harrow) (.head _)) (by decide)
  · next hcompare harrow =>
    have hparts := (h _ hv).parts
    obtain heq | heq | heq := constituents_of_binary hform
    all_goals rw [heq] at hparts
    · have hfirst := isSome_first (hparts _ (.head _))
      rw [show v.first _ = none from hcompare] at hfirst
      cases hfirst
    · have hfirst := isSome_first (hparts _ (.head _))
      rw [show v.first _ = none from harrow] at hfirst
      cases hfirst
    · exact isSome_find? (hparts _ (.head _)) fun k hk => by
        simp [isTrivia_of_mem_operatorsOf hk]

theorem complete_binary {v : BinaryExpr} (hv : v.node ∈ root.descendants) :
    v.lhs.isSome ∧ v.operator.isSome ∧ v.rhs.isSome ∧
      (v.hasToken (.keyword .elseKw) → v.elseBranch.isSome) := by
  have hform : ExprForm.ofKind? v.node.kind = some .binary := eq_of_beq v.admitted
  have hwhole := h _ hv
  have hlength := v.length_exprs
  have htwo := hwhole.operands hform
  refine ⟨?_, isSome_operator h hv, ?_, fun helse => ?_⟩
  · cases hall : v.exprs with
    | nil =>
      rw [hall, List.length_nil] at hlength
      omega
    | cons e es =>
      have hfirst : v.lhs = v.exprs.head? := v.first_eq_head? .expr
      rw [hfirst, hall]
      rfl
  · rw [BinaryExpr.rhs, List.getElem?_eq_getElem (by omega)]
    rfl
  · have hthree := hwhole.otherwise hform (any_word_of_hasToken helse)
    rw [BinaryExpr.elseBranch, if_pos helse, List.getElem?_eq_getElem (by omega)]
    rfl

theorem complete_unary {v : UnaryExpr} (hv : v.node ∈ root.descendants) :
    v.operator.isSome ∧ v.operand.isSome := by
  have hform : ExprForm.ofKind? v.node.kind = some .unary := eq_of_beq v.admitted
  have hparts := (h _ hv).parts
  rw [constituents_of_unary hform] at hparts
  exact ⟨isSome_find? (hparts _ (.head _)) fun k hk => by simp [isTrivia_of_mem_operatorsOf hk],
    isSome_first (hparts _ (.tail _ (.head _)))⟩

end Operators

end View

theorem View.constituents_of_letIn {kind : NodeKind} (h : ExprForm.ofKind? kind = some .letIn) :
    kind.constituents = [child (.only .letDecl), child .expr] := by
  cases kind
  all_goals first
    | cases h
      done
    | rfl

theorem View.complete_letExpr {v : LetExpr} (h : Tree.Whole v.node.kind v.node.children) :
    v.bindings ≠ [] ∧ v.body.isSome := by
  have hparts := h.parts
  rw [View.constituents_of_letIn (eq_of_beq v.admitted)] at hparts
  exact ⟨View.all_ne_nil (hparts _ (.head _)), View.isSome_first (hparts _ (.tail _ (.head _)))⟩

/-- In a tree of whole nodes, every view finds what it looks for. -/
theorem Located.complete_of_whole {root : Located}
    (h : ∀ n ∈ root.descendants, Tree.Whole n.kind n.children) {n : Located}
    (hn : n ∈ root.descendants) : n.Complete := by
  have hfirst : ∀ {kind : NodeKind} {d : Category} {v : View (.only kind)}, v.node = n →
      child d ∈ kind.constituents → (v.first d).isSome = true :=
    fun hv hp => View.isSome_first (View.part_only h (hv ▸ hn) hp)
  have hall : ∀ {kind : NodeKind} {d : Category} {v : View (.only kind)}, v.node = n →
      child d ∈ kind.constituents → v.all d ≠ [] :=
    fun hv hp => View.all_ne_nil (View.part_only h (hv ▸ hn) hp)
  have hnames : ∀ {kind : NodeKind} {v : View (.only kind)}, v.node = n →
      child (.only .nameList) ∈ kind.constituents → View.names v ≠ [] :=
    fun hv hp => View.names_ne_nil h (hv ▸ hn) (View.part_only h (hv ▸ hn) hp)
  have hmeaning : ∀ {α : Type} {meaning : TokenKind → Option α} {kind : NodeKind}
      {v : View (.only kind)} (ks : List TokenKind), v.node = n →
      word ks ∈ kind.constituents → (∀ k ∈ ks, (meaning k).isSome = true) →
      (v.firstMeaning meaning).isSome = true :=
    fun _ hv hp hks => View.isSome_firstMeaning (View.part_only h (hv ▸ hn) hp) hks
  exact {
    name v hv := View.isSome_text h (hv ▸ hn)
    nameList v hv := hall hv (by decide)
    qualName v hv := View.segments_ne_nil h (hv ▸ hn)
    binary v hv := View.complete_binary h (hv ▸ hn)
    unary v hv := View.complete_unary h (hv ▸ hn)
    quant v hv := ⟨hmeaning Operator.quantifiers hv (by decide) (by decide),
      hall hv (by decide), hfirst hv (by decide)⟩
    quantDecl v hv := ⟨hnames hv (by decide), hfirst hv (by decide)⟩
    letExpr v hv := View.complete_letExpr (hv ▸ h n hn)
    letDecl v hv := ⟨hfirst hv (by decide), hfirst hv (by decide)⟩
    comprehension v hv := hall hv (by decide)
    boxJoin v hv := hfirst hv (by decide)
    prime v hv := hfirst hv (by decide)
    paren v hv := hfirst hv (by decide)
    nameRef v hv := hfirst hv (by decide)
    atName v hv := hfirst hv (by decide)
    moduleDecl v hv := hfirst hv (by decide)
    sig v hv := ⟨hnames hv (by decide), hfirst hv (by decide)⟩
    sigExt v hv := ⟨hmeaning [.keyword .extendsKw, .keyword .inKw] hv (by decide) (by decide),
      hall hv (by decide)⟩
    field v hv := ⟨hnames hv (by decide), hfirst hv (by decide)⟩
    pred v hv := ⟨hfirst hv (by decide), hfirst hv (by decide)⟩
    func v hv := ⟨hfirst hv (by decide), hfirst hv (by decide)⟩
    para v hv := ⟨hnames hv (by decide), hfirst hv (by decide)⟩
    fact v hv := hfirst hv (by decide)
    command v hv :=
      hmeaning [.keyword .runKw, .keyword .checkKw] hv (by decide) (by decide)
    typescope v hv := hfirst hv (by decide)
    test v hv := hmeaning (Form.tagKinds .satisfiability) hv (by decide) (by decide)
    testSuite v hv := hfirst hv (by decide)
    exampleTest v hv :=
      ⟨hfirst hv (by decide), hfirst hv (by decide), hfirst hv (by decide)⟩
    property v hv := ⟨hmeaning (Form.tagKinds .property) hv (by decide) (by decide),
      hfirst hv (by decide), hfirst hv (by decide)⟩
    quantifiedProperty v hv :=
      ⟨hmeaning (Form.tagKinds .quantifiedProperty) hv (by decide) (by decide),
        hfirst hv (by decide), hall hv (by decide), hfirst hv (by decide)⟩
    satisfiability v hv := ⟨hfirst hv (by decide),
      hmeaning (Form.tagKinds .satisfiability) hv (by decide) (by decide)⟩
    consistency v hv := ⟨hfirst hv (by decide), hfirst hv (by decide)⟩
    inst v hv := ⟨hfirst hv (by decide), hfirst hv (by decide)⟩
    bound v hv := hfirst hv (by decide)
    boundLhs v hv := hall hv (by decide)
    union v hv := hall hv (by decide)
    product v hv := hall hv (by decide)
    option v hv := hfirst hv (by decide)
    eval v hv := hfirst hv (by decide) }

end RelLang
