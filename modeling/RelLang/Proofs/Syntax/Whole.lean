import RelLang.Proofs.Syntax.Begins
import RelLang.Proofs.Tree.Bare
import RelLang.Proofs.Tree.Everywhere
import RelLang.Proofs.View.Binary

/-!
# Nodes with all their parts

A node is whole if it has the parts that no node of its kind goes without. Where a form
has a node around another form, that form derives such parts, so the nodes of all
trees that are derived are whole.
-/

namespace RelLang

/-- A part of a node: a node of a category, or a token of one of some kinds. -/
inductive Constituent where
  | child (c : Category)
  | word (kinds : List TokenKind)
  deriving DecidableEq

namespace Constituent

/-- The tree is such a part. -/
def isAt : Constituent → Tree → Bool
  | .child c, t => t.isOf c
  | .word kinds, .token k _ => kinds.contains k
  | .word _, .node .. => false

@[simp] theorem isAt_bare (p : Constituent) (t : Tree) : p.isAt t.bare = p.isAt t := by
  cases p <;> cases t <;> rfl

end Constituent

/-- The word that begins another branch. -/
def Constituent.elseWord : Constituent := .word [.keyword .elseKw]

/-- The operators whose nodes are of the kind. -/
def Operator.operatorsOf (kind : NodeKind) : List TokenKind :=
  (table.filter (·.node == kind)).flatMap (·.operators)

/-- The parts that no node of the kind goes without. -/
def NodeKind.constituents : NodeKind → List Constituent
  | .name => [.word [.ident]]
  | .nameList => [.child (.only .name)]
  | .qualName => [.word Form.segmentKinds]
  | .qualNameList => [.child (.only .qualName)]
  | .moduleDecl => [.child (.only .qualName)]
  | .sigDecl => [.child (.only .nameList), .child (.only .fieldList)]
  | .sigExt => [.word [.keyword .extendsKw, .keyword .inKw], .child (.only .qualName)]
  | .fieldDecl | .paraDecl | .quantDecl => [.child (.only .nameList), .child .expr]
  | .predDecl | .funDecl => [.child (.only .name), .child (.only .block)]
  | .receiver => [.child (.only .qualName)]
  | .factDecl => [.child (.only .block)]
  | .cmdDecl => [.word [.keyword .runKw, .keyword .checkKw]]
  | .typescope => [.child (.only .qualName)]
  | .testDecl => [.word (Form.tagKinds .satisfiability)]
  | .testExpectDecl => [.child (.only .testBlock)]
  | .testSuiteDecl => [.child (.only .name), .child (.only .testBlock)]
  | .exampleDecl => [.child (.only .name), .child .expr, .child (.only .bounds)]
  | .propertyDecl => [.child .expr, .word (Form.tagKinds .property), .child (.only .name)]
  | .quantifiedPropertyDecl =>
    [.child (.only .quantDecl), .child .expr, .word (Form.tagKinds .quantifiedProperty),
     .child (.only .name)]
  | .satisfiabilityDecl => [.child .expr, .word (Form.tagKinds .satisfiability)]
  | .consistencyDecl => [.child .expr, .child (.only .name)]
  | .instDecl => [.child (.only .name), .child (.only .bounds)]
  | .bound => [.child (.only .boundLhs)]
  | .boundLhs => [.child (.only .qualName)]
  | .bindRhsUnion => [.child (.only .bindRhsProduct)]
  | .bindRhsProduct => [.child (.only .bindRhsAtom)]
  | .optionDecl => [.child (.only .qualName)]
  | .evalDecl => [.child .expr]
  | .quantExpr => [.word Operator.quantifiers, .child (.only .quantDecl), .child .expr]
  | .letExpr | .bindExpr => [.child (.only .letDecl), .child .expr]
  | .letDecl => [.child (.only .name), .child .expr]
  | .comprehensionExpr => [.child (.only .quantDecl)]
  | .boxJoinExpr | .primeExpr | .parenExpr => [.child .expr]
  | .nameRef => [.child (.only .qualName)]
  | .atNameExpr => [.child (.only .name)]
  | .compareOp => [.word Operator.comparisons]
  | .arrowOp => [.word [.punct .arrow]]
  | .compareExpr => [.child (.only .compareOp)]
  | .arrowExpr => [.child (.only .arrowOp)]
  | kind =>
    match ExprForm.ofKind? kind with
    | some .unary => [.word (Operator.operatorsOf kind), .child .expr]
    | some .binary => [.word (Operator.operatorsOf kind)]
    | _ => []

namespace Tree

/-- The number of expressions among some trees. -/
def exprCount (ts : List Tree) : Nat := ts.countP (isOf .expr)

/-- A node of the kind with these children has what no node of its kind goes without; an operator
between operands has both of them, and one more behind an `else`. -/
structure Whole (kind : NodeKind) (ts : List Tree) : Prop where
  parts : ∀ p ∈ kind.constituents, ts.any p.isAt = true
  operands : ExprForm.ofKind? kind = some .binary → 2 ≤ exprCount ts
  otherwise : ExprForm.ofKind? kind = some .binary →
    ts.any Constituent.elseWord.isAt = true → 3 ≤ exprCount ts

end Tree

namespace Form

open Constituent (elseWord)
open Tree (kinds)

/-! ### What all trees have that a form derives -/

/-- All that the form derives has a tree that passes. -/
def Has (test : Tree → Bool) (f : Form) : Prop :=
  ∀ n ts behind, Derives n f ts behind → ts.any test = true

section Has

variable {test : Tree → Bool} {f g : Form}

theorem Has.append (h : Has test f) (g : Form) : Has test (f ++ g) := by
  intro n ts behind hts
  obtain ⟨us, vs, rfl, hf, -⟩ := derives_append.mp hts
  rw [List.any_append, h _ _ _ hf, Bool.true_or]

theorem Has.appendRight (h : Has test g) (f : Form) : Has test (f ++ g) := by
  intro n ts behind hts
  obtain ⟨us, vs, rfl, -, hg⟩ := derives_append.mp hts
  rw [List.any_append, h _ _ _ hg, Bool.or_true]

theorem has_row {forms : List Form} (hmem : f ∈ forms) (h : Has test f) : Has test (row forms) := by
  induction forms with
  | nil => cases hmem
  | cons g forms ih =>
    cases forms with
    | nil =>
      obtain rfl := List.mem_singleton.mp hmem
      exact h
    | cons g' forms =>
      obtain rfl | hmem := List.mem_cons.mp hmem
      · exact h.append _
      · exact (ih hmem).appendRight _

theorem has_token {ks : List TokenKind} (h : ∀ k ∈ ks, ∀ text, test (.token k text) = true) :
    Has test (.token ks) := by
  intro n ts behind hts
  obtain ⟨k, text, hk, rfl⟩ := derives_token.mp hts
  simpa using h k hk text

theorem has_word {ks ms : List TokenKind} (h : ks ⊆ ms) :
    Has (Constituent.word ms).isAt (.token ks) :=
  has_token fun _ hk _ => List.contains_iff_mem.mpr (h hk)

theorem has_node {kind : NodeKind} (h : ∀ ts, test (.node kind ts) = true) :
    Has test (.node kind f) := by
  intro n ts behind hts
  obtain ⟨us, rfl, -⟩ := derives_node.mp hts
  simpa using h us

theorem has_child {kind : NodeKind} {c : Category} (h : c.admits kind = true) :
    Has (Constituent.child c).isAt (.node kind f) :=
  has_node fun _ => h

theorem has_never : Has test never := fun _ _ _ h => absurd h not_derives_never

theorem Has.either (h₁ : Has test f) (h₂ : Has test g) : Has test (.either f g) := by
  intro n ts behind hts
  obtain hts | hts := derives_either.mp hts
  · exact h₁ _ _ _ hts
  · exact h₂ _ _ _ hts

theorem Has.given {ahead : List TokenKind → Bool} (h₁ : Has test f) (h₂ : Has test g) :
    Has test (given ahead f g) := by
  intro n ts behind hts
  rw [derives_given] at hts
  split at hts
  · exact h₁ _ _ _ hts
  · exact h₂ _ _ _ hts

end Has

/-! ### Expressions are one node -/

/-- All that the form derives is one expression. -/
def IsExpr (f : Form) : Prop :=
  ∀ n ts behind, Derives n f ts behind →
    ∃ kind us, ts = [.node kind us] ∧ (ExprForm.ofKind? kind).isSome = true

section IsExpr

variable {f g : Form}

theorem isExpr_node {kind : NodeKind} (h : (ExprForm.ofKind? kind).isSome = true) :
    IsExpr (.node kind f) := by
  intro n ts behind hts
  obtain ⟨us, rfl, -⟩ := derives_node.mp hts
  exact ⟨kind, us, rfl, h⟩

theorem isExpr_never : IsExpr never := fun _ _ _ h => absurd h not_derives_never

theorem IsExpr.given {ahead : List TokenKind → Bool} (h₁ : IsExpr f) (h₂ : IsExpr g) :
    IsExpr (given ahead f g) := by
  intro n ts behind hts
  rw [derives_given] at hts
  split at hts
  · exact h₁ _ _ _ hts
  · exact h₂ _ _ _ hts

theorem isExpr_of_extensionOf {ks : List TokenKind} {k : TokenKind} {e : Operator.Extension}
    (h : Operator.extensionOf ks = some (k, e)) : (ExprForm.ofKind? e.node).isSome = true := by
  obtain ⟨first, hfirst, hmap⟩ := Option.bind_eq_some_iff.mp h
  obtain ⟨e', he, heq⟩ := Option.map_eq_some_iff.mp hmap
  obtain ⟨-, rfl⟩ := Prod.mk.inj heq
  obtain ⟨k', row, hrow, rfl, -⟩ := Operator.ofRow_of_extension? he
  exact (Operator.form_of_row row (Operator.mem_table_of_infixRow? hrow)).2.2

theorem IsExpr.extended (h : IsExpr f) (level : Nat) : IsExpr (.extended level f) := by
  intro n ts behind hts
  cases hts with
  | head hhead => exact h _ _ _ hhead
  | extend _ asked _ _ => exact ⟨_, _, rfl, isExpr_of_extensionOf asked⟩

theorem IsExpr.extendedAt (h : IsExpr f) (level : Nat) : IsExpr (extendedAt level f) := by
  intro n ts behind hts
  exact h.extended level _ _ _ (derives_append_look.mp hts).1

theorem isExpr_binder (k : TokenKind) : IsExpr (binder k) := by
  unfold binder
  split
  all_goals exact isExpr_node rfl

theorem isExpr_ofAtom {k : TokenKind} {second : Option TokenKind} {form : Grammar.AtomForm}
    (h : Grammar.AtomForm.ofTokens? (some k) second = some form) : IsExpr (ofAtom k form) := by
  cases form with
  | oneToken kind =>
    refine isExpr_node ?_
    unfold Grammar.AtomForm.ofTokens? at h
    split at h
    all_goals
      try (split at h)
      all_goals first
        | cases h
          done
        | cases h
          rfl
  | braced => exact (isExpr_node rfl).given (isExpr_node rfl)
  | _ => exact isExpr_node rfl

theorem isExpr_operandHead : IsExpr operandHead := by
  intro n ts behind hts
  have hahead := derives_ahead.mp hts
  split at hahead
  · exact isExpr_never _ _ _ hahead
  split at hahead
  · exact isExpr_binder _ _ _ _ hahead
  split at hahead
  · next row hrow =>
    exact isExpr_node (Operator.form_of_row row (Operator.mem_table_of_frontRow? hrow)).2.2
      _ _ _ hahead
  split at hahead
  · next form hform => exact isExpr_ofAtom hform _ _ _ hahead
  · exact isExpr_never _ _ _ hahead

theorem isExpr_exprAt (level : Nat) : IsExpr (exprAt level) := by
  intro n ts behind hts
  obtain ⟨m, -, hts⟩ := derives_part.mp hts
  exact isExpr_operandHead.extendedAt level _ _ _ hts

theorem IsExpr.has (h : IsExpr f) : Has (Constituent.child .expr).isAt f := by
  intro n ts behind hts
  obtain ⟨kind, us, rfl, hkind⟩ := h _ _ _ hts
  simpa [Constituent.isAt, Tree.isOf, Category.admits] using hkind

theorem IsExpr.count (h : IsExpr f) {n : Nat} {ts : List Tree} {behind : List TokenKind}
    (hts : Derives n f ts behind) : Tree.exprCount ts = 1 := by
  obtain ⟨kind, us, rfl, hkind⟩ := h _ _ _ hts
  simp [Tree.exprCount, Tree.isOf, Category.admits, hkind]

end IsExpr

/-! ### Whole forms -/

/-- The nodes that the form has around other forms are whole, whatever those derive. -/
def Whole : Form → Prop
  | .nothing | .token _ | .part _ => True
  | .seq f g | .either f g => Whole f ∧ Whole g
  | .many f => Whole f
  | .node kind f => Whole f ∧ ∀ n ts behind, Derives n f ts behind → Tree.Whole kind ts
  | .ahead choice => ∀ ks, Whole (choice ks)
  | .extended level f => Whole f ∧ ∀ ks k e n ts us between behind,
    Operator.extensionOf ks = some (k, e) → Derives n (.extended level f) ts between →
      Derives n (tail k e) us behind → Tree.Whole e.node (ts ++ us)

section Whole

variable {f g : Form}

theorem Whole.given {test : List TokenKind → Bool} (h₁ : Whole f) (h₂ : Whole g) :
    Whole (given test f g) := by
  intro ks
  dsimp only
  split
  · exact h₁
  · exact h₂

theorem whole_look {test : List TokenKind → Bool} : Whole (look test) :=
  Whole.given trivial trivial

theorem Whole.ifAhead {test : List TokenKind → Bool} (h : Whole f) : Whole (ifAhead test f) :=
  h.given trivial

theorem whole_optional {kind : TokenKind} : Whole (optional kind) := Whole.ifAhead trivial

theorem Whole.whileAhead {test : List TokenKind → Bool} (h : Whole f) : Whole (whileAhead test f) :=
  ⟨⟨whole_look, h⟩, whole_look⟩

theorem Whole.separated {mark : Punct} (h : Whole f) : Whole (separated mark f) :=
  Whole.whileAhead ⟨trivial, h⟩

theorem Whole.yields {α : Type} [DecidableEq α] {a b : α} (h : Whole f) : Whole (yields a f b) := by
  unfold Form.yields
  split
  · exact h
  · trivial

theorem whole_anyOf {forms : List Form} (h : ∀ f ∈ forms, Whole f) : Whole (anyOf forms) := by
  induction forms with
  | nil => trivial
  | cons f forms ih =>
    obtain ⟨hf, hforms⟩ := List.forall_mem_cons.mp h
    exact ⟨hf, ih hforms⟩

/-- The form has all of some parts. -/
def HasAll (ps : List Constituent) (f : Form) : Prop := ∀ p ∈ ps, Has p.isAt f

theorem hasAll_nil : HasAll [] f := nofun

theorem HasAll.cons {p : Constituent} {ps : List Constituent} (h : Has p.isAt f)
    (hrest : HasAll ps f) : HasAll (p :: ps) f :=
  List.forall_mem_cons.mpr ⟨h, hrest⟩

/-- A node that is not made by an operator between operands is whole if it has its parts. -/
theorem whole_node {kind : NodeKind} (hkind : ExprForm.ofKind? kind ≠ some .binary)
    (hf : Whole f) (hparts : HasAll kind.constituents f) : Whole (.node kind f) :=
  ⟨hf, fun n ts behind hts =>
    ⟨fun p hp => hparts p hp n ts behind hts, fun h => absurd h hkind, fun h => absurd h hkind⟩⟩

/-! ### Names -/

theorem whole_name : Whole name :=
  whole_node nofun trivial (.cons (has_word (List.Subset.refl _)) hasAll_nil)

theorem whole_nameList : Whole nameList :=
  whole_node nofun ⟨whole_name, .whileAhead ⟨trivial, whole_name⟩⟩
    (.cons ((has_child rfl).append _) hasAll_nil)

theorem whole_qualName : Whole qualName :=
  whole_node nofun ⟨.ifAhead ⟨trivial, trivial⟩, trivial, .whileAhead ⟨trivial, trivial⟩⟩
    (.cons (has_row (.tail _ (.head _)) (has_word (List.Subset.refl _))) hasAll_nil)

theorem whole_qualNameList : Whole qualNameList :=
  whole_node nofun ⟨whole_qualName, .separated whole_qualName⟩
    (.cons ((has_child rfl).append _) hasAll_nil)

theorem whole_optionalMult {allowed : List TokenKind} : Whole (optionalMult allowed) :=
  .ifAhead (whole_node nofun trivial hasAll_nil)

/-! ### Bounds -/

theorem has_expr : Has (Constituent.child .expr).isAt expr := (isExpr_exprAt 0).has

theorem whole_arguments : Whole arguments :=
  whole_node nofun ⟨trivial, trivial, .separated trivial⟩ hasAll_nil

theorem whole_boundValue : Whole boundValue := by
  refine whole_node nofun (fun ks => ?_) hasAll_nil
  dsimp only
  split
  · next form _ =>
    cases form with
    | oneToken => trivial
    | negativeNumber => exact ⟨trivial, trivial⟩
    | group => trivial
    | name => exact whole_qualName
  · trivial

theorem whole_boundProduct : Whole boundProduct :=
  whole_node nofun ⟨whole_boundValue, .whileAhead ⟨trivial, whole_boundValue⟩⟩
    (.cons ((has_child rfl).append _) hasAll_nil)

theorem whole_boundUnion : Whole boundUnion :=
  whole_node nofun ⟨whole_boundProduct, .separated whole_boundProduct⟩
    (.cons ((has_child rfl).append _) hasAll_nil)

theorem whole_boundGroup : Whole boundGroup := ⟨trivial, whole_boundUnion, trivial⟩

theorem whole_boundPath (simple whole : Bool) : Whole (boundPath simple whole) := by
  have hjoined : Whole (token [.punct .dot] ++ qualName) := ⟨trivial, whole_qualName⟩
  cases simple <;> cases whole
  · exact .whileAhead hjoined
  · trivial
  · exact ⟨whole_look, hjoined, .whileAhead hjoined⟩
  · exact whole_look

theorem whole_boundLhs (simple : Bool) : Whole (boundLhs simple) :=
  whole_node nofun (.given ⟨trivial, whole_qualName, whole_boundPath _ _⟩
    ⟨whole_qualName, whole_boundPath _ _⟩)
    (.cons (.given (has_row (.tail _ (.head _)) (has_child rfl)) ((has_child rfl).append _))
      hasAll_nil)

theorem whole_boundRhs : Whole boundRhs :=
  ⟨whole_node nofun trivial (.cons (has_word (by decide)) hasAll_nil), whole_boundUnion⟩

theorem whole_bound : Whole bound :=
  whole_node nofun (.given ⟨trivial, whole_boundLhs _, whole_boundLhs _⟩
    ⟨⟨whole_boundLhs _, .ifAhead whole_boundRhs⟩, whole_boundLhs _, whole_boundRhs⟩)
    (.cons (.given (((has_child rfl).either (has_child rfl)).appendRight _)
      (((has_child rfl).append _).either ((has_child rfl).append _))) hasAll_nil)

theorem whole_bounds : Whole bounds :=
  whole_node nofun ⟨whole_optional, .given ⟨trivial, whole_bound, trivial⟩ whole_qualName⟩ hasAll_nil

/-! ### Blocks and binders -/

theorem whole_block : Whole block :=
  whole_node nofun ⟨trivial, trivial, trivial⟩ hasAll_nil

theorem whole_declaration {kind : NodeKind}
    (hkind : kind.constituents = [.child (.only .nameList), .child .expr])
    (hform : ExprForm.ofKind? kind ≠ some .binary) : Whole (declaration kind) := by
  refine whole_node hform
    ⟨whole_optional, whole_nameList, trivial, whole_optionalMult, trivial⟩ ?_
  rw [hkind]
  exact .cons (has_row (.tail _ (.head _)) (has_child rfl)) <|
    .cons (has_row (.tail _ (.tail _ (.tail _ (.tail _ (.head _))))) has_expr) hasAll_nil

theorem whole_quantDecl : Whole quantDecl := whole_declaration rfl nofun

theorem whole_quantDecls : Whole quantDecls :=
  ⟨whole_quantDecl, .whileAhead ⟨trivial, whole_quantDecl⟩⟩

theorem has_quantDecls : Has (Constituent.child (.only .quantDecl)).isAt quantDecls :=
  (has_child rfl).append _

theorem whole_binderBody : Whole binderBody := .given ⟨trivial, trivial⟩ whole_block

theorem has_binderBody : Has (Constituent.child .expr).isAt binderBody :=
  .given (has_expr.appendRight _) (has_child rfl)

theorem whole_quantified {k : TokenKind} (hk : k ∈ Operator.quantifiers) : Whole (quantified k) :=
  whole_node nofun ⟨trivial, .given whole_quantDecls trivial, whole_binderBody⟩ <|
    .cons (has_row (.head _) (has_word fun _ h => List.mem_singleton.mp h ▸ hk)) <|
    .cons (has_row (.tail _ (.head _)) (has_quantDecls.given has_never)) <|
    .cons (has_row (.tail _ (.tail _ (.head _))) has_binderBody) hasAll_nil

theorem whole_letDecl : Whole letDecl :=
  whole_node nofun ⟨whole_name, trivial, trivial⟩ <|
    .cons (has_row (.head _) (has_child rfl)) <|
    .cons (has_row (.tail _ (.tail _ (.head _))) has_expr) hasAll_nil

theorem whole_bindings (kind : NodeKind)
    (hkind : kind.constituents = [.child (.only .letDecl), .child .expr])
    (hform : ExprForm.ofKind? kind ≠ some .binary) (k : TokenKind) : Whole (bindings kind k) := by
  refine whole_node hform ⟨trivial, whole_letDecl, .whileAhead ⟨trivial, whole_letDecl⟩,
    whole_binderBody⟩ ?_
  rw [hkind]
  exact .cons (has_row (.tail _ (.head _)) (has_child rfl)) <|
    .cons (has_row (.tail _ (.tail _ (.tail _ (.head _)))) has_binderBody) hasAll_nil

theorem whole_binder {ks : List TokenKind} {k : TokenKind} (hk : ks[0]? = some k)
    (h : binderAhead ks = true) : Whole (binder k) := by
  unfold binder
  split
  · exact whole_bindings .letExpr rfl nofun _
  · exact whole_bindings .bindExpr rfl nofun _
  · next hlet hbind =>
    refine whole_quantified ?_
    rw [binderAhead, quantifierAhead, atAny, hk, Option.any_some, Option.any_some,
      Bool.or_eq_true, Bool.and_eq_true] at h
    obtain h | h := h
    · unfold Grammar.isBinderOnly at h
      split at h
      · decide
      · decide
      · exact absurd rfl hlet
      · exact absurd rfl hbind
      · cases h
    · exact List.contains_iff_mem.mp h.1

/-! ### Atoms -/

theorem whole_parenthesized : Whole parenthesized :=
  whole_node nofun ⟨trivial, trivial, trivial⟩
    (.cons (has_row (.tail _ (.head _)) has_expr) hasAll_nil)

theorem whole_comprehension : Whole comprehension :=
  whole_node nofun ⟨trivial, whole_quantDecls, .given ⟨trivial, trivial⟩ (.ifAhead whole_block),
    trivial⟩ (.cons (has_row (.tail _ (.head _)) has_quantDecls) hasAll_nil)

theorem whole_ofAtom {k : TokenKind} {second : Option TokenKind} {form : Grammar.AtomForm}
    (h : Grammar.AtomForm.ofTokens? (some k) second = some form) : Whole (ofAtom k form) := by
  cases form with
  | oneToken kind =>
    have hkind : kind.constituents = [] ∧ ExprForm.ofKind? kind ≠ some .binary := by
      unfold Grammar.AtomForm.ofTokens? at h
      split at h
      all_goals
        try (split at h)
        all_goals first
          | cases h
            done
          | cases h
            exact ⟨rfl, by decide⟩
    exact whole_node hkind.2 trivial (by rw [hkind.1]; exact hasAll_nil)
  | negativeNumber => exact whole_node (by decide) ⟨trivial, trivial⟩ hasAll_nil
  | nameRef => exact whole_node (by decide) whole_qualName (.cons (has_child rfl) hasAll_nil)
  | atName =>
    exact whole_node (by decide) ⟨trivial, whole_name⟩
      (.cons ((has_child rfl).appendRight _) hasAll_nil)
  | parenthesized => exact whole_parenthesized
  | braced => exact whole_comprehension.given whole_block

/-! ### Operators -/

theorem constituents_of_frontRow : ∀ row ∈ Operator.table, row.fixity.isFront = true →
    row.node.constituents = [.word (Operator.operatorsOf row.node), .child .expr] := by
  decide

theorem mem_operatorsOf {row : OperatorRow} {k : TokenKind} (hrow : row ∈ Operator.table)
    (hk : k ∈ row.operators) : k ∈ Operator.operatorsOf row.node :=
  List.mem_flatMap.mpr ⟨row, List.mem_filter.mpr ⟨hrow, beq_self_eq_true _⟩, hk⟩

/-- An operator in front of its operand. -/
theorem whole_front {k : TokenKind} {row : OperatorRow} (h : Operator.frontRow? k = some row) :
    Whole (node row.node (token [k] ++ exprAt row.operandLevel)) := by
  have hrow := Operator.mem_table_of_frontRow? h
  have hfront := Operator.isFront_of_frontRow? h
  have hform := (Operator.form_of_row row hrow).2.1.mp hfront
  refine whole_node (by rw [hform]; nofun) ⟨trivial, trivial⟩ ?_
  rw [constituents_of_frontRow row hrow hfront]
  have hk := mem_operatorsOf hrow (Operator.mem_of_frontRow? h)
  exact .cons ((has_word fun _ h => List.mem_singleton.mp h ▸ hk).append _) <|
    .cons ((isExpr_exprAt _).has.appendRight _) hasAll_nil

theorem whole_operandHead : Whole operandHead := by
  intro ks
  dsimp only
  split
  · trivial
  · next k hk =>
    split
    · next hbinder => exact whole_binder hk hbinder
    split
    · next row hrow => exact whole_front hrow
    split
    · next form hform => exact whole_ofAtom hform
    · trivial

/-- How a row of the table is found behind an operand that is extended. -/
theorem row_of_extensionOf {ks : List TokenKind} {k : TokenKind} {e : Operator.Extension}
    (h : Operator.extensionOf ks = some (k, e)) :
    ∃ row ∈ Operator.table, row.fixity.isFront = false ∧ e = .ofRow row ∧
      (k ∈ row.operators ∨ Operator.isNegation k = true ∧ row.node = .compareExpr ∨
        Operator.arrowMultiplicities.contains k = true ∧ row.node = .arrowExpr) := by
  obtain ⟨first, hfirst, hmap⟩ := Option.bind_eq_some_iff.mp h
  obtain ⟨e', he, heq⟩ := Option.map_eq_some_iff.mp hmap
  obtain ⟨rfl, rfl⟩ := Prod.mk.inj heq
  obtain ⟨k', row, hrow, rfl, hk⟩ := Operator.ofRow_of_extension? he
  obtain ⟨hfront, hmem⟩ := Operator.mem_of_infixRow? hrow
  refine ⟨row, Operator.mem_table_of_infixRow? hrow, hfront, rfl, ?_⟩
  obtain rfl | ⟨hnegation, -, hnode⟩ | ⟨hmult, -, rfl⟩ := hk
  · exact .inl hmem
  · exact .inr (.inl ⟨hnegation, hnode⟩)
  · cases hrow
    exact .inr (.inr ⟨hmult, rfl⟩)

theorem whole_compareOperator {row : OperatorRow} {k : TokenKind} (hrow : row ∈ Operator.table)
    (hnode : row.node = .compareExpr) (hk : k ∈ row.operators ∨ Operator.isNegation k = true) :
    Whole (compareOperator k) := by
  unfold compareOperator
  split
  · exact whole_node nofun ⟨trivial, trivial⟩
      (.cons ((has_word (List.Subset.refl _)).appendRight _) hasAll_nil)
  · next hnegation =>
    have hmem := hk.resolve_right hnegation
    rw [Operator.operators_compare row hrow hnode] at hmem
    exact whole_node nofun trivial
      (.cons (has_word fun _ h => List.mem_singleton.mp h ▸ hmem) hasAll_nil)

theorem whole_arrowOperator {row : OperatorRow} {k : TokenKind} (hrow : row ∈ Operator.table)
    (hnode : row.node = .arrowExpr)
    (hk : k ∈ row.operators ∨ Operator.arrowMultiplicities.contains k = true) :
    Whole (arrowOperator k) := by
  unfold arrowOperator
  split
  · exact whole_node nofun ⟨⟨trivial, trivial⟩, .ifAhead trivial⟩
      (.cons (((has_word (List.Subset.refl _)).appendRight _).append _) hasAll_nil)
  · next hmult =>
    have hmem := hk.resolve_right hmult
    rw [Operator.operators_arrow row hrow hnode] at hmem
    exact whole_node nofun ⟨trivial, .ifAhead trivial⟩
      (.cons ((has_word fun _ h => List.mem_singleton.mp h ▸ hmem).append _) hasAll_nil)

theorem whole_tail {ks : List TokenKind} {k : TokenKind} {e : Operator.Extension}
    (h : Operator.extensionOf ks = some (k, e)) : Whole (tail k e) := by
  obtain ⟨row, hrow, -, rfl, hk⟩ := row_of_extensionOf h
  unfold tail
  split
  · refine ⟨?_, trivial, ?_⟩
    · unfold infixOperator
      split
      · next hnode =>
        refine whole_compareOperator hrow hnode (hk.imp_right fun hk => ?_)
        obtain ⟨hnegation, -⟩ | ⟨-, harrow⟩ := hk
        · exact hnegation
        · exact nomatch hnode.symm.trans harrow
      · next hnode =>
        refine whole_arrowOperator hrow hnode (hk.imp_right fun hk => ?_)
        obtain ⟨-, hcompare⟩ | ⟨hmult, -⟩ := hk
        · exact nomatch hnode.symm.trans hcompare
        · exact hmult
      · trivial
    · split
      · exact .ifAhead ⟨trivial, trivial⟩
      · trivial
  · split
    · exact ⟨trivial, whole_arguments, trivial⟩
    · trivial

/-! ### Operators between operands -/

theorem exprCount_append (ts us : List Tree) :
    Tree.exprCount (ts ++ us) = Tree.exprCount ts + Tree.exprCount us :=
  List.countP_append

theorem IsExpr.no_else (h : IsExpr f) {n : Nat} {ts : List Tree} {behind : List TokenKind}
    (hts : Derives n f ts behind) : ts.any elseWord.isAt = false := by
  obtain ⟨kind, us, rfl, -⟩ := h _ _ _ hts
  rfl

theorem else_not_mem_operators : ∀ row ∈ Operator.table,
    TokenKind.keyword .elseKw ∉ row.operators := by
  decide

/-- There is no `else` between the operands of an operator. -/
theorem infixOperator_no_else {row : OperatorRow} {k : TokenKind} (hrow : row ∈ Operator.table)
    (hk : k ∈ row.operators ∨ Operator.isNegation k = true ∧ row.node = .compareExpr ∨
      Operator.arrowMultiplicities.contains k = true ∧ row.node = .arrowExpr) {n : Nat}
    {ts : List Tree} {behind : List TokenKind}
    (hts : Derives n (infixOperator row.node k) ts behind) : ts.any elseWord.isAt = false := by
  unfold infixOperator at hts
  split at hts
  · obtain ⟨us, rfl, -⟩ := derives_node.mp hts
    rfl
  · obtain ⟨us, rfl, -⟩ := derives_node.mp hts
    rfl
  · next hcompare harrow =>
    obtain ⟨k', text, hk', rfl⟩ := derives_token.mp hts
    obtain rfl := List.mem_singleton.mp hk'
    obtain hk | ⟨-, h⟩ | ⟨-, h⟩ := hk
    · have hne : k' ≠ .keyword .elseKw := fun h => else_not_mem_operators row hrow (h ▸ hk)
      simpa [elseWord, Constituent.isAt] using hne
    · exact absurd h hcompare
    · exact absurd h harrow

theorem otherwise_count {n : Nat} {ts : List Tree} {behind : List TokenKind}
    (hts : Derives n otherwise ts behind) (helse : ts.any elseWord.isAt = true) :
    1 ≤ Tree.exprCount ts := by
  rw [otherwise, ifAhead, derives_given] at hts
  split at hts
  · obtain ⟨us, vs, rfl, -, hvs⟩ := derives_append.mp hts
    rw [exprCount_append, (isExpr_exprAt _).count hvs]
    exact Nat.le_add_left _ _
  · obtain rfl := derives_nothing.mp hts
    cases helse

theorem constituents_of_infixRow : ∀ row ∈ Operator.table, row.fixity.isBinary = true →
    row.node.constituents =
      if row.node = .compareExpr then [.child (.only .compareOp)]
      else if row.node = .arrowExpr then [.child (.only .arrowOp)]
      else [.word (Operator.operatorsOf row.node)] := by
  decide

/-- The operator of a node between operands is a part of the node. -/
theorem hasAll_infixOperator {row : OperatorRow} {k : TokenKind} (hrow : row ∈ Operator.table)
    (hbinary : row.fixity.isBinary = true)
    (hk : k ∈ row.operators ∨ Operator.isNegation k = true ∧ row.node = .compareExpr ∨
      Operator.arrowMultiplicities.contains k = true ∧ row.node = .arrowExpr) :
    HasAll row.node.constituents (infixOperator row.node k) := by
  rw [constituents_of_infixRow row hrow hbinary]
  by_cases hcompare : row.node = .compareExpr
  · rw [if_pos hcompare, hcompare]
    exact .cons (has_child rfl) hasAll_nil
  by_cases harrow : row.node = .arrowExpr
  · rw [if_neg hcompare, if_pos harrow, harrow]
    exact .cons (has_child rfl) hasAll_nil
  · rw [if_neg hcompare, if_neg harrow]
    unfold infixOperator
    split
    · exact absurd ‹_› hcompare
    · exact absurd ‹_› harrow
    have hmem : k ∈ row.operators := by
      obtain hk | ⟨-, h⟩ | ⟨-, h⟩ := hk
      · exact hk
      · exact absurd h hcompare
      · exact absurd h harrow
    exact .cons (has_word fun _ h => List.mem_singleton.mp h ▸ mem_operatorsOf hrow hmem) hasAll_nil

theorem constituents_of_behind : ∀ row ∈ Operator.table, row.fixity.isFront = false →
    row.fixity.isBinary = false →
      row.node.constituents = [.child .expr] ∧ ExprForm.ofKind? row.node ≠ some .binary := by
  decide

/-- What an operator makes of an expression is whole. -/
theorem whole_extension {ks : List TokenKind} {k : TokenKind} {e : Operator.Extension}
    (h : Operator.extensionOf ks = some (k, e)) (hf : IsExpr f) {n : Nat} {ts us : List Tree}
    {between behind : List TokenKind} (hts : Derives n f ts between)
    (hus : Derives n (tail k e) us behind) : Tree.Whole e.node (ts ++ us) := by
  obtain ⟨row, hrow, hfront, rfl, hk⟩ := row_of_extensionOf h
  have hcount := hf.count hts
  have helse := hf.no_else hts
  cases hbinary : row.fixity.isBinary with
  | false =>
    obtain ⟨hparts, hform⟩ := constituents_of_behind row hrow hfront hbinary
    refine ⟨fun p hp => ?_, fun h => absurd h hform, fun h => absurd h hform⟩
    have hnode : (Operator.Extension.ofRow row).node = row.node := rfl
    rw [hnode, hparts, List.mem_singleton] at hp
    rw [List.any_append, hp, hf.has _ _ _ hts, Bool.true_or]
  | true =>
    have hlevel : (Operator.Extension.ofRow row).operandLevel? = some row.operandLevel :=
      if_pos hbinary
    rw [tail, hlevel] at hus
    obtain ⟨us, vs, rfl, hoperator, hvs⟩ := derives_row_cons.mp hus
    obtain ⟨vs, ws, rfl, hoperand, hws⟩ := derives_row_cons.mp hvs
    have hoperand' := (isExpr_exprAt _).count hoperand
    refine ⟨fun p hp => ?_, fun _ => ?_, fun _ hword => ?_⟩
    · rw [List.any_append, List.any_append,
        hasAll_infixOperator hrow hbinary hk p hp _ _ _ hoperator, Bool.true_or, Bool.or_true]
    · simp only [exprCount_append, hcount, hoperand']
      omega
    · have hlast : ws.any elseWord.isAt = true := by
        have hbefore := infixOperator_no_else hrow hk hoperator
        have hright := (isExpr_exprAt _).no_else hoperand
        simpa only [List.any_append, helse, hbefore, hright, Bool.false_or] using hword
      have hbranch : 1 ≤ Tree.exprCount ws := by
        split at hws
        · exact otherwise_count hws hlast
        · obtain rfl := derives_nothing.mp hws
          cases hlast
      simp only [exprCount_append, hcount, hoperand']
      omega

theorem whole_extended (hf : Whole f) (hexpr : IsExpr f) (level : Nat) :
    Whole (.extended level f) :=
  ⟨hf, fun _ _ _ _ _ _ _ _ h hts hus => whole_extension h (hexpr.extended level) hts hus⟩

theorem whole_extendedAt (hf : Whole f) (hexpr : IsExpr f) (level : Nat) :
    Whole (extendedAt level f) :=
  ⟨whole_extended hf hexpr level, whole_look⟩

theorem whole_ofNonterminal (symbol : Grammar.Nonterminal) : Whole (ofNonterminal symbol) := by
  cases symbol with
  | expression level => exact whole_extendedAt whole_operandHead isExpr_operandHead level
  | boundGroup => exact whole_boundGroup

/-! ### Commands and assertions -/

theorem whole_typescope : Whole typescope :=
  whole_node nofun ⟨whole_optional, trivial, whole_qualName⟩
    (.cons (has_row (.tail _ (.tail _ (.head _))) (has_child rfl)) hasAll_nil)

theorem whole_typescopes : Whole typescopes :=
  ⟨whole_typescope, .whileAhead ⟨trivial, whole_typescope⟩⟩

theorem whole_scope : Whole scope :=
  whole_node nofun ⟨trivial, .given whole_typescopes
    ⟨trivial, .ifAhead ⟨trivial, whole_typescopes⟩⟩⟩ hasAll_nil

theorem whole_scopeAndBounds : Whole scopeAndBounds :=
  ⟨.ifAhead whole_scope, .ifAhead ⟨trivial, whole_bounds⟩⟩

theorem whole_optionalTarget : Whole optionalTarget :=
  .given whole_qualName (.ifAhead whole_block)

theorem whole_cmdDecl : Whole cmdDecl :=
  whole_node nofun ⟨.ifAhead ⟨whole_name, trivial⟩, trivial, whole_optionalTarget,
    whole_scopeAndBounds⟩
    (.cons (has_row (.tail _ (.head _)) (has_word (List.Subset.refl _))) hasAll_nil)

theorem whole_instDecl : Whole instDecl :=
  whole_node nofun ⟨trivial, whole_name, whole_bounds, .ifAhead whole_scope⟩ <|
    .cons (has_row (.tail _ (.head _)) (has_child rfl)) <|
    .cons (has_row (.tail _ (.tail _ (.head _))) (has_child rfl)) hasAll_nil

theorem whole_result {others : List TokenKind} : Whole (result others) :=
  .given ⟨trivial, whole_optional⟩ trivial

theorem has_result {others : List TokenKind} (h : others ⊆ tagKinds .satisfiability) :
    Has (Constituent.word (tagKinds .satisfiability)).isAt (result others) :=
  .given ((has_word (by decide)).append _) (has_word h)

theorem whole_universal : Whole universal := ⟨trivial, whole_quantDecls, whole_binderBody⟩

theorem whole_assertedBlock (body : Grammar.Asserted) : Whole (assertedBlock body) :=
  ⟨whole_extendedAt whole_block (isExpr_node rfl) 0, fun _ => .yields trivial⟩

theorem whole_assertedUniversal (body : Grammar.Asserted) : Whole (assertedUniversal body) := by
  have hquant : Whole (node .quantExpr universal) :=
    whole_node nofun whole_universal <|
      .cons (has_row (.head _) (has_word (by decide))) <|
      .cons (has_row (.tail _ (.head _)) has_quantDecls) <|
      .cons (has_row (.tail _ (.tail _ (.head _))) has_binderBody) hasAll_nil
  cases body with
  | plain => trivial
  | expression => exact ⟨hquant, whole_look⟩
  | quantified => exact ⟨whole_universal, whole_look⟩

theorem whole_assertionHead (body : Grammar.Asserted) : Whole (assertionHead body) :=
  ⟨trivial, .given (.yields ⟨whole_name, whole_block⟩) (.given (whole_assertedBlock body)
    (.given (whole_assertedUniversal body) (.yields trivial)))⟩

theorem whole_ofAssertion (form : Grammar.AssertionForm) : Whole (ofAssertion form) := by
  cases form with
  | property => exact ⟨trivial, trivial, whole_name, whole_scopeAndBounds⟩
  | quantifiedProperty =>
    exact ⟨trivial, trivial, whole_name, .ifAhead ⟨trivial, whole_arguments, trivial⟩,
      whole_scopeAndBounds⟩
  | satisfiability => exact ⟨whole_result, whole_scopeAndBounds⟩
  | consistency => exact ⟨trivial, trivial, whole_name, whole_scopeAndBounds⟩

/-- An expression is asserted, unless declarations and their body are. -/
theorem has_asserted : Has (Constituent.child .expr).isAt (asserted .expression) := by
  have hquant : Has (Constituent.child .expr).isAt (assertedUniversal .expression) :=
    (has_child rfl).append _
  have hblock : Has (Constituent.child .expr).isAt (assertedBlock .expression) :=
    (IsExpr.extendedAt (isExpr_node rfl) 0).has.append _
  exact .given has_never (hblock.given (hquant.given has_expr))

theorem has_asserted_quantified {p : Constituent} (h : Has p.isAt universal) :
    Has p.isAt (asserted .quantified) := by
  have hblock : Has p.isAt (assertedBlock .quantified) := by
    intro n ts behind hts
    obtain ⟨us, vs, rfl, -, hyields⟩ := derives_append.mp hts
    rw [derives_ahead, derives_yields] at hyields
    have hvalue := hyields.1
    split at hvalue <;> cases hvalue
  exact .given has_never (hblock.given (Has.given (h.append _) has_never))

theorem whole_tagged {body : Grammar.Asserted} {form : Grammar.AssertionForm}
    (hparts : HasAll form.node.constituents
      (assertionHead body ++ given (tagAhead (body == .quantified) form)
        (token [.keyword .isKw] ++ ofAssertion form) never)) : Whole (tagged body form) :=
  whole_node (by cases form <;> nofun) ⟨whole_assertionHead body,
    .given ⟨trivial, whole_ofAssertion form⟩ trivial⟩ hparts

/-- What stands behind the `is` of an assertion is a part of the assertion. -/
theorem has_tag {p : Constituent} {body : Grammar.Asserted} {form : Grammar.AssertionForm}
    (h : Has p.isAt (ofAssertion form)) : Has p.isAt (assertionHead body ++
      given (tagAhead (body == .quantified) form) (token [.keyword .isKw] ++ ofAssertion form)
        never) :=
  .appendRight (.given (h.appendRight _) has_never) _

theorem whole_assertion (admitted : Bool) : Whole (assertion admitted) := by
  cases admitted with
  | false => exact whole_node nofun (whole_assertionHead _) hasAll_nil
  | true =>
    refine whole_anyOf (List.forall_mem_cons.mpr ⟨?_, List.forall_mem_cons.mpr ⟨?_,
      List.forall_mem_cons.mpr ⟨?_, List.forall_mem_singleton.mpr ?_⟩⟩⟩)
    · exact whole_tagged <| .cons ((has_asserted.appendRight _).append _) <|
        .cons (has_tag (has_row (.head _) (has_word (List.Subset.refl _)))) <|
        .cons (has_tag (has_row (.tail _ (.tail _ (.head _))) (has_child rfl))) hasAll_nil
    · exact whole_tagged <|
        .cons (((has_asserted_quantified (has_row (.tail _ (.head _)) has_quantDecls)).appendRight
          _).append _) <|
        .cons (((has_asserted_quantified (has_row (.tail _ (.tail _ (.head _)))
          has_binderBody)).appendRight _).append _) <|
        .cons (has_tag (has_row (.head _) (has_word (List.Subset.refl _)))) <|
        .cons (has_tag (has_row (.tail _ (.tail _ (.head _))) (has_child rfl))) hasAll_nil
    · exact whole_tagged <| .cons ((has_asserted.appendRight _).append _) <|
        .cons (has_tag ((has_result (List.Subset.refl _)).append _)) hasAll_nil
    · exact whole_tagged <| .cons ((has_asserted.appendRight _).append _) <|
        .cons (has_tag (has_row (.tail _ (.tail _ (.head _))) (has_child rfl))) hasAll_nil

/-! ### Declarations -/

theorem whole_optionalReceiver : Whole optionalReceiver :=
  .ifAhead (whole_node nofun ⟨whole_qualName, trivial⟩
    (.cons ((has_child rfl).append _) hasAll_nil))

theorem whole_paraDecl : Whole paraDecl := whole_declaration rfl nofun

theorem whole_commaList (h : Whole f) : Whole (commaList f) := ⟨⟨h, trivial⟩, h, trivial⟩

theorem whole_optionalParaDecls : Whole optionalParaDecls :=
  .ifAhead (whole_node nofun (.given ⟨trivial, whole_commaList whole_paraDecl, trivial⟩
    ⟨trivial, whole_commaList whole_paraDecl, trivial⟩) hasAll_nil)

theorem whole_predDecl : Whole predDecl :=
  whole_node nofun ⟨trivial, .ifAhead (whole_node nofun trivial hasAll_nil), whole_optionalReceiver,
    whole_name, whole_optionalParaDecls, whole_block⟩ <|
    .cons (has_row (.tail _ (.tail _ (.tail _ (.head _)))) (has_child rfl)) <|
    .cons (has_row (.tail _ (.tail _ (.tail _ (.tail _ (.tail _ (.head _)))))) (has_child rfl))
      hasAll_nil

theorem whole_funDecl : Whole funDecl :=
  whole_node nofun ⟨trivial, whole_optionalReceiver, whole_name, whole_optionalParaDecls, trivial,
    whole_optionalMult, trivial, whole_block⟩ <|
    .cons (has_row (.tail _ (.tail _ (.head _))) (has_child rfl)) <|
    .cons (has_row (.tail _ (.tail _ (.tail _ (.tail _ (.tail _ (.tail _ (.tail _ (.head _))))))))
      (has_child rfl)) hasAll_nil

theorem whole_factDecl : Whole factDecl :=
  whole_node nofun ⟨trivial, .ifAhead whole_name, whole_block⟩
    (.cons (has_row (.tail _ (.tail _ (.head _))) (has_child rfl)) hasAll_nil)

theorem whole_sigModifier : Whole sigModifier := ⟨trivial, whole_node nofun trivial hasAll_nil⟩

theorem whole_sigExt : Whole sigExt :=
  whole_node nofun (.given ⟨trivial, whole_qualName, .separated whole_qualName⟩
    ⟨trivial, whole_qualName⟩) <|
    .cons (.given (has_row (.head _) (has_word (by decide)))
      ((has_word (by decide)).append _)) <|
    .cons (.given (has_row (.tail _ (.head _)) (has_child rfl)) ((has_child rfl).appendRight _))
      hasAll_nil

theorem whole_fieldDecl : Whole fieldDecl :=
  whole_node nofun ⟨whole_optional, whole_nameList, trivial, whole_optionalMult, trivial⟩ <|
    .cons (has_row (.tail _ (.head _)) (has_child rfl)) <|
    .cons (has_row (.tail _ (.tail _ (.tail _ (.tail _ (.head _))))) (isExpr_exprAt _).has)
      hasAll_nil

theorem whole_sigDecl : Whole sigDecl :=
  whole_node nofun ⟨whole_sigModifier, trivial, whole_nameList, .ifAhead whole_sigExt,
    whole_node nofun ⟨trivial, whole_commaList whole_fieldDecl, trivial⟩ hasAll_nil,
    .ifAhead whole_block⟩ <|
    .cons (has_row (.tail _ (.tail _ (.head _))) (has_child rfl)) <|
    .cons (has_row (.tail _ (.tail _ (.tail _ (.tail _ (.head _))))) (has_child rfl)) hasAll_nil

/-! ### Tests -/

theorem whole_testDecl : Whole testDecl :=
  whole_node nofun ⟨.ifAhead ⟨whole_name, trivial⟩, whole_optionalTarget, whole_scopeAndBounds,
    trivial, whole_result⟩
    (.cons (has_row (.tail _ (.tail _ (.tail _ (.tail _ (.head _))))) (has_result (by decide)))
      hasAll_nil)

theorem whole_testBlock (h : Whole f) : Whole (testBlock f) :=
  whole_node nofun ⟨trivial, h, trivial⟩ hasAll_nil

theorem whole_testExpectDecl : Whole testExpectDecl :=
  whole_node nofun ⟨whole_optional, trivial, .ifAhead whole_name,
    whole_testBlock (.given whole_testDecl trivial)⟩
    (.cons (has_row (.tail _ (.tail _ (.tail _ (.head _)))) (has_child rfl)) hasAll_nil)

theorem whole_exampleDecl : Whole exampleDecl :=
  whole_node nofun ⟨trivial, whole_name, trivial, trivial, trivial, whole_bounds⟩ <|
    .cons (has_row (.tail _ (.head _)) (has_child rfl)) <|
    .cons (has_row (.tail _ (.tail _ (.tail _ (.head _)))) has_expr) <|
    .cons (has_row (.tail _ (.tail _ (.tail _ (.tail _ (.tail _ (.head _)))))) (has_child rfl))
      hasAll_nil

theorem whole_suiteItem : Whole suiteItem :=
  whole_anyOf (List.forall_mem_cons.mpr ⟨whole_exampleDecl, List.forall_mem_cons.mpr
    ⟨whole_testExpectDecl, List.forall_mem_singleton.mpr (whole_assertion true)⟩⟩)

theorem whole_testSuiteDecl : Whole testSuiteDecl :=
  whole_node nofun ⟨trivial, trivial, trivial, whole_name, whole_testBlock whole_suiteItem⟩ <|
    .cons (has_row (.tail _ (.tail _ (.tail _ (.head _)))) (has_child rfl)) <|
    .cons (has_row (.tail _ (.tail _ (.tail _ (.tail _ (.head _))))) (has_child rfl)) hasAll_nil

/-! ### Modules -/

theorem whole_moduleDecl : Whole moduleDecl :=
  whole_node nofun ⟨trivial, whole_qualName, .ifAhead ⟨trivial, whole_nameList, trivial⟩⟩
    (.cons (has_row (.tail _ (.head _)) (has_child rfl)) hasAll_nil)

theorem whole_importDecl : Whole importDecl :=
  whole_node nofun ⟨trivial, .given ⟨whole_qualName, .ifAhead ⟨trivial, whole_qualNameList,
    trivial⟩⟩ trivial, .ifAhead ⟨trivial, whole_name⟩⟩ hasAll_nil

theorem whole_optionDecl : Whole optionDecl :=
  whole_node nofun ⟨trivial, whole_qualName, .given trivial (.given ⟨trivial, trivial⟩
    whole_qualName)⟩ (.cons (has_row (.tail _ (.head _)) (has_child rfl)) hasAll_nil)

theorem whole_evalDecl : Whole evalDecl :=
  whole_node nofun ⟨trivial, trivial⟩ (.cons (has_expr.appendRight _) hasAll_nil)

theorem whole_paragraph : Whole paragraph := by
  intro ks
  dsimp only
  split
  · next start _ =>
    cases start with
    | sig => exact whole_sigDecl
    | pred => exact whole_predDecl
    | func => exact whole_funDecl
    | fact => exact whole_factDecl
    | assertion => exact ⟨whole_assertion true, whole_assertion false⟩
    | command => exact whole_cmdDecl
    | testSuite => exact whole_testSuiteDecl
    | testExpect => exact whole_testExpectDecl
    | exampleTest => exact whole_exampleDecl
    | inst => exact whole_instDecl
    | option => exact whole_optionDecl
    | sexpr => exact whole_node nofun trivial hasAll_nil
  · trivial

theorem whole_ofEntry (entry : Entry) : Whole (ofEntry entry) := by
  cases entry with
  | wholeModule =>
    exact ⟨.ifAhead whole_moduleDecl, ⟨whole_importDecl, whole_paragraph, whole_evalDecl,
      whole_importDecl, whole_evalDecl⟩, whole_look⟩
  | oneExpression => exact ⟨trivial, whole_look⟩

/-! ### Derived trees -/

/-- All nodes of the trees that a whole form derives are whole. -/
theorem everywhere_of_derives {n : Nat} {f : Form} {ts : List Tree} {behind : List TokenKind}
    (h : Derives n f ts behind) (hf : Whole f) (rest : List (TokenKind × String)) :
    Tree.EverywhereAll (fun kind us _ => Tree.Whole kind us) ts rest := by
  induction h generalizing rest with
  | nothing => trivial
  | token => exact ⟨trivial, trivial⟩
  | seq _ _ ih₁ ih₂ => exact (Tree.everywhereAll_append _ _ _).mpr ⟨ih₁ hf.1 _, ih₂ hf.2 _⟩
  | left _ ih => exact ih hf.1 _
  | right _ ih => exact ih hf.2 _
  | stop => trivial
  | round _ _ ih₁ ih₂ => exact (Tree.everywhereAll_append _ _ _).mpr ⟨ih₁ hf _, ih₂ hf _⟩
  | node h ih => exact ⟨⟨hf.2 _ _ _ h, ih hf.1 _⟩, trivial⟩
  | part _ ih => exact ih (whole_ofNonterminal _) _
  | ahead _ ih => exact ih (hf _) _
  | head _ ih => exact ih hf.1 _
  | extend front asked _ back ih₁ ih₂ =>
    exact ⟨⟨hf.2 _ _ _ _ _ _ _ _ asked front back,
      (Tree.everywhereAll_append _ _ _).mpr ⟨ih₁ hf _, ih₂ (whole_tail asked) _⟩⟩, trivial⟩

end Whole

end Form
end RelLang
