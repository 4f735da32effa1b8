import RelLang.Parse
import RelLang.Proofs.Grammar.Fits
import RelLang.Proofs.Rule.Depth

/-!
# How deep the grammar nests

An expression makes at most one node that stands for a level of nesting around what its calls
read, and no other rule of the grammar makes one. So what is read with a number of levels left is
no deeper than that number, and past the last level nothing is nested at all.
-/

namespace RelLang.Grammar

open Rule

/-! ### Rules that are flat -/

section Shared

variable {ν : Type}

@[simp] theorem flat_expectToken (kind : TokenKind) (code : Code) (opener : Option ByteRange) :
    (expectToken kind code opener : Rule ν Bool).Flat := by
  simp +decide [expectToken]

@[simp] theorem flat_expect (kind : TokenKind) : (expect kind : Rule ν Bool).Flat :=
  flat_expectToken ..

@[simp] theorem flat_expectCloser (kind : TokenKind) (opener : ByteRange) :
    (expectCloser kind opener : Rule ν Bool).Flat :=
  flat_expectToken ..

@[simp] theorem flat_skipUntil (problem : Problem) (stops : List TokenKind) :
    (skipUntil problem stops : Rule ν Unit).Flat := by
  simp +decide [skipUntil]

@[simp] theorem flat_items (closer : Punct) (code : Code) {item : Rule ν Unit} :
    (items closer code item).Flat ↔ item.Flat := by
  simp +decide [items]

@[simp] theorem flat_name : (name : Rule ν Bool).Flat := by simp +decide [name]

@[simp] theorem flat_atCommaName : (atCommaName : Rule ν Bool).Flat := by simp [atCommaName]

@[simp] theorem flat_nameList : (nameList : Rule ν Bool).Flat := by simp +decide [nameList]

@[simp] theorem flat_atQualName : (atQualName : Rule ν Bool).Flat := by simp [atQualName]

@[simp] theorem flat_qualName : (qualName : Rule ν Bool).Flat := by simp +decide [qualName]

@[simp] theorem flat_qualNameList : (qualNameList : Rule ν Unit).Flat := by
  simp +decide [qualNameList]

@[simp] theorem flat_optionalMult (allowed : List TokenKind) :
    (optionalMult allowed : Rule ν Unit).Flat := by
  simp +decide [optionalMult]

theorem flat_skipNested : (skipNested : Rule ν Unit).Flat := by simp +decide [skipNested]

end Shared

@[simp] theorem flat_exprAt (level : Nat) : (exprAt level).Flat := by simp [exprAt]

@[simp] theorem flat_expr : expr.Flat := flat_exprAt 0

@[simp] theorem flat_operand (level : Nat) (after : TokenKind) : (operand level after).Flat := by
  simp [operand]

@[simp] theorem flat_arguments : arguments.Flat := by simp +decide [arguments]

@[simp] theorem flat_block : block.Flat := by simp +decide [block]

@[simp] theorem flat_quantDecls : quantDecls.Flat := by simp +decide [quantDecls, quantDecl]

@[simp] theorem flat_binderBody : binderBody.Flat := by simp [binderBody]

theorem flat_quantified (quantifier : TokenKind) : (quantified quantifier).Flat := by
  simp +decide [quantified]

@[simp] theorem flat_atBinder : atBinder.Flat := by simp [atBinder, atQuantifier]

/-! ### Bounds -/

theorem flat_boundValue : boundValue.Flat := by
  simp only [boundValue, every_node, every_bind, every_peek, true_and]
  refine ⟨rfl, fun first second => ?_⟩
  split <;> simp

@[simp] theorem flat_boundUnion : boundUnion.Flat := by
  simp +decide [boundUnion, boundProduct, flat_boundValue]

theorem flat_boundGroup : boundGroup.Flat := by simp [boundGroup]

@[simp] theorem flat_bounds : bounds.Flat := by
  simp +decide [bounds, bound, boundLhs, atBound]

/-! ### Operators behind operands -/

/-- An operator that does not stand in front of its operand makes no level of nesting. -/
theorem nests_of_row : ∀ row ∈ Operator.table, row.fixity.isFront = false →
    row.node.nests = false := by
  decide

theorem nests_of_extension {first : TokenKind} {second : Option TokenKind}
    {e : Operator.Extension} (h : Operator.extension? first second = some e) :
    e.node.nests = false := by
  obtain ⟨k, row, hrow, rfl, -⟩ := Operator.ofRow_of_extension? h
  exact nests_of_row row (Operator.mem_table_of_infixRow? hrow) (Operator.mem_of_infixRow? hrow).1

@[simp] theorem flat_infixTail (node : NodeKind) (level : Nat) (operator : TokenKind) :
    (infixTail node level operator).Flat := by
  have hoperator : (infixOperator node).Flat := by
    unfold infixOperator
    split <;> simp +decide [compareOperator, arrowOperator, atQuantifier]
  simp [infixTail, hoperator]

@[simp] theorem flat_postfixTail (operator : TokenKind) : (postfixTail operator).Flat := by
  simp [postfixTail]

theorem flat_extendOnce (level : Nat) : (extendOnce level).Flat := by
  simp only [extendOnce, every_bind, every_peek, true_and]
  intro first second
  split
  · exact every_pure _
  · split
    · exact every_pure _
    · next h =>
      have htail := nests_of_extension h
      split
      · exact every_pure _
      · simp only [every_bind, every_when, every_requireTemporal, every_enclose, every_pure, htail]
        split <;> simp

@[simp] theorem flat_extend (level : Nat) : (extend level).Flat := by
  simp [extend, flat_extendOnce]

/-! ### Commands, declarations and tests -/

@[simp] theorem flat_scope : scope.Flat := by
  simp +decide [scope, atTypescope, typescopes, typescope]

@[simp] theorem flat_scopeAndBounds : scopeAndBounds.Flat := by
  simp [scopeAndBounds, atScope]

@[simp] theorem flat_optionalTarget : optionalTarget.Flat := by simp [optionalTarget]

theorem flat_cmdDecl : cmdDecl.Flat := by simp +decide [cmdDecl]

theorem flat_instDecl : instDecl.Flat := by simp +decide [instDecl, atScope]

@[simp] theorem flat_declBody (owner : BodyOwner) : (declBody owner).Flat := by simp [declBody]

@[simp] theorem flat_optionalReceiver : optionalReceiver.Flat := by
  simp +decide [optionalReceiver]

@[simp] theorem flat_optionalParaDecls : optionalParaDecls.Flat := by
  simp +decide [optionalParaDecls, paraDecls, paraItem, paraDecl]

theorem flat_predDecl : predDecl.Flat := by simp +decide [predDecl]

theorem flat_funDecl : funDecl.Flat := by simp +decide [funDecl]

theorem flat_factDecl : factDecl.Flat := by simp +decide [factDecl]

theorem flat_fieldList : fieldList.Flat := by
  simp +decide [fieldList, fieldItem, atField, fieldEnd, fieldDecl]

theorem flat_sigDecl : sigDecl.Flat := by
  simp +decide [sigDecl, sigModifier, sigExt, flat_fieldList]

theorem flat_testExpectDecl : testExpectDecl.Flat := by
  simp +decide [testExpectDecl, testBlock, testItem, testDecl, testResult]

theorem flat_exampleDecl : exampleDecl.Flat := by simp +decide [exampleDecl]

theorem flat_assertion : assertion.Flat := by
  have hasserted : asserted.Flat := by
    simp +decide [asserted, atProperty]
  have htail : ∀ form, (assertionTail form).Flat := by
    intro form
    cases form <;> simp [assertionTail, optionalArguments]
  simp only [assertion, every_group, every_bind, every_bump, every_ite, hasserted, true_and]
  intro _ body
  refine ⟨fun _ => by simp +decide, fun _ => ?_⟩
  simp only [every_currentIs, every_peek, true_and]
  intro tagged tag
  split
  · next form _ =>
    have hnode : form.node.nests = false := by cases form <;> rfl
    simp [hnode, htail]
  · simp +decide

theorem flat_testSuiteDecl : testSuiteDecl.Flat := by
  have hitem : suiteItem.Flat := by
    simp only [suiteItem, every_bind, every_peek, true_and]
    intro first second
    split
    · exact flat_exampleDecl
    · exact flat_testExpectDecl
    · simp [flat_assertion]
    · simp +decide [flat_testExpectDecl]
  simp +decide [testSuiteDecl, testBlock, hitem]

theorem flat_paragraph (form : ParagraphStart) : form.rule.Flat := by
  cases form with
  | sig => exact flat_sigDecl
  | pred => exact flat_predDecl
  | func => exact flat_funDecl
  | fact => exact flat_factDecl
  | assertion => simp [ParagraphStart.rule, flat_assertion]
  | command => exact flat_cmdDecl
  | testSuite => exact flat_testSuiteDecl
  | testExpect => exact flat_testExpectDecl
  | exampleTest => exact flat_exampleDecl
  | inst => exact flat_instDecl
  | option => simp +decide [ParagraphStart.rule, optionDecl, optionValue]
  | sexpr => simp +decide [ParagraphStart.rule, sexprDecl]

theorem flat_moduleDecl : moduleDecl.Flat := by simp +decide [moduleDecl]

theorem flat_declaration (seen : Seen) : (declaration seen).Flat := by
  simp only [declaration, every_bind, every_peek, true_and]
  intro first second third
  split
  · simp [flat_moduleDecl]
  · simp +decide [importDecl, importTarget]
  · simp +decide [evalDecl]
  · split
    · simp [flat_paragraph]
    · exact every_pure _

/-- Whatever a text is read as, only expressions nest. -/
theorem flat_entry (entry : Entry) : entry.rule.Flat := by
  cases entry with
  | wholeModule => simp [Entry.rule, sourceFile, moduleItem, flat_moduleDecl, flat_declaration]
  | oneExpression => simp +decide [Entry.rule, exprRoot]

/-! ### One level -/

section Levels

variable {setting : Setting} {enter : Nonterminal → State → Bool × State} {n m : Nat}
  (henter : Steady enter)
  (hcalls : ∀ m, n ≤ m → ∀ symbol, Maintains (State.Within m) (enter symbol)) (hm : n + 1 ≤ m)

include henter hcalls hm

/-- What is flat nests as deep as the calls do. -/
theorem maintains_flat {α : Type} {rule : Rule Nonterminal α} (hrule : rule.Flat) :
    Maintains (State.Within m) (rule.run setting enter) :=
  hrule.maintains henter (hcalls m (by omega))

/-- A node around what is flat nests by one more. -/
theorem maintains_level (kind : NodeKind) {α : Type} {body : Rule Nonterminal α}
    (hbody : body.Flat) : Maintains (State.Within m) ((node kind body).run setting enter) := by
  have hbool : kind.nests.toNat ≤ 1 := Bool.toNat_le _
  exact maintains_node (hbody.maintains henter (hcalls n (Nat.le_refl n))) (by omega)

theorem maintains_atom : Maintains (State.Within m) (atom.run setting enter) := by
  have hform : ∀ form : AtomForm, Maintains (State.Within m) (form.rule.run setting enter) := by
    intro form
    cases form with
    | oneToken kind => exact maintains_level henter hcalls hm kind every_bump
    | negativeNumber => exact maintains_flat henter hcalls hm (by simp +decide [AtomForm.rule])
    | nameRef => exact maintains_flat henter hcalls hm (by simp +decide [AtomForm.rule])
    | atName => exact maintains_flat henter hcalls hm (by simp +decide [AtomForm.rule])
    | parenthesized => exact maintains_level henter hcalls hm .parenExpr (by simp)
    | braced =>
      refine .bind henter (.ofLooking fun _ => rfl) fun _ => .ite ?_ ?_
      · exact maintains_level henter hcalls hm .comprehensionExpr (by simp)
      · exact maintains_flat henter hcalls hm flat_block
  refine .bind henter (.ofLooking fun _ => rfl) fun first =>
    .bind henter (.ofLooking fun _ => rfl) fun second => ?_
  split
  · exact .bind henter (hform _) fun _ => .ofLooking fun _ => rfl
  · exact .ofLooking fun _ => rfl

theorem maintains_binder (keyword : TokenKind) :
    Maintains (State.Within m) ((binder keyword).run setting enter) := by
  unfold binder
  split
  · exact maintains_level henter hcalls hm .letExpr (by simp +decide [letDecl])
  · exact maintains_level henter hcalls hm .bindExpr (by simp +decide [letDecl])
  · exact maintains_flat henter hcalls hm (flat_quantified keyword)

theorem maintains_operandHead : Maintains (State.Within m) (operandHead.run setting enter) := by
  refine .bind henter (.ofLooking fun _ => rfl) fun first =>
    .bind henter (maintains_flat henter hcalls hm flat_atBinder) fun isBinder => ?_
  split
  · exact .ofLooking fun _ => rfl
  · refine .ite (.bind henter (maintains_binder henter hcalls hm _) fun _ => ?_) ?_
    · exact .ofLooking fun _ => rfl
    · split
      · next row _ =>
        refine .bind henter (maintains_level henter hcalls hm row.node ?_) fun _ => ?_
        · simp
        · exact .ofLooking fun _ => rfl
      · exact maintains_atom henter hcalls hm

/-- An expression goes at most one level deeper than its calls, and so does a group of bound
values. -/
theorem maintains_body (symbol : Nonterminal) :
    Maintains (State.Within m) ((language.body symbol).run setting enter) := by
  cases symbol with
  | expression level =>
    refine maintains_group <| .bind henter (maintains_operandHead henter hcalls hm) fun _ =>
      .bind henter (.when ?_) fun _ => .ofLooking fun _ => rfl
    exact maintains_flat henter hcalls hm (flat_extend level)
  | boundGroup => exact maintains_flat henter hcalls hm flat_boundGroup

end Levels

/-! ### All levels -/

theorem flat_beyond (symbol : Nonterminal) : (language.beyond symbol).Flat := by
  cases symbol with
  | expression level => simp [language, expressionTooDeep, flat_skipNested]
  | boundGroup => simp [language, boundGroupTooDeep, flat_skipNested]

/-- What is read with a number of levels left is no deeper than that number. -/
theorem maintains_enter (setting : Setting) (levels : Nat) : ∀ m, levels ≤ m → ∀ symbol,
    Maintains (State.Within m) (language.enter setting levels symbol) := by
  induction levels with
  | zero => exact fun m _ symbol => (flat_beyond symbol).maintains (steady_of_empty _) nofun
  | succ levels ih =>
    exact fun m hm symbol => maintains_body (language.steady_enter setting levels) ih hm symbol

end RelLang.Grammar
