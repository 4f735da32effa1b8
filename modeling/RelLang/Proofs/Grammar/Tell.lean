import RelLang.Parse
import RelLang.Proofs.Rule.Tell

/-!
# What the grammar reports

The grammar never sees an invalid token, and never says that a piece of text is none:
no rule reports a problem whose code is one of lexical problems. Inside a declaration
nothing is said about the order in which the declarations of a module stand.
-/

namespace RelLang

/-- The lexical codes are those with numbers from 100 to 199. -/
theorem Code.toClass_eq_lexical_iff (c : Code) : c.toClass = .lexical ↔ c.number / 100 = 1 := by
  cases c <;> decide

/-- A problem that a rule can find; the lexical ones are found before. -/
abbrev Problem.OfGrammar (problem : Problem) : Prop := problem.code.toClass ≠ .lexical

/-- A problem inside a declaration, which says nothing about what stands beside it. -/
abbrev Problem.OfDeclaration (problem : Problem) : Prop :=
  problem.OfGrammar ∧ problem.code ≠ .mixedEval ∧ problem.code ≠ .lateImport ∧
    problem ≠ .lateModule

theorem Code.toClass_ofMissing (kind : TokenKind) :
    (Code.ofMissing kind).toClass = .grammatical := by
  unfold Code.ofMissing
  split <;> rfl

theorem Problem.ofDeclaration_missing (kind : TokenKind) (opener : Option ByteRange) :
    (Problem.missing kind (.ofMissing kind) opener).OfDeclaration := by
  have hother {code : Code} (h : code.toClass ≠ .grammatical) : Code.ofMissing kind ≠ code :=
    fun heq => h (heq ▸ Code.toClass_ofMissing kind)
  refine ⟨?_, hother (by decide), hother (by decide), by simp⟩
  simp [Problem.OfGrammar, Problem.code, Code.toClass_ofMissing]

namespace Grammar

open Rule

variable {ν : Type}

/-! ### Names and tokens -/

/-- A missing token is reported by a code of the grammar. -/
theorem tells_expected (kind : TokenKind) (opener : Option ByteRange) :
    (expectToken kind (.ofMissing kind) opener : Rule ν Bool).Tells Problem.OfDeclaration := by
  apply tells_expectToken
  · exact Problem.ofDeclaration_missing kind opener
  · simp [Problem.OfDeclaration, Problem.OfGrammar, Problem.code, Code.toClass]

theorem tells_expect (kind : TokenKind) : (expect kind : Rule ν Bool).Tells Problem.OfDeclaration :=
  tells_expected kind none

theorem tells_expectCloser (kind : TokenKind) (opener : ByteRange) :
    (expectCloser kind opener : Rule ν Bool).Tells Problem.OfDeclaration :=
  tells_expected kind (some opener)

theorem tells_name : (name : Rule ν Bool).Tells Problem.OfDeclaration := by
  simp +decide [name]

theorem tells_nameList : (nameList : Rule ν Bool).Tells Problem.OfDeclaration := by
  simp [nameList, atCommaName, tells_name]

theorem tells_qualName : (qualName : Rule ν Bool).Tells Problem.OfDeclaration := by
  simp +decide [qualName, atQualName]

theorem tells_qualNameList : (qualNameList : Rule ν Unit).Tells Problem.OfDeclaration := by
  simp [qualNameList, tells_qualName]

theorem tells_optionalMult (allowed : List TokenKind) :
    (optionalMult allowed : Rule ν Unit).Tells Problem.OfDeclaration := by
  simp [optionalMult]

theorem tells_skipNested : (skipNested : Rule ν Unit).Tells Problem.OfDeclaration := by
  simp +decide [skipNested]

/-! ### Expressions -/

theorem tells_exprAt (level : Nat) : (exprAt level).Tells Problem.OfDeclaration := by
  simp +decide [exprAt]

theorem tells_expr : expr.Tells Problem.OfDeclaration := tells_exprAt 0

theorem tells_operand (level : Nat) (after : TokenKind) :
    (operand level after).Tells Problem.OfDeclaration := by
  simp [operand, Problem.OfDeclaration, Problem.OfGrammar, Problem.code, Code.toClass]

theorem tells_arguments : arguments.Tells Problem.OfDeclaration := by
  simp [arguments, tells_expr]

theorem tells_block : block.Tells Problem.OfDeclaration := by
  have hitems : (items .rbrace .missingExpression (ignore expr)).Tells Problem.OfDeclaration :=
    tells_items (by decide) (by simpa using tells_expr)
  simp [block, tells_expect, tells_expectCloser, hitems]

theorem tells_quantDecl : quantDecl.Tells Problem.OfDeclaration := by
  simp [quantDecl, tells_nameList, tells_expect, tells_optionalMult, tells_expr]

theorem tells_quantDecls : quantDecls.Tells Problem.OfDeclaration := by
  simp [quantDecls, tells_quantDecl]

theorem tells_binderBody : binderBody.Tells Problem.OfDeclaration := by
  simp +decide [binderBody, tells_expr, tells_block]

theorem tells_binder (keyword : TokenKind) : (binder keyword).Tells Problem.OfDeclaration := by
  have hbindings (kind : NodeKind) : (bindings kind).Tells Problem.OfDeclaration := by
    simp [bindings, letDecl, atCommaName, tells_name, tells_expect, tells_expr, tells_binderBody]
  have hquantified (quantifier : TokenKind) :
      (quantified quantifier).Tells Problem.OfDeclaration := by
    simp [quantified, tells_quantDecls, tells_binderBody, Problem.OfDeclaration, Problem.OfGrammar,
      Problem.code, Code.toClass]
  unfold binder
  split
  · exact hbindings _
  · exact hbindings _
  · exact hquantified _

theorem tells_atom : atom.Tells Problem.OfDeclaration := by
  have hform (form : AtomForm) : form.rule.Tells Problem.OfDeclaration := by
    cases form <;>
      simp [AtomForm.rule, tells_qualName, tells_block, tells_expr, tells_expectCloser,
        tells_quantDecls, parenthesized, comprehension]
  unfold atom
  refine ⟨trivial, fun first => ⟨trivial, fun second => ?_⟩⟩
  dsimp only
  split
  · simp [hform]
  · trivial

theorem tells_operandHead : operandHead.Tells Problem.OfDeclaration := by
  unfold operandHead
  refine ⟨trivial, fun first => ⟨by simp [atBinder, atQuantifier], fun isBinder => ?_⟩⟩
  dsimp only
  split
  · trivial
  · simp only [tells_ite, tells_bind]
    refine ⟨fun _ => ⟨tells_binder _, fun _ => trivial⟩, fun _ => ?_⟩
    split
    · simp +decide [tells_operand]
    · exact tells_atom

theorem tells_infixTail (node : NodeKind) (level : Nat) (operator : TokenKind) :
    (infixTail node level operator).Tells Problem.OfDeclaration := by
  have hoperator : (infixOperator node).Tells Problem.OfDeclaration := by
    unfold infixOperator
    split <;> simp [compareOperator, arrowOperator, atQuantifier]
  simp [infixTail, hoperator, tells_operand]

theorem tells_postfixTail (operator : TokenKind) :
    (postfixTail operator).Tells Problem.OfDeclaration := by
  have hcloser : (expectToken Punct.rbracket .unclosedBoxJoin none :
      Rule Nonterminal Bool).Tells Problem.OfDeclaration :=
    tells_expectToken (by decide) (by decide)
  simp [postfixTail, tells_arguments, hcloser]

theorem tells_extendOnce (level : Nat) : (extendOnce level).Tells Problem.OfDeclaration := by
  unfold extendOnce
  refine ⟨trivial, fun first => ⟨trivial, fun second => ?_⟩⟩
  dsimp only
  split
  · trivial
  · split
    · trivial
    · simp only [tells_ite, tells_bind, tells_when, tells_requireTemporal, tells_enclose]
      refine ⟨fun _ => trivial, fun _ => ⟨fun _ => by decide, fun _ => ⟨?_, fun _ => trivial⟩⟩⟩
      split
      · exact tells_infixTail _ _ _
      · exact tells_postfixTail _

theorem tells_extend (level : Nat) : (extend level).Tells Problem.OfDeclaration := by
  simp [extend, tells_extendOnce]

theorem tells_expression (level : Nat) : (expression level).Tells Problem.OfDeclaration := by
  simp [expression, tells_operandHead, tells_extend]

/-! ### Bounds, scopes and commands -/

theorem tells_boundValue : boundValue.Tells Problem.OfDeclaration := by
  unfold boundValue
  refine ⟨trivial, fun first => ⟨trivial, fun second => ?_⟩⟩
  dsimp only
  split <;> simp +decide [tells_qualName]

theorem tells_boundUnion : boundUnion.Tells Problem.OfDeclaration := by
  have hproduct : boundProduct.Tells Problem.OfDeclaration := by
    simp [boundProduct, tells_boundValue]
  simp [boundUnion, hproduct]

theorem tells_boundGroup : boundGroup.Tells Problem.OfDeclaration := by
  simp [boundGroup, tells_boundUnion, tells_expectCloser]

theorem tells_bound : bound.Tells Problem.OfDeclaration := by
  simp +decide [bound, boundLhs, tells_qualName, tells_boundUnion]

theorem tells_bounds : bounds.Tells Problem.OfDeclaration := by
  have hitems : (items .rbrace .malformedBound do
      let present ← atBound
      when present bound).Tells Problem.OfDeclaration :=
    tells_items (by decide) (by simp [atBound, atQualName, tells_bound])
  simp +decide [bounds, atQualName, hitems, tells_qualName, tells_expectCloser]

theorem tells_scope : scope.Tells Problem.OfDeclaration := by
  have htypescopes : typescopes.Tells Problem.OfDeclaration := by
    simp +decide [typescopes, typescope, tells_qualName]
  simp +decide [scope, atTypescope, htypescopes, tells_expect]

theorem tells_scopeAndBounds : scopeAndBounds.Tells Problem.OfDeclaration := by
  simp [scopeAndBounds, atScope, tells_scope, tells_bounds]

theorem tells_optionalTarget : optionalTarget.Tells Problem.OfDeclaration := by
  simp [optionalTarget, atQualName, tells_qualName, tells_block]

theorem tells_cmdDecl : cmdDecl.Tells Problem.OfDeclaration := by
  simp +decide [cmdDecl, tells_name, tells_optionalTarget, tells_scopeAndBounds]

theorem tells_instDecl : instDecl.Tells Problem.OfDeclaration := by
  simp [instDecl, atScope, tells_name, tells_bounds, tells_scope]

/-! ### Predicates and signatures -/

theorem tells_declBody (owner : BodyOwner) : (declBody owner).Tells Problem.OfDeclaration := by
  simp [declBody, tells_block, Problem.OfDeclaration, Problem.OfGrammar, Problem.code, Code.toClass]

theorem tells_optionalParaDecls : optionalParaDecls.Tells Problem.OfDeclaration := by
  have hitem (closer : Punct) : (paraItem closer).Tells Problem.OfDeclaration := by
    simp +decide [paraItem, paraDecl, tells_nameList, tells_expect, tells_optionalMult,
      tells_expr]
  simp [optionalParaDecls, paraDecls, hitem, tells_expectCloser]

theorem tells_optionalReceiver : optionalReceiver.Tells Problem.OfDeclaration := by
  simp [optionalReceiver, tells_qualName]

theorem tells_predDecl : predDecl.Tells Problem.OfDeclaration := by
  simp [predDecl, tells_optionalReceiver, tells_name, tells_optionalParaDecls, tells_declBody]

theorem tells_funDecl : funDecl.Tells Problem.OfDeclaration := by
  simp [funDecl, tells_optionalReceiver, tells_name, tells_optionalParaDecls, tells_expect,
    tells_optionalMult, tells_expr, tells_declBody]

theorem tells_factDecl : factDecl.Tells Problem.OfDeclaration := by
  simp [factDecl, tells_name, tells_declBody]

theorem tells_sigDecl : sigDecl.Tells Problem.OfDeclaration := by
  have hmodifier : sigModifier.Tells Problem.OfDeclaration := by
    simp +decide [sigModifier]
  have hext : sigExt.Tells Problem.OfDeclaration := by
    simp [sigExt, tells_qualName]
  have hfield : fieldDecl.Tells Problem.OfDeclaration := by
    simp +decide [fieldDecl, tells_nameList, tells_expect, tells_optionalMult, tells_exprAt]
  have hend : fieldEnd.Tells Problem.OfDeclaration := by
    simp +decide [fieldEnd, atField]
  have hitem : fieldItem.Tells Problem.OfDeclaration := by
    simp +decide [fieldItem, atField, hfield, hend]
  have hlist : fieldList.Tells Problem.OfDeclaration := by
    simp [fieldList, tells_expect, hitem, tells_expectCloser]
  have hsig : (expectToken Keyword.sigKw .missingSig none :
      Rule Nonterminal Bool).Tells Problem.OfDeclaration :=
    tells_expectToken (by decide) (by decide)
  simp [sigDecl, hmodifier, hsig, tells_nameList, hext, hlist, tells_block]

/-! ### Assertions, tests and modules -/

theorem tells_assertion : assertion.Tells Problem.OfDeclaration := by
  have hasserted : asserted.Tells Problem.OfDeclaration := by
    simp [asserted, atProperty, tells_name, tells_block, tells_extend, tells_quantDecls,
      tells_binderBody, tells_expr]
  have htail (form : AssertionForm) : (assertionTail form).Tells Problem.OfDeclaration := by
    cases form <;>
      simp [assertionTail, optionalArguments, tells_expect, tells_name, tells_arguments,
        tells_expectCloser, tells_scopeAndBounds]
  unfold assertion
  refine ⟨trivial, fun _ => ⟨hasserted, fun body => ?_⟩⟩
  simp only [tells_ite, tells_bind, tells_currentIs, tells_peek, true_and]
  refine ⟨fun _ => by simp, fun _ tagged tag => ?_⟩
  split
  · simp [htail]
  · simp +decide

theorem tells_testBlock {context : Context} {item : Rule Nonterminal Unit}
    (hitem : item.Tells Problem.OfDeclaration) :
    (testBlock context item).Tells Problem.OfDeclaration := by
  have hitems : (items .rbrace .noTestConstruct item).Tells Problem.OfDeclaration :=
    tells_items (by decide) hitem
  simp [testBlock, tells_expect, tells_expectCloser, hitems]

theorem tells_testExpectDecl : testExpectDecl.Tells Problem.OfDeclaration := by
  have hitem : testItem.Tells Problem.OfDeclaration := by
    simp +decide [testItem, testDecl, testResult, atQualName, tells_name, tells_optionalTarget,
      tells_scopeAndBounds, tells_expect]
  simp [testExpectDecl, tells_expect, tells_name, tells_testBlock hitem]

theorem tells_exampleDecl : exampleDecl.Tells Problem.OfDeclaration := by
  simp [exampleDecl, tells_name, tells_expect, tells_expr, tells_bounds]

theorem tells_suiteItem : suiteItem.Tells Problem.OfDeclaration := by
  unfold suiteItem
  refine ⟨trivial, fun first => ⟨trivial, fun second => ?_⟩⟩
  dsimp only
  split
  · exact tells_exampleDecl
  · exact tells_testExpectDecl
  · simp +decide [tells_assertion]
  · simp +decide [tells_testExpectDecl]

theorem tells_paragraph (form : ParagraphStart) : form.rule.Tells Problem.OfDeclaration := by
  cases form with
  | sig => exact tells_sigDecl
  | pred => exact tells_predDecl
  | func => exact tells_funDecl
  | fact => exact tells_factDecl
  | assertion => simpa [ParagraphStart.rule] using tells_assertion
  | command => exact tells_cmdDecl
  | testSuite =>
    simp [ParagraphStart.rule, testSuiteDecl, tells_expect, tells_name,
      tells_testBlock tells_suiteItem]
  | testExpect => exact tells_testExpectDecl
  | exampleTest => exact tells_exampleDecl
  | inst => exact tells_instDecl
  | option =>
    simp +decide [ParagraphStart.rule, optionDecl, optionValue, atQualName, tells_qualName]
  | sexpr => simp [ParagraphStart.rule, sexprDecl]

theorem tells_moduleDecl : moduleDecl.Tells Problem.OfDeclaration := by
  simp +decide [moduleDecl, atQualName, tells_qualName, tells_nameList, tells_expectCloser]

theorem tells_importDecl : importDecl.Tells Problem.OfDeclaration := by
  simp +decide [importDecl, importTarget, atQualName, tells_qualName, tells_qualNameList,
    tells_expectCloser, tells_name]

theorem tells_evalDecl : evalDecl.Tells Problem.OfDeclaration := by
  simp [evalDecl, tells_expr]

theorem tells_declaration (seen : Seen) : (declaration seen).Tells Problem.OfGrammar := by
  have hinside {α : Type} {rule : Rule Nonterminal α} (h : rule.Tells Problem.OfDeclaration) :
      rule.Tells Problem.OfGrammar := h.mono fun _ => And.left
  unfold declaration
  refine ⟨trivial, fun first => ⟨trivial, fun second => ⟨trivial, fun third => ?_⟩⟩⟩
  dsimp only
  split
  · simp +decide [hinside tells_moduleDecl]
  · simp +decide [hinside tells_importDecl]
  · simp +decide [hinside tells_evalDecl]
  · split
    · simp +decide [hinside (tells_paragraph _)]
    · trivial

theorem tells_body (symbol : Nonterminal) :
    (language.body symbol).Tells Problem.OfDeclaration := by
  cases symbol with
  | expression level => exact tells_expression level
  | boundGroup => exact tells_boundGroup

theorem tells_beyond (symbol : Nonterminal) :
    (language.beyond symbol).Tells Problem.OfDeclaration := by
  cases symbol <;>
    simp [language, expressionTooDeep, boundGroupTooDeep, tells_skipNested]

end Grammar

/-- Whatever a text is read as, the grammar reports no lexical problem. -/
theorem Entry.tells_rule (entry : Entry) : entry.rule.Tells Problem.OfGrammar := by
  cases entry with
  | wholeModule =>
    have hitem (seen : Grammar.Seen) : (Grammar.moduleItem seen).Tells Problem.OfGrammar := by
      simp +decide [Grammar.moduleItem, Grammar.tells_declaration]
    have hmodule : Grammar.moduleDecl.Tells Problem.OfGrammar :=
      Grammar.tells_moduleDecl.mono fun _ => And.left
    simp [rule, Grammar.sourceFile, hmodule, hitem]
  | oneExpression =>
    have hexpr : Grammar.expr.Tells Problem.OfGrammar := Grammar.tells_expr.mono fun _ => And.left
    simp +decide [rule, Grammar.exprRoot, hexpr]

end RelLang
