import RelLang.Grammar.Module
import RelLang.Proofs.Rule.Loop
import RelLang.View.Category

/-!
# The loops of the grammar advance

Every loop of the grammar takes a token in each round that asks for another. Most
rounds are told by a test that sees a token, or by a token that was eaten; the
others look at what their item has taken, skip a token by themselves, or begin with
a rule that takes one.
-/

namespace RelLang.Grammar

open Rule

/-- The kinds of nodes that are not made of an operator and its operands, and are no options. -/
def Plain (k : NodeKind) : Prop :=
  ExprForm.ofKind? k ≠ some .binary ∧ ExprForm.ofKind? k ≠ some .unary ∧ k ≠ .optionDecl

instance (k : NodeKind) : Decidable (Plain k) := inferInstanceAs (Decidable (_ ∧ _ ∧ _))

/-- All loops advance, and no node is made of an operator or is an option. -/
abbrev Advances {ν α : Type} (setting : Setting) (enter : ν → State → Bool × State)
    (rule : Rule ν α) : Prop :=
  rule.Every Plain (Advancing setting enter)

section Shared

variable {ν : Type} {setting : Setting} {enter : ν → State → Bool × State}

/-! ### Tokens and lists -/

theorem advances_expectToken (kind : TokenKind) (code : Code) (opener : Option ByteRange) :
    Advances setting enter (expectToken kind code opener : Rule ν Bool) := by
  simp +decide [expectToken]

@[simp] theorem advances_expect (kind : TokenKind) :
    Advances setting enter (expect kind : Rule ν Bool) :=
  advances_expectToken ..

@[simp] theorem advances_expectCloser (kind : TokenKind) (opener : ByteRange) :
    Advances setting enter (expectCloser kind opener : Rule ν Bool) :=
  advances_expectToken ..

theorem advances_skipUntil (problem : Problem) (stops : List TokenKind) :
    Advances setting enter (skipUntil problem stops : Rule ν Unit) := by
  have hround := (moves_skipRound stops : Moves setting enter (skipRound stops : Rule ν Bool)).advancing
  simp only [skipRound] at hround
  simp +decide [skipUntil, hround]

theorem moves_item (henter : Steady enter) (closer : Punct) (code : Code)
    (item : Rule ν Unit) :
    Moves setting enter (do
      let closed ← currentIs closer
      let ended ← atEnd
      if closed || ended then return false
      else
        let (_, moved) ← progress item
        if moved then return true
        else
          let recovered ← atRecoveryPoint
          when (!recovered) (skipToken (.listItem code))
          return !recovered : Rule ν Bool) := by
  intro s hs hmore
  have hr := reaches_run setting henter item s
  simp only [run_bind, run_currentIs, run_atEnd, run_ite, run_pure, run_progress,
    run_atRecoveryPoint] at hmore ⊢
  split at hmore
  · cases hmore
  · next hopen =>
    rw [if_neg hopen]
    split at hmore
    · next hmoved =>
      rw [if_pos hmoved]
      exact Nat.lt_of_le_of_ne (hr.left_le hs) (by simpa using hmoved)
    · next hstill =>
      rw [if_neg hstill]
      dsimp only at hmore ⊢
      rw [hmore]
      refine Nat.lt_of_lt_of_le ?_ (hr.left_le hs)
      refine takes_skipToken henter _ _ (hr.valid hs) fun hk => ?_
      simp [State.atRecoveryPoint_of_kindAt hk] at hmore

theorem every_items (henter : Steady enter) (closer : Punct) (code : Code)
    {node : NodeKind → Prop} (herror : node .error) {item : Rule ν Unit}
    (h : item.Every node (Advancing setting enter)) :
    (items closer code item).Every node (Advancing setting enter) := by
  refine ⟨(moves_item henter closer code item).advancing, ?_⟩
  simp [h, herror]

theorem advances_items (henter : Steady enter) (closer : Punct) (code : Code)
    {item : Rule ν Unit} (h : Advances setting enter item) :
    Advances setting enter (items closer code item) :=
  every_items henter closer code (by decide) h

/-! ### Names -/

theorem sees_atCommaName : Sees setting enter (atCommaName : Rule ν Bool) :=
  (sees_currentIs _).andAlso fun _ => rfl

@[simp] theorem advances_atCommaName : Advances setting enter (atCommaName : Rule ν Bool) := by
  simp [atCommaName]

@[simp] theorem advances_atQualName : Advances setting enter (atQualName : Rule ν Bool) := by
  simp [atQualName]

@[simp] theorem advances_name : Advances setting enter (name : Rule ν Bool) := by
  simp +decide [name]

@[simp] theorem advances_optionalMult (allowed : List TokenKind) :
    Advances setting enter (optionalMult allowed : Rule ν Unit) := by
  simp +decide [optionalMult]

theorem advances_nameList (henter : Steady enter) :
    Advances setting enter (nameList : Rule ν Bool) := by
  have hround := sees_atCommaName.guarded
    (takes_bump.bind henter fun _ => ignore name : Takes setting enter _ _)
  simp +decide [nameList, hround.advancing]

/-- A list of names takes its first name. -/
theorem takes_nameList (henter : Steady enter) :
    Takes setting enter (· = some .ident) (nameList : Rule ν Bool) := by
  have hname : Takes setting enter (· = some .ident) (name : Rule ν Bool) := by
    refine .ofCurrentIs ?_ fun s _ hk => absurd hk.1 hk.2
    exact ((takes_tokenNode _).mono (by simp)).bind henter _
  exact (hname.bind henter _).node _

theorem advances_qualName (henter : Steady enter) :
    Advances setting enter (qualName : Rule ν Bool) := by
  have hsees : Sees setting enter
      (andAlso (currentIs Punct.slash) (nthPasses 1 TokenKind.isNameSegment) : Rule ν Bool) :=
    (sees_currentIs _).andAlso fun _ => rfl
  have hround := hsees.guarded (takes_bump.bind henter fun _ => bump)
  simp +decide [qualName, hround.advancing]

theorem advances_qualNameList (henter : Steady enter) :
    Advances setting enter (qualNameList : Rule ν Unit) := by
  have hround := (moves_eat Punct.comma : Moves setting enter _).guarded henter (ignore qualName)
  simp +decide [qualNameList, hround.advancing, advances_qualName henter]

/-! ### Nesting that is too deep -/

theorem advances_skipNested : Advances setting enter (skipNested : Rule ν Unit) := by
  refine ⟨trivial, fun _ =>
    ⟨by decide, every_nthPasses .., fun isGroup => ⟨⟨?_, ?_⟩, fun _ => trivial⟩⟩⟩
  · intro openers s hs hmore
    simp only [run_bind, run_atEnd, run_nthPasses, run_ite, run_pure, run_bump,
      run_atRecoveryPoint] at hmore ⊢
    split at hmore
    · cases hmore
    · next hopen =>
      rw [if_neg hopen]
      refine State.left_bump_lt hs fun hk => hopen ?_
      simp [hk]
  · intro openers
    simp

end Shared

/-! ### Expressions inside other rules -/

section Nested

variable {setting : Setting} {enter : Nonterminal → State → Bool × State}

@[simp] theorem advances_exprAt (level : Nat) : Advances setting enter (exprAt level) := by
  simp [exprAt]

@[simp] theorem advances_expr : Advances setting enter expr := advances_exprAt 0

@[simp] theorem advances_operand (level : Nat) (after : TokenKind) :
    Advances setting enter (operand level after) := by
  simp [operand]

theorem advances_arguments (henter : Steady enter) : Advances setting enter arguments := by
  have hround := (moves_eat Punct.comma : Moves setting enter _).guarded henter (ignore expr)
  simp +decide [arguments, hround.advancing]

/-! ### Bounds -/

theorem advances_boundValue (henter : Steady enter) : Advances setting enter boundValue := by
  unfold boundValue
  refine ⟨by decide, trivial, fun first => ⟨trivial, fun second => ?_⟩⟩
  dsimp only
  split <;> simp [advances_qualName henter]

theorem advances_boundProduct (henter : Steady enter) :
    Advances setting enter boundProduct := by
  unfold boundProduct
  refine ⟨by decide, advances_boundValue henter, fun _ => ⟨Moves.advancing ?_, ?_⟩⟩
  · intro s hs hmore
    simp only [run_bind, run_peek, run_pure] at hmore ⊢
    rw [hmore]
    refine takes_bump.bind henter _ s hs fun hk => ?_
    simp [hk, tupleCommaAhead] at hmore
  · simp [advances_boundValue henter]

theorem advances_boundUnion (henter : Steady enter) : Advances setting enter boundUnion := by
  have hround := (moves_eat Punct.plus : Moves setting enter _).guarded henter boundProduct
  simp +decide [boundUnion, hround.advancing, advances_boundProduct henter]

theorem advances_boundGroup (henter : Steady enter) : Advances setting enter boundGroup := by
  simp [boundGroup, advances_boundUnion henter]

theorem advances_boundLhs (henter : Steady enter) : Advances setting enter boundLhs := by
  unfold boundLhs
  have hsees : Sees setting enter
      (andAlso (currentIs Punct.dot) (nthPasses 1 TokenKind.isNameSegment) : Rule Nonterminal Bool) :=
    (sees_currentIs _).andAlso fun _ => rfl
  have hround := hsees.guarded (takes_bump.bind henter fun _ => ignore qualName)
  simp only [every_bind, every_node, every_eat, every_ignore, every_loop]
  refine ⟨by decide, trivial, fun _ => ⟨advances_qualName henter, fun _ => ⟨?_, ?_⟩⟩⟩
  · exact fun _ s hs hmore => hround s hs hmore
  · simp [advances_qualName henter]

theorem advances_bound (henter : Steady enter) : Advances setting enter bound := by
  simp +decide [bound, advances_boundLhs henter, advances_boundUnion henter]

theorem advances_bounds (henter : Steady enter) : Advances setting enter bounds := by
  have hitem : Advances setting enter (do
      let present ← atBound
      when present bound) := by
    simp [atBound, advances_bound henter]
  simp +decide [bounds, advances_items henter _ _ hitem, advances_qualName henter]

/-! ### Blocks and binders -/

theorem advances_block (henter : Steady enter) : Advances setting enter block := by
  have hitem : Advances setting enter (ignore expr) := by simp
  simp +decide [block, advances_items henter _ _ hitem]

theorem advances_quantDecl (henter : Steady enter) : Advances setting enter quantDecl := by
  simp +decide [quantDecl, advances_nameList henter]

theorem advances_quantDecls (henter : Steady enter) : Advances setting enter quantDecls := by
  have hsees : Sees setting enter (andAlso (currentIs Punct.comma) (ahead declarationBehind)) :=
    (sees_currentIs _).andAlso fun _ => rfl
  have hround := hsees.guarded (takes_bump.bind henter fun _ => quantDecl)
  simp [quantDecls, hround.advancing, advances_quantDecl henter]

theorem advances_binderBody (henter : Steady enter) : Advances setting enter binderBody := by
  simp [binderBody, advances_block henter]

theorem advances_letDecl : Advances setting enter letDecl := by
  simp +decide [letDecl]

theorem advances_bindings (henter : Steady enter) (kind : NodeKind) (h : Plain kind) :
    Advances setting enter (bindings kind) := by
  have hround := sees_atCommaName.guarded
    (takes_bump.bind henter fun _ => letDecl : Takes setting enter _ _)
  simp [bindings, h, hround.advancing, advances_letDecl, advances_binderBody henter]

theorem advances_quantified (henter : Steady enter) (quantifier : TokenKind) :
    Advances setting enter (quantified quantifier) := by
  simp +decide [quantified, advances_quantDecls henter, advances_binderBody henter]

theorem advances_binder (henter : Steady enter) (keyword : TokenKind) :
    Advances setting enter (binder keyword) := by
  unfold binder
  split
  · exact advances_bindings henter _ (by decide)
  · exact advances_bindings henter _ (by decide)
  · exact advances_quantified henter _

@[simp] theorem advances_atQuantifier : Advances setting enter atQuantifier := by
  simp [atQuantifier]

@[simp] theorem advances_atBinder : Advances setting enter atBinder := by
  simp [atBinder]

/-! ### Atoms -/

theorem advances_parenthesized : Advances setting enter parenthesized := by
  simp +decide [parenthesized]

theorem advances_comprehension (henter : Steady enter) :
    Advances setting enter comprehension := by
  simp +decide [comprehension, advances_quantDecls henter, advances_block henter]

theorem plain_of_atomForm {first second : Option TokenKind} {kind : NodeKind}
    (h : AtomForm.ofTokens? first second = some (.oneToken kind)) : Plain kind := by
  unfold AtomForm.ofTokens? at h
  split at h <;> try split at h
  all_goals cases h <;> decide

theorem advances_atomForm (henter : Steady enter) {first second : Option TokenKind}
    {form : AtomForm} (h : AtomForm.ofTokens? first second = some form) :
    Advances setting enter form.rule := by
  cases form with
  | oneToken kind => simpa [AtomForm.rule] using plain_of_atomForm h
  | negativeNumber => simp +decide [AtomForm.rule]
  | nameRef => simp +decide [AtomForm.rule, advances_qualName henter]
  | atName => simp +decide [AtomForm.rule]
  | parenthesized => exact advances_parenthesized
  | braced => simp [AtomForm.rule, advances_comprehension henter, advances_block henter]

theorem advances_atom (henter : Steady enter) : Advances setting enter atom := by
  unfold atom
  refine ⟨trivial, fun first => ⟨trivial, fun second => ?_⟩⟩
  dsimp only
  split
  · next hform => simp [advances_atomForm henter hform]
  · simp

/-! ### Commands -/

theorem advances_typescope (henter : Steady enter) : Advances setting enter typescope := by
  simp +decide [typescope, advances_qualName henter]

theorem advances_typescopes (henter : Steady enter) : Advances setting enter typescopes := by
  have hsees : Sees setting enter (andAlso (currentIs Punct.comma)
      (nthPasses 1 [.number, .keyword .exactlyKw].contains) : Rule Nonterminal Bool) :=
    (sees_currentIs _).andAlso fun _ => rfl
  have hround := hsees.guarded (takes_bump.bind henter fun _ => typescope)
  simp [typescopes, hround.advancing, advances_typescope henter]

theorem advances_scope (henter : Steady enter) : Advances setting enter scope := by
  simp +decide [scope, atTypescope, advances_typescopes henter]

theorem advances_scopeAndBounds (henter : Steady enter) :
    Advances setting enter scopeAndBounds := by
  simp [scopeAndBounds, atScope, advances_scope henter, advances_bounds henter]

theorem advances_optionalTarget (henter : Steady enter) :
    Advances setting enter optionalTarget := by
  simp [optionalTarget, advances_qualName henter, advances_block henter]

theorem advances_cmdDecl (henter : Steady enter) : Advances setting enter cmdDecl := by
  simp +decide [cmdDecl, advances_optionalTarget henter, advances_scopeAndBounds henter]

theorem advances_instDecl (henter : Steady enter) : Advances setting enter instDecl := by
  simp +decide [instDecl, atScope, advances_bounds henter, advances_scope henter]

/-! ### Predicates -/

theorem advances_declBody (henter : Steady enter) (owner : BodyOwner) :
    Advances setting enter (declBody owner) := by
  simp [declBody, advances_block henter]

theorem advances_optionalReceiver (henter : Steady enter) :
    Advances setting enter optionalReceiver := by
  simp +decide [optionalReceiver, advances_qualName henter]

theorem advances_paraDecl (henter : Steady enter) : Advances setting enter paraDecl := by
  simp +decide [paraDecl, advances_nameList henter]

theorem moves_paraItem (henter : Steady enter) (closer : Punct) :
    Moves setting enter (paraItem closer) := by
  have hcomma : Moves setting enter (eat Punct.comma) := moves_eat _
  unfold paraItem
  refine .bind henter _ fun closed => .bind henter _ fun ended => .ite (fun _ => moves_false) ?_
  refine fun _ => .bind henter _ fun parameter => .bind henter _ fun recovered => .ite ?_ ?_
  · exact fun _ => .bind henter _ fun _ => hcomma
  · exact fun _ => .ite (fun _ => moves_false) fun _ => .bind henter _ fun _ => hcomma

theorem advances_paraDecls (henter : Steady enter) : Advances setting enter paraDecls := by
  have hitem : ∀ closer, Advances setting enter (paraItem closer) := by
    simp [paraItem, advances_paraDecl henter, advances_skipUntil]
  simp +decide [paraDecls, (moves_paraItem henter _).advancing, hitem]

theorem advances_optionalParaDecls (henter : Steady enter) :
    Advances setting enter optionalParaDecls := by
  simp [optionalParaDecls, advances_paraDecls henter]

theorem advances_predDecl (henter : Steady enter) : Advances setting enter predDecl := by
  simp +decide [predDecl, advances_optionalReceiver henter, advances_optionalParaDecls henter,
    advances_declBody henter]

theorem advances_funDecl (henter : Steady enter) : Advances setting enter funDecl := by
  simp +decide [funDecl, advances_optionalReceiver henter, advances_optionalParaDecls henter,
    advances_declBody henter]

theorem advances_factDecl (henter : Steady enter) : Advances setting enter factDecl := by
  simp +decide [factDecl, advances_declBody henter]

/-! ### Signatures -/

theorem moves_sigModifier (henter : Steady enter) : Moves setting enter sigModifier := by
  have hbump : Takes setting enter AnyToken (do bump; return true : Rule Nonterminal Bool) :=
    takes_bump.bind henter _
  have hmult : Takes setting enter AnyToken (do tokenNode .mult; return true) :=
    (takes_tokenNode _).bind henter _
  intro s hs hmore
  have hsees : Sees setting enter (currentIn Operator.sigMultiplicities) := sees_currentIn _
  have hseen := (hsees s).2
  simp only [sigModifier, run_bind, run_currentIs, run_currentIn, run_ite, run_pure]
    at hmore hseen ⊢
  split
  · next hvar =>
    exact Takes.behind henter words_requireTemporal (fun _ => hbump) s hs
      (State.kindAt_zero_ne_none (eq_of_beq hvar))
  · next hvar =>
    rw [if_neg hvar] at hmore
    split
    · next habstract => exact hbump s hs (State.kindAt_zero_ne_none (eq_of_beq habstract))
    · next habstract =>
      rw [if_neg habstract] at hmore
      split
      · next hmany => exact hmult s hs (hseen hmany)
      · next hmany =>
        rw [if_neg hmany] at hmore
        cases hmore

theorem advances_sigExt (henter : Steady enter) : Advances setting enter sigExt := by
  have hround := (moves_eat Punct.plus : Moves setting enter _).guarded henter (ignore qualName)
  simp +decide [sigExt, hround.advancing, advances_qualName henter]

theorem advances_fieldDecl (henter : Steady enter) : Advances setting enter fieldDecl := by
  simp +decide [fieldDecl, advances_nameList henter]

/-- A field takes its first token. -/
theorem takes_fieldDecl (henter : Steady enter) :
    Takes setting enter (fun k => k = some (.keyword .varKw) ∨ k = some .ident) fieldDecl := by
  refine .node (.ofCurrentIs ?_ ?_) _
  · have hbump : Takes setting enter (· = some (.keyword .varKw)) bump := takes_bump.mono (by simp)
    exact .bind henter (.behind henter words_requireTemporal fun _ => hbump) _
  · refine .behind henter (fun _ => rfl) fun _ => .bind henter (.ignore ?_) _
    exact (takes_nameList henter).mono fun k hk => hk.1.resolve_left hk.2

theorem moves_fieldItem (henter : Steady enter) : Moves setting enter fieldItem := by
  intro s hs hmore
  simp only [fieldItem, atField, run_bind, run_currentIs, run_atEnd, run_currentIn,
    run_atRecoveryPoint, run_ite, run_pure] at hmore ⊢
  split
  · next hdone =>
    rw [if_pos hdone] at hmore
    cases hmore
  · next hdone =>
    rw [if_neg hdone] at hmore
    have hsome : s.kindAt 0 ≠ none := fun hk => hdone (by simp [hk])
    split
    · next hfield =>
      have hfront : s.kindAt 0 = some (.keyword .varKw) ∨ s.kindAt 0 = some .ident := by
        obtain ⟨k, hk, hmem⟩ := Option.any_eq_true _ _ |>.mp hfield
        rw [hk]
        simpa using hmem
      dsimp only
      exact (takes_fieldDecl henter).followed henter fieldEnd hs hfront
    · next hfield =>
      rw [if_neg hfield] at hmore
      split
      · next hcomma => exact takes_skipToken henter _ s hs hsome
      · next hcomma =>
        rw [if_neg hcomma] at hmore
        split
        · next hrecovered =>
          rw [if_pos hrecovered] at hmore
          cases hmore
        · dsimp only
          exact (takes_skipUntil henter _ _).followed henter fieldEnd hs hsome

theorem advances_fieldList (henter : Steady enter) : Advances setting enter fieldList := by
  have hitem : Advances setting enter fieldItem := by
    simp +decide [fieldItem, atField, fieldEnd, advances_fieldDecl henter, advances_skipUntil]
  simp +decide [fieldList, (moves_fieldItem henter).advancing, hitem]

theorem advances_sigDecl (henter : Steady enter) : Advances setting enter sigDecl := by
  have hmodifier : Advances setting enter sigModifier := by simp +decide [sigModifier]
  simp +decide [sigDecl, (moves_sigModifier henter).advancing, hmodifier, advances_expectToken,
    advances_nameList henter, advances_sigExt henter, advances_fieldList henter,
    advances_block henter]

/-! ### Tests -/

theorem advances_testDecl (henter : Steady enter) : Advances setting enter testDecl := by
  simp +decide [testDecl, testResult, advances_optionalTarget henter,
    advances_scopeAndBounds henter]

theorem advances_testBlock (henter : Steady enter) (context : Context)
    {item : Rule Nonterminal Unit} (h : Advances setting enter item) :
    Advances setting enter (testBlock context item) := by
  simp +decide [testBlock, advances_items henter _ _ h]

theorem advances_testExpectDecl (henter : Steady enter) :
    Advances setting enter testExpectDecl := by
  have hitem : Advances setting enter testItem := by
    simp [testItem, advances_testDecl henter]
  simp +decide [testExpectDecl, advances_testBlock henter _ hitem]

theorem advances_exampleDecl (henter : Steady enter) : Advances setting enter exampleDecl := by
  simp +decide [exampleDecl, advances_bounds henter]

/-! ### Modules -/

theorem advances_moduleDecl (henter : Steady enter) : Advances setting enter moduleDecl := by
  simp +decide [moduleDecl, advances_qualName henter, advances_nameList henter]

theorem advances_importDecl (henter : Steady enter) : Advances setting enter importDecl := by
  simp +decide [importDecl, importTarget, advances_qualName henter, advances_qualNameList henter]

theorem advances_optionValue (henter : Steady enter) : Advances setting enter optionValue := by
  simp [optionValue, advances_qualName henter]

theorem advances_evalDecl : Advances setting enter evalDecl := by
  simp +decide [evalDecl]

theorem advances_sexprDecl : Advances setting enter sexprDecl := by
  simp +decide [sexprDecl]

end Nested
end RelLang.Grammar
