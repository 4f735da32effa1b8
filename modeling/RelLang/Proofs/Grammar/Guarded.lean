import RelLang.Proofs.Grammar.Orderly
import RelLang.Proofs.Rule.Spare

/-!
# Where rules skip

The rules of the grammar are orderly, and they make a token an error only where they have
looked first whether it is one that the reading recovers at. `Guarded` says both of a rule. The
one place without such a guard is the list of declarations of a module, and behind a single
expression all of the text is skipped.
-/

namespace RelLang.Grammar

open Rule

/-! ### Guarded rules -/

/-- The rule only looks, and where what it yields is among `clears`, no paragraph begins with the
current token. -/
def Clears {α : Type} (test : Rule Nonterminal α) (clears : α → Bool) : Prop :=
  ∀ setting enter s, (test.run setting enter s).2 = s ∧
    (clears (test.run setting enter s).1 = true → .topLevel ∈ s.contexts → s.Clear)

/-- An orderly rule that skips only where no paragraph begins. Whether that is known where the
rule begins is told by `clear`. -/
inductive Guarded : Bool → {α : Type} → Rule Nonterminal α → Prop where
  | elementary {clear : Bool} {α : Type} {rule : Rule Nonterminal α}
    (hrule : Elementary (· != .error) rule) : Guarded clear rule
  | ahead {clear : Bool} (test : List TokenKind → Bool) : Guarded clear (.ahead test)
  | requireTemporal {clear : Bool} : Guarded clear .requireTemporal
  | andThen {clear : Bool} {α β : Type} {first : Rule Nonterminal α}
    {next : α → Rule Nonterminal β} (hfirst : Guarded clear first)
    (hnext : ∀ a, Guarded false (next a)) : Guarded clear (.andThen first next)
  /-- What is known stays known when the rule goes on looking. -/
  | look {clear : Bool} {α β : Type} {test : Rule Nonterminal α} {next : α → Rule Nonterminal β}
    (clears : α → Bool) (htest : Elementary (· != .error) test) (hclears : Clears test clears)
    (hnext : ∀ a, Guarded (clears a || clear) (next a)) : Guarded clear (.andThen test next)
  | node {clear : Bool} {α : Type} {kind : NodeKind} {body : Rule Nonterminal α}
    (hkind : (kind != .error) = true) (hbody : Guarded false body) :
    Guarded clear (.node kind body)
  | group {clear : Bool} {α : Type} {body : Rule Nonterminal α} (hbody : Guarded false body) :
    Guarded clear (.group body)
  | enclose {clear : Bool} {α : Type} {kind : NodeKind} {body : Rule Nonterminal α}
    (hkind : (kind != .error) = true) (hbody : Guarded false body) :
    Guarded clear (.enclose kind body)
  | within {clear : Bool} {α : Type} (context : Context) {body : Rule Nonterminal α}
    (hbody : Guarded false body) : Guarded clear (.within context body)
  | loop {clear : Bool} {σ : Type} (a : σ) {body : σ → Rule Nonterminal (σ × Bool)}
    (hbody : ∀ a, Guarded false (body a)) : Guarded clear (.loop a body)
  | opener {clear : Bool} {α : Type} {next : ByteRange → Rule Nonterminal α}
    (hnext : ∀ r, Guarded false (next r)) (hplace : Indifferent next) :
    Guarded clear (.andThen .currentRange next)
  | skipToken {clear : Bool} {problem : Problem} (hclear : clear = true)
    (hproblem : problem.ofRule = true) : Guarded clear (Rule.skipToken problem)
  | skipUntil {clear : Bool} {problem : Problem} (stops : List TokenKind) (hclear : clear = true)
    (hproblem : problem.ofRule = true) : Guarded clear (Rule.skipUntil problem stops)
  | items {clear : Bool} (closer : Punct) {code : Code} {item : Rule Nonterminal Unit}
    (hcode : (Problem.listItem code).ofRule = true) (hitem : Guarded false item)
    (hidle : Idle item) : Guarded clear (Rule.items closer code item)
  | expression {clear : Bool} (level : Nat) : Guarded clear (.call (.expression level))
  | boundValue {clear : Bool} : Guarded clear boundValue
  | optionDecl {clear : Bool} : Guarded clear optionDecl

theorem Guarded.orderly {clear : Bool} {α : Type} {rule : Rule Nonterminal α}
    (h : Guarded clear rule) : Orderly rule := by
  induction h with
  | elementary hrule => exact .elementary hrule
  | ahead test => exact .ahead test
  | requireTemporal => exact .requireTemporal
  | andThen _ _ hfirst hnext => exact .andThen hfirst hnext
  | look _ htest _ _ hnext => exact .andThen (.elementary htest) hnext
  | node hkind _ hbody => exact .node hkind hbody
  | group _ hbody => exact .group hbody
  | enclose hkind _ hbody => exact .enclose hkind hbody
  | within context _ hbody => exact .within context hbody
  | loop a _ hbody => exact .loop a hbody
  | opener _ hplace hnext => exact .opener hnext hplace
  | skipToken _ hproblem => exact .skipToken hproblem
  | skipUntil stops _ hproblem => exact .skipUntil stops hproblem
  | items closer hcode _ hidle hitem => exact .items closer hcode hitem hidle
  | expression level => exact .expression level
  | boundValue => exact .boundValue
  | optionDecl => exact .optionDecl

namespace Guarded

variable {clear : Bool} {α : Type} {β : Type}

theorem pure (a : α) : Guarded clear (Pure.pure a) := elementary (.pure a)

theorem bump : Guarded clear .bump := elementary .bump

theorem report {problem : Problem} (hproblem : problem.ofRule = true) :
    Guarded clear (.report problem) :=
  elementary (.report hproblem)

theorem bind {first : Rule Nonterminal α} {next : α → Rule Nonterminal β}
    (hfirst : Guarded clear first) (hnext : ∀ a, Guarded false (next a)) :
    Guarded clear (first >>= next) :=
  andThen hfirst hnext

theorem place {next : ByteRange → Rule Nonterminal α} (hnext : ∀ r, Guarded false (next r))
    (hplace : Indifferent next) : Guarded clear (Rule.currentRange >>= next) :=
  opener hnext hplace

theorem ite {c : Prop} [Decidable c] {yes no : Rule Nonterminal α} (hyes : Guarded clear yes)
    (hno : Guarded clear no) : Guarded clear (if c then yes else no) := by
  split
  · exact hyes
  · exact hno

theorem «when» {condition : Bool} {rule : Rule Nonterminal Unit} (hrule : Guarded clear rule) :
    Guarded clear (when condition rule) :=
  ite hrule (pure ())

theorem pick {condition : Bool} {yes no : Rule Nonterminal α} (hyes : Guarded clear yes)
    (hno : Guarded clear no) : Guarded clear (pick condition yes no) :=
  ite hyes hno

theorem ignore {rule : Rule Nonterminal α} (hrule : Guarded clear rule) :
    Guarded clear (ignore rule) :=
  bind hrule fun _ => pure ()

theorem repeated {body : Rule Nonterminal Bool} (hbody : Guarded false body) :
    Guarded clear (repeated body) :=
  loop () fun _ => bind hbody fun _ => pure _

theorem peek (n : Nat) : Guarded clear (.peek n) := elementary (.peek n)

theorem nthIs (n : Nat) (kind : TokenKind) : Guarded clear (nthIs n kind) :=
  elementary (.nthIs n kind)

theorem currentIs {kind : TokenKind} : Guarded clear (currentIs kind) := nthIs 0 kind

theorem nthPasses (n : Nat) (test : TokenKind → Bool) : Guarded clear (nthPasses n test) :=
  elementary (.nthPasses n test)

theorem currentIn {kinds : List TokenKind} : Guarded clear (currentIn kinds) :=
  nthPasses 0 kinds.contains

theorem atEnd : Guarded clear atEnd := elementary .atEnd

theorem andAlso {first second : Rule Nonterminal Bool} (hfirst : Guarded clear first)
    (hsecond : Guarded false second) : Guarded clear (andAlso first second) :=
  bind hfirst fun _ => ite hsecond (pure _)

theorem orElse {first second : Rule Nonterminal Bool} (hfirst : Guarded clear first)
    (hsecond : Guarded false second) : Guarded clear (orElse first second) :=
  bind hfirst fun _ => ite (pure _) hsecond

theorem eat {kind : TokenKind} : Guarded clear (eat kind) := elementary .eat

theorem tokenNode {kind : NodeKind} (hkind : (kind != .error) = true) :
    Guarded clear (tokenNode kind) :=
  node hkind bump

/-! ### Guards -/

/-- A look ahead that says nothing about the current token. -/
theorem looking {test : Rule Nonterminal α} {next : α → Rule Nonterminal β}
    (htest : Elementary (· != .error) test)
    (hlooks : ∀ setting enter s, (test.run setting enter s).2 = s)
    (hnext : ∀ a, Guarded clear (next a)) : Guarded clear (test >>= next) :=
  look (fun _ => false) htest (fun setting enter s => ⟨hlooks setting enter s, fun h => nomatch h⟩)
    hnext

/-- What is no recovery point begins no paragraph. -/
theorem unlessRecovered {next : Bool → Rule Nonterminal β}
    (hnext : ∀ recovered, Guarded (!recovered || clear) (next recovered)) :
    Guarded clear (Rule.atRecoveryPoint >>= next) := by
  refine look (fun recovered => !recovered) .atRecoveryPoint (fun setting enter s => ⟨rfl, fun hclear htop => ?_⟩) hnext
  exact State.clear_of_not_recovered htop (by simpa using hclear)

/-- A token of a kind that begins no paragraph. -/
theorem ifCurrent {kind : TokenKind} (hkind : kind ∉ Context.paragraphStarts)
    {next : Bool → Rule Nonterminal β} (hnext : ∀ present, Guarded (present || clear) (next present)) :
    Guarded clear (Rule.currentIs kind >>= next) := by
  refine look (fun present => present) .currentIs
    (fun setting enter s => ⟨rfl, fun hpresent _ k hk => ?_⟩) hnext
  have hcurrent : s.kindAt 0 = some kind := by simpa using hpresent
  rw [hk] at hcurrent
  exact Option.some.inj hcurrent ▸ hkind

theorem expectToken {kind : TokenKind} {code : Code} {opener : Option ByteRange}
    (hmissing : (Problem.missing kind code opener).ofRule = true) :
    Guarded clear (expectToken kind code opener) := by
  refine bind eat fun _ => ite (pure _) <| unlessRecovered fun blocked =>
    looking (.nthIs 1 kind) (fun _ _ _ => rfl) fun behind => ?_
  cases blocked with
  | true => exact bind (report hmissing) fun _ => pure _
  | false =>
    exact ite (bind (skipToken rfl rfl) fun _ => bind bump fun _ => pure _)
      (bind (report hmissing) fun _ => pure _)

theorem expect {kind : TokenKind} : Guarded clear (expect kind) :=
  expectToken (Problem.ofRule_missing kind none)

theorem expectCloser {kind : TokenKind} {opener : ByteRange} :
    Guarded clear (expectCloser kind opener) :=
  expectToken (Problem.ofRule_missing kind (some opener))

end Guarded

section

variable {clear : Bool}

/-! ### Names -/

theorem guarded_name : Guarded clear name := .elementary elementary_name

theorem guarded_atCommaName : Guarded clear atCommaName := .elementary elementary_atCommaName

theorem guarded_nameList : Guarded clear nameList := .elementary elementary_nameList

theorem guarded_atQualName : Guarded clear atQualName := .elementary elementary_atQualName

theorem guarded_qualName : Guarded clear qualName := .elementary elementary_qualName

theorem guarded_qualNameList : Guarded clear qualNameList := .elementary elementary_qualNameList

theorem guarded_optionalMult (allowed : List TokenKind) : Guarded clear (optionalMult allowed) :=
  .bind .currentIn fun _ => .when (.tokenNode rfl)

/-! ### Blocks and binders -/

theorem guarded_exprAt (level : Nat) : Guarded clear (exprAt level) :=
  .bind (.expression level) fun _ => .bind (.when (.report rfl)) fun _ => .pure _

theorem guarded_expr : Guarded clear expr := guarded_exprAt 0

theorem guarded_operand (level : Nat) (after : TokenKind) : Guarded clear (operand level after) :=
  .bind (.expression level) fun _ => .when (.report rfl)

theorem guarded_arguments : Guarded clear arguments :=
  .within _ <| .node rfl <| .bind .currentIs fun _ => .when <| .bind (.ignore guarded_expr) fun _ =>
    .repeated <| .bind .eat fun _ => .bind (.when <| .ignore guarded_expr) fun _ => .pure _

theorem guarded_block : Guarded clear block :=
  .node rfl <| .place
    (fun _ => .bind (.ignore .expect) fun _ =>
      .bind (.within _ <| .items _ rfl (.ignore guarded_expr) idle_expr) fun _ =>
      .ignore .expectCloser)
    (.bind fun _ => .bind fun _ => .closer _)

theorem guarded_quantDecl : Guarded clear quantDecl :=
  .node rfl <| .bind (.ignore .eat) fun _ => .bind (.ignore guarded_nameList) fun _ =>
    .bind (.ignore .expect) fun _ => .bind (guarded_optionalMult _) fun _ => .ignore guarded_expr

theorem guarded_quantDecls : Guarded clear quantDecls :=
  .bind guarded_quantDecl fun _ => .repeated <| .bind (.andAlso .currentIs (.ahead _)) fun _ =>
    .bind (.when <| .bind .bump fun _ => guarded_quantDecl) fun _ => .pure _

theorem guarded_binderBody : Guarded clear binderBody :=
  .bind .eat fun _ => .ite (.ignore guarded_expr) <| .bind .currentIs fun _ =>
    .ite guarded_block (.report rfl)

theorem guarded_atQuantifier : Guarded clear atQuantifier := .andAlso .currentIn (.ahead _)

theorem guarded_atBinder : Guarded clear atBinder := .orElse (.nthPasses _ _) guarded_atQuantifier

theorem guarded_quantified (quantifier : TokenKind) : Guarded clear (quantified quantifier) :=
  .node rfl <| .bind .bump fun _ => .bind (.ahead _) fun _ =>
    .bind (.pick guarded_quantDecls (.report rfl)) fun _ => guarded_binderBody

theorem guarded_letDecl : Guarded clear letDecl :=
  .node rfl <| .bind (.ignore guarded_name) fun _ => .bind (.ignore .expect) fun _ =>
    .ignore guarded_expr

theorem guarded_bindings {kind : NodeKind} (hkind : (kind != .error) = true) :
    Guarded clear (bindings kind) :=
  .node hkind <| .bind .bump fun _ => .bind guarded_letDecl fun _ =>
    .bind (.repeated <| .bind guarded_atCommaName fun _ =>
      .bind (.when <| .bind .bump fun _ => guarded_letDecl) fun _ => .pure _) fun _ =>
    guarded_binderBody

theorem guarded_binder (keyword : TokenKind) : Guarded clear (binder keyword) := by
  unfold binder
  split
  · exact guarded_bindings rfl
  · exact guarded_bindings rfl
  · exact guarded_quantified _

/-! ### Expressions -/

theorem guarded_parenthesized : Guarded clear parenthesized :=
  .node rfl <| .place
    (fun _ => .bind .bump fun _ => .bind (.within _ <| .ignore guarded_expr) fun _ =>
      .ignore .expectCloser)
    (.bind fun _ => .bind fun _ => .closer _)

theorem guarded_comprehension : Guarded clear comprehension :=
  .node rfl <| .place
    (fun _ => .bind .bump fun _ =>
      .bind (.within _ <| .bind guarded_quantDecls fun _ => .bind .eat fun _ =>
        .ite (.ignore guarded_expr) <| .bind .currentIs fun _ => .when guarded_block) fun _ =>
      .ignore .expectCloser)
    (.bind fun _ => .bind fun _ => .closer _)

theorem node_ne_error_of_atomForm {first second : Option TokenKind} {kind : NodeKind}
    (h : AtomForm.ofTokens? first second = some (.oneToken kind)) : (kind != .error) = true := by
  unfold AtomForm.ofTokens? at h
  split at h <;> try split at h
  all_goals cases h <;> rfl

theorem guarded_atomForm {first second : Option TokenKind} {form : AtomForm}
    (h : AtomForm.ofTokens? first second = some form) : Guarded clear form.rule := by
  cases form with
  | oneToken kind => exact .tokenNode (node_ne_error_of_atomForm h)
  | negativeNumber => exact .node rfl <| .bind .bump fun _ => .bump
  | nameRef => exact .node rfl <| .ignore guarded_qualName
  | atName => exact .node rfl <| .bind .bump fun _ => (.tokenNode rfl)
  | parenthesized => exact guarded_parenthesized
  | braced => exact .bind (.ahead _) fun _ => .ite guarded_comprehension guarded_block

theorem guarded_atom : Guarded clear atom := by
  refine .bind (.peek 0) fun first => .bind (.peek 1) fun second => ?_
  split
  · next hform => exact .bind (guarded_atomForm hform) fun _ => .pure _
  · exact .pure _

/-- No operator makes a node of unaccepted text. -/
theorem node_ne_error_of_row : ∀ row ∈ Operator.table, (row.node != .error) = true := by
  decide

theorem guarded_operandHead : Guarded clear operandHead := by
  refine .bind (.peek 0) fun first => .bind guarded_atBinder fun isBinder => ?_
  split
  · exact .pure _
  · refine .ite (.bind (guarded_binder _) fun _ => .pure _) ?_
    split
    · next hrow =>
      exact .bind (.node (node_ne_error_of_row _ (Operator.mem_table_of_frontRow? hrow)) <|
        .bind (.when .requireTemporal) fun _ => .bind .bump fun _ => guarded_operand _ _) fun _ =>
        .pure _
    · exact guarded_atom

theorem guarded_infixTail (node : NodeKind) (level : Nat) (operator : TokenKind) :
    Guarded clear (infixTail node level operator) := by
  have hcompare : Guarded clear compareOperator :=
    .node rfl <| .bind (.nthPasses _ _) fun _ => .bind (.when .bump) fun _ => .bump
  have harrow : Guarded clear arrowOperator :=
    .node rfl <| .bind .currentIn fun _ => .bind (.when .bump) fun _ => .bind .bump fun _ =>
      .bind .currentIn fun _ => .bind guarded_atQuantifier fun _ => .bind (.nthPasses _ _) fun _ =>
      .when .bump
  have hoperator : Guarded clear (infixOperator node) := by
    unfold infixOperator
    split
    · exact hcompare
    · exact harrow
    · exact .bump
  exact .bind hoperator fun _ => .bind (guarded_operand _ _) fun _ => .bind .currentIs fun _ =>
    .when <| .bind .bump fun _ => guarded_operand _ _

theorem guarded_postfixTail (operator : TokenKind) : Guarded clear (postfixTail operator) :=
  .ite (.bind .bump fun _ => .bind guarded_arguments fun _ => .ignore (.expectToken rfl)) .bump

theorem node_ne_error_of_extension {first : TokenKind} {second : Option TokenKind}
    {extension : Operator.Extension} (h : Operator.extension? first second = some extension) :
    (extension.node != .error) = true := by
  obtain ⟨k, row, hrow, rfl, -⟩ := Operator.ofRow_of_extension? h
  exact node_ne_error_of_row row (Operator.mem_table_of_infixRow? hrow)

theorem guarded_extendOnce (level : Nat) : Guarded clear (extendOnce level) := by
  refine .bind (.peek 0) fun first => .bind (.peek 1) fun second => ?_
  split
  · exact .pure _
  · split
    · exact .pure _
    · next hextension =>
      refine .ite (.pure _) <| .bind (.when .requireTemporal) fun _ =>
        .bind (.enclose (node_ne_error_of_extension hextension) ?_) fun _ => .pure _
      split
      · exact guarded_infixTail _ _ _
      · exact guarded_postfixTail _

theorem guarded_extend (level : Nat) : Guarded clear (extend level) :=
  .repeated (guarded_extendOnce level)

theorem guarded_expression (level : Nat) : Guarded clear (expression level) :=
  .group <| .bind guarded_operandHead fun _ => .bind (.when <| guarded_extend level) fun _ =>
    .pure _

/-! ### Bounds -/

theorem guarded_boundProduct : Guarded clear boundProduct :=
  .node rfl <| .bind .boundValue fun _ => .repeated <| .bind (.peek 0) fun _ =>
    .bind (.peek 1) fun _ => .bind (.peek 2) fun _ =>
    .bind (.when <| .bind .bump fun _ => .boundValue) fun _ => .pure _

theorem guarded_boundUnion : Guarded clear boundUnion :=
  .node rfl <| .bind guarded_boundProduct fun _ => .repeated <| .bind .eat fun _ =>
    .bind (.when guarded_boundProduct) fun _ => .pure _

theorem guarded_boundGroup : Guarded clear boundGroup :=
  .place
    (fun _ => .bind .bump fun _ => .bind guarded_boundUnion fun _ =>
      .bind (.ignore .expectCloser) fun _ => .pure _)
    (.bind fun _ => .bind fun _ => (Indifferent.closer _).thenPure true)

theorem guarded_boundLhs : Guarded clear boundLhs :=
  .node rfl <| .bind .eat fun _ => .bind (.ignore guarded_qualName) fun _ => .loop _ fun _ =>
    .bind (.andAlso .currentIs (.nthPasses _ _)) fun _ =>
    .bind (.when <| .bind .bump fun _ => .ignore guarded_qualName) fun _ => .pure _

theorem guarded_bound : Guarded clear bound :=
  .node rfl <| .bind .eat fun _ => .bind guarded_boundLhs fun _ => .when <|
    .bind .currentIn fun _ => .ite
      (.bind (.tokenNode rfl) fun _ => guarded_boundUnion)
      (.when (.report rfl))

theorem guarded_bounds : Guarded clear bounds :=
  .node rfl <| .bind (.ignore .eat) fun _ => .bind .currentIs fun _ => .ite
    (.place
      (fun _ => .bind .bump fun _ =>
        .bind (.within _ <| .items _ rfl
          (.bind (.orElse .currentIn guarded_atQualName) fun _ => .when guarded_bound)
          idle_bound) fun _ =>
        .ignore .expectCloser)
      (.bind fun _ => .bind fun _ => .closer _))
    (.bind guarded_atQualName fun _ => .ite (.ignore guarded_qualName) (.report rfl))

/-! ### Commands and instances -/

theorem guarded_atScope : Guarded clear atScope :=
  .andAlso .currentIs (.orElse (.nthIs _ _) (.andAlso (.nthIs _ _) (.nthIs _ _)))

theorem guarded_typescope : Guarded clear typescope :=
  .node rfl <| .bind (.ignore .eat) fun _ => .bind .currentIs fun _ =>
    .ite (.bind .bump fun _ => .ignore guarded_qualName) (.report rfl)

theorem guarded_typescopes : Guarded clear typescopes :=
  .bind guarded_typescope fun _ => .repeated <|
    .bind (.andAlso .currentIs (.nthPasses _ _)) fun _ =>
    .bind (.when <| .bind .bump fun _ => guarded_typescope) fun _ => .pure _

theorem guarded_scope : Guarded clear scope :=
  .node rfl <| .within _ <| .bind (.ignore .expect) fun _ =>
    .bind (.orElse .currentIs <| .andAlso .currentIs <|
      .orElse (.nthPasses _ _) (.andAlso (.nthIs _ _) (.nthIs _ _))) fun _ =>
    .bind .currentIs fun _ => .ite guarded_typescopes <|
      .ite (.bind .bump fun _ => .bind .eat fun _ => .when guarded_typescopes) (.report rfl)

theorem guarded_scopeAndBounds : Guarded clear scopeAndBounds :=
  .bind guarded_atScope fun _ => .bind (.when guarded_scope) fun _ => .bind .eat fun _ =>
    .when guarded_bounds

theorem guarded_optionalTarget : Guarded clear optionalTarget :=
  .bind guarded_atQualName fun _ => .bind .currentIs fun _ =>
    .ite (.ignore guarded_qualName) (.when guarded_block)

theorem guarded_cmdDecl : Guarded clear cmdDecl :=
  .node rfl <| .bind .currentIs fun _ =>
    .bind (.when <| .bind (.ignore guarded_name) fun _ => .bump) fun _ => .bind .currentIn fun _ =>
    .bind (.pick .bump (.report rfl)) fun _ => .bind guarded_optionalTarget fun _ =>
    guarded_scopeAndBounds

theorem guarded_instDecl : Guarded clear instDecl :=
  .node rfl <| .bind .bump fun _ => .bind (.ignore guarded_name) fun _ =>
    .bind guarded_bounds fun _ => .bind guarded_atScope fun _ => .when guarded_scope

/-! ### Predicates, functions and facts -/

theorem guarded_declBody (owner : BodyOwner) : Guarded clear (declBody owner) :=
  .bind .currentIs fun _ => .ite guarded_block (.report rfl)

theorem guarded_optionalReceiver : Guarded clear optionalReceiver :=
  .bind (.ahead _) fun _ => .when <| .node rfl <| .bind (.ignore guarded_qualName) fun _ => .bump

theorem guarded_paraDecl : Guarded clear paraDecl :=
  .node rfl <| .bind (.ignore .eat) fun _ => .bind (.ignore guarded_nameList) fun _ =>
    .bind (.ignore .expect) fun _ => .bind (guarded_optionalMult _) fun _ => .ignore guarded_expr

theorem guarded_paraItem (closer : Punct) : Guarded clear (paraItem closer) := by
  refine .bind .currentIs fun _ => .bind .atEnd fun _ => .ite (.pure _) <|
    .bind .currentIn fun parameter => .unlessRecovered fun recovered =>
    .ite (.bind guarded_paraDecl fun _ => .eat) ?_
  cases recovered with
  | true => exact .pure _
  | false => exact .bind (.skipUntil _ rfl rfl) fun _ => .eat

theorem guarded_paraDecls : Guarded clear paraDecls :=
  .node rfl <| .bind .currentIs fun _ => .place
    (fun _ => .bind .bump fun _ => .bind (.within _ <| .repeated <| guarded_paraItem _) fun _ =>
      .ignore .expectCloser)
    (.bind fun _ => .bind fun _ => .closer _)

theorem guarded_optionalParaDecls : Guarded clear optionalParaDecls :=
  .bind .currentIn fun _ => .when guarded_paraDecls

theorem guarded_predDecl : Guarded clear predDecl :=
  .node rfl <| .bind .bump fun _ => .bind .currentIs fun _ =>
    .bind (.when (.tokenNode rfl)) fun _ => .bind guarded_optionalReceiver fun _ =>
    .bind (.ignore guarded_name) fun _ =>
    .bind guarded_optionalParaDecls fun _ => guarded_declBody _

theorem guarded_funDecl : Guarded clear funDecl :=
  .node rfl <| .bind .bump fun _ => .bind guarded_optionalReceiver fun _ =>
    .bind (.ignore guarded_name) fun _ => .bind guarded_optionalParaDecls fun _ =>
    .bind (.ignore .expect) fun _ => .bind (guarded_optionalMult _) fun _ =>
    .bind (.ignore guarded_expr) fun _ => guarded_declBody _

theorem guarded_factDecl : Guarded clear factDecl :=
  .node rfl <| .bind .bump fun _ => .bind .currentIs fun _ =>
    .bind (.when <| .ignore guarded_name) fun _ => guarded_declBody _

/-! ### Signatures -/

theorem guarded_sigModifier : Guarded clear sigModifier :=
  .bind .currentIs fun _ => .bind .currentIs fun _ => .bind .currentIn fun _ =>
    .ite (.bind .requireTemporal fun _ => .bind .bump fun _ => .pure _) <|
      .ite (.bind .bump fun _ => .pure _) <|
        .ite (.bind (.tokenNode rfl) fun _ => .pure _) (.pure _)

theorem guarded_sigExt : Guarded clear sigExt :=
  .node rfl <| .bind .currentIs fun _ => .bind .bump fun _ =>
    .bind (.ignore guarded_qualName) fun _ => .when <| .repeated <| .bind .eat fun _ =>
    .bind (.when <| .ignore guarded_qualName) fun _ => .pure _

theorem guarded_fieldDecl : Guarded clear fieldDecl :=
  .node rfl <| .bind .currentIs fun _ =>
    .bind (.when <| .bind .requireTemporal fun _ => .bump) fun _ =>
    .bind (.ignore guarded_nameList) fun _ => .bind (.ignore .expect) fun _ =>
    .bind (guarded_optionalMult _) fun _ => .ignore (guarded_exprAt _)

theorem guarded_fieldEnd : Guarded clear fieldEnd :=
  .bind .eat fun _ => .when <| .bind .currentIn fun _ => .when (.report rfl)

theorem guarded_fieldItem : Guarded clear fieldItem := by
  refine .bind .currentIs fun _ => .bind .atEnd fun _ => .ite (.pure _) <|
    .bind .currentIn fun field => .ifCurrent (by decide) fun comma => .unlessRecovered
    fun recovered =>
    .ite (.bind guarded_fieldDecl fun _ => .bind guarded_fieldEnd fun _ => .pure _) ?_
  cases comma with
  | true => exact .bind (.skipToken (Bool.or_true _) rfl) fun _ => .pure _
  | false =>
    cases recovered with
    | true => exact .pure _
    | false => exact .bind (.skipUntil _ rfl rfl) fun _ => .bind guarded_fieldEnd fun _ => .pure _

theorem guarded_fieldList : Guarded clear fieldList :=
  .node rfl <| .place
    (fun _ => .bind .expect fun _ => .when <|
      .bind (.within _ <| .repeated guarded_fieldItem) fun _ => .ignore .expectCloser)
    (.bind fun _ => .when <| .bind fun _ => .closer _)

theorem guarded_sigDecl : Guarded clear sigDecl :=
  .node rfl <| .bind (.repeated guarded_sigModifier) fun _ =>
    .bind (.ignore (.expectToken rfl)) fun _ => .bind (.ignore guarded_nameList) fun _ =>
    .bind .currentIn fun _ =>
    .bind (.when guarded_sigExt) fun _ => .bind guarded_fieldList fun _ => .bind .currentIs fun _ =>
    .when guarded_block

/-! ### Assertions -/

theorem guarded_optionalArguments : Guarded clear optionalArguments :=
  .bind .currentIs fun _ => .when <| .place
    (fun _ => .bind .bump fun _ => .bind guarded_arguments fun _ => .ignore .expectCloser)
    (.bind fun _ => .bind fun _ => .closer _)

theorem guarded_assertionTail (form : AssertionForm) : Guarded clear (assertionTail form) := by
  refine .bind .bump fun _ => .bind .currentIs fun failing => .bind .bump fun _ => ?_
  cases form with
  | property =>
    exact .bind (.ignore .expect) fun _ => .bind (.ignore guarded_name) fun _ =>
      guarded_scopeAndBounds
  | quantifiedProperty =>
    exact .bind (.ignore .expect) fun _ => .bind (.ignore guarded_name) fun _ =>
      .bind guarded_optionalArguments fun _ => guarded_scopeAndBounds
  | satisfiability =>
    exact .bind (.when <| .ignore .eat) fun _ => guarded_scopeAndBounds
  | consistency =>
    exact .bind (.ignore .expect) fun _ => .bind (.ignore guarded_name) fun _ =>
      guarded_scopeAndBounds

theorem guarded_asserted : Guarded clear asserted :=
  .bind (.andAlso .currentIs (.nthIs _ _)) fun _ => .bind .currentIs fun _ =>
    .bind .currentIs fun _ => .bind (.andAlso (.pure _) (.ahead _)) fun _ =>
    .ite (.bind (.ignore guarded_name) fun _ => .bind guarded_block fun _ => .pure _) <|
    .ite (.bind (.group <| .bind guarded_block fun _ => guarded_extend 0) fun _ =>
      .bind .currentIs fun _ => .pure _) <|
    .ite (.group <| .bind .bump fun _ => .bind guarded_quantDecls fun _ =>
      .bind guarded_binderBody fun _ => .bind (.andAlso .currentIs (.nthPasses _ _)) fun _ =>
      .ite (.pure _) (.bind (.enclose rfl (.pure _)) fun _ => .pure _))
    (.bind (.ignore guarded_expr) fun _ => .pure _)

theorem guarded_assertion : Guarded clear assertion := by
  refine .group <| .bind .bump fun _ => .bind guarded_asserted fun body =>
    .ite (.bind (.enclose rfl (.pure _)) fun _ => .pure _) <| .bind .currentIs fun tagged =>
    .bind (.peek 1) fun tag => ?_
  split
  · next form _ =>
    have hkind : (form.node != .error) = true := by cases form <;> rfl
    exact .bind (.enclose hkind (guarded_assertionTail form)) fun _ => .pure _
  · exact .bind (.enclose rfl (.report rfl)) fun _ => .pure _

/-! ### Tests and examples -/

theorem guarded_testDecl : Guarded clear testDecl := by
  have hresult : Guarded false testResult :=
    .bind .currentIn fun _ => .bind .currentIs fun _ => .ite .bump <|
      .ite (.bind .bump fun _ => .ignore .eat) (.report rfl)
  exact .node rfl <| .bind (.andAlso .currentIs (.nthIs _ _)) fun _ =>
    .bind (.when <| .bind (.ignore guarded_name) fun _ => .bump) fun _ =>
    .bind guarded_optionalTarget fun _ => .bind guarded_scopeAndBounds fun _ =>
    .bind (.ignore .expect) fun _ => hresult

theorem guarded_testBlock (context : Context) {item : Rule Nonterminal Unit}
    (hitem : Guarded false item) (hidle : Idle item) : Guarded clear (testBlock context item) :=
  .node rfl <| .place
    (fun _ => .bind .expect fun _ => .when <|
      .bind (.within _ <| .items _ rfl hitem hidle) fun _ => .ignore .expectCloser)
    (.bind fun _ => .when <| .bind fun _ => .closer _)

theorem guarded_testItem : Guarded clear testItem :=
  .bind (.orElse .currentIs guarded_atQualName) fun _ => .when guarded_testDecl

theorem guarded_testExpectDecl : Guarded clear testExpectDecl :=
  .node rfl <| .bind (.ignore .eat) fun _ => .bind (.ignore .expect) fun _ =>
    .bind .currentIs fun _ => .bind (.when <| .ignore guarded_name) fun _ =>
    guarded_testBlock _ guarded_testItem idle_testItem

theorem guarded_exampleDecl : Guarded clear exampleDecl :=
  .node rfl <| .bind .bump fun _ => .bind (.ignore guarded_name) fun _ =>
    .bind (.ignore .expect) fun _ => .bind (.ignore guarded_expr) fun _ =>
    .bind (.ignore .expect) fun _ => guarded_bounds

theorem guarded_suiteItem : Guarded clear suiteItem := by
  refine .bind (.peek 0) fun first => .bind (.peek 1) fun second => ?_
  split
  · exact guarded_exampleDecl
  · exact guarded_testExpectDecl
  · exact .bind guarded_assertion fun _ => .when (.report rfl)
  · refine .ite guarded_testExpectDecl <| .unlessRecovered fun recovered => ?_
    cases recovered with
    | true => exact .pure ()
    | false => exact .skipToken rfl rfl

theorem guarded_testSuiteDecl : Guarded clear testSuiteDecl :=
  .node rfl <| .bind .bump fun _ => .bind .bump fun _ => .bind (.ignore .expect) fun _ =>
    .bind (.ignore guarded_name) fun _ => guarded_testBlock _ guarded_suiteItem idle_suiteItem

/-! ### Modules -/

theorem guarded_moduleDecl : Guarded clear moduleDecl :=
  .node rfl <| .bind .bump fun _ => .bind guarded_atQualName fun _ =>
    .bind (.pick (.ignore guarded_qualName) (.report rfl)) fun _ => .bind .currentIs fun _ =>
    .when <| .place
      (fun _ => .bind .bump fun _ => .bind (.ignore guarded_nameList) fun _ =>
        .ignore .expectCloser)
      (.bind fun _ => .bind fun _ => .closer _)

theorem guarded_importTarget : Guarded clear importTarget :=
  .bind guarded_atQualName fun _ => .bind .currentIs fun _ => .ite
    (.bind (.ignore guarded_qualName) fun _ => .bind .currentIs fun _ => .when <| .place
      (fun _ => .bind .bump fun _ => .bind guarded_qualNameList fun _ => .ignore .expectCloser)
      (.bind fun _ => .bind fun _ => .closer _))
    (.ite .bump (.report rfl))

theorem guarded_importDecl : Guarded clear importDecl :=
  .node rfl <| .within _ <| .bind .bump fun _ => .bind guarded_importTarget fun _ =>
    .bind .eat fun _ => .when <| .ignore guarded_name

theorem guarded_evalDecl : Guarded clear evalDecl :=
  .node rfl <| .bind .bump fun _ => .ignore guarded_expr

theorem guarded_paragraph (form : ParagraphStart) : Guarded clear form.rule := by
  cases form with
  | sig => exact guarded_sigDecl
  | pred => exact guarded_predDecl
  | func => exact guarded_funDecl
  | fact => exact guarded_factDecl
  | assertion => exact .ignore guarded_assertion
  | command => exact guarded_cmdDecl
  | testSuite => exact guarded_testSuiteDecl
  | testExpect => exact guarded_testExpectDecl
  | exampleTest => exact guarded_exampleDecl
  | inst => exact guarded_instDecl
  | option => exact .optionDecl
  | sexpr => exact .tokenNode rfl

theorem guarded_declaration (seen : Seen) : Guarded clear (declaration seen) := by
  refine .bind (.peek 0) fun first => .bind (.peek 1) fun second => .bind (.peek 2) fun third => ?_
  split
  · exact .bind (.report rfl) fun _ => .bind guarded_moduleDecl fun _ => .pure _
  · exact .bind (.when (.report rfl)) fun _ => .bind guarded_importDecl fun _ => .pure _
  · exact .bind (.when (.report rfl)) fun _ => .bind guarded_evalDecl fun _ => .pure _
  · split
    · exact .bind (.when (.report rfl)) fun _ => .bind (guarded_paragraph _) fun _ => .pure _
    · exact .pure _

end

/-! ### Whole grammars -/

theorem guarded_body (symbol : Nonterminal) : Guarded false (language.body symbol) := by
  cases symbol with
  | expression level => exact guarded_expression level
  | boundGroup => exact guarded_boundGroup

theorem orderly_body (symbol : Nonterminal) : Orderly (language.body symbol) :=
  (guarded_body symbol).orderly

theorem orderly_moduleItem (seen : Seen) : Orderly (moduleItem seen) := by
  have hdeclaration : Guarded false (declaration seen) := guarded_declaration seen
  exact .bind (.elementary .atEnd) fun _ => .ite (.pure _) <|
    .bind (.progress hdeclaration.orderly (gated_declaration seen)) fun _ =>
    .bind (.elementary .atEnd) fun _ => .bind (.when (.skipUntil _ rfl)) fun _ => .pure _

theorem orderly_sourceFile : Orderly sourceFile := by
  have hmodule : Guarded false moduleDecl := guarded_moduleDecl
  exact .bind (.elementary .currentIs) fun _ => .bind (.when hmodule.orderly) fun _ =>
    .ignore <| .loop _ orderly_moduleItem

theorem orderly_exprRoot : Orderly exprRoot := by
  have hexpr : Guarded false expr := guarded_expr
  exact .within _ <| .bind (.ignore hexpr.orderly) fun _ => .behindExpression

/-- Whatever a text is read as, the rule for it is orderly. -/
theorem orderly_entry (entry : Entry) : Orderly entry.rule := by
  cases entry with
  | wholeModule => exact orderly_sourceFile
  | oneExpression => exact orderly_exprRoot

end RelLang.Grammar
