import RelLang.Grammar.Module
import RelLang.Proofs.Grammar.Fits
import RelLang.Proofs.Grammar.Lookahead
import RelLang.Proofs.Rule.Visit

/-!
# What rules have seen before they begin

Some rules take their first tokens without a look at them, since they are only begun where these
tokens have been seen, often several rules before. So for each kind of node it is said which tokens
are ahead where a node of the kind is begun, for each problem which are where it is reported, and
for each call which are where it is made. All parts of the grammar keep to that.
-/

namespace RelLang.Grammar

open Rule

/-! ### What is seen -/

/-- The words that begin a command. -/
def commands : List TokenKind := [.keyword .runKw, .keyword .checkKw]

/-- `(Name ':')? ('run' | 'check')`. -/
def commandAhead (ks : List TokenKind) : Bool :=
  ks[0]?.any commands.contains
    || (ks[0]? == some .ident && ks[1]? == some (.punct .colon) && ks[2]?.any commands.contains)

/-- `'test' 'suite'`. -/
def suiteAhead (ks : List TokenKind) : Bool :=
  ks[0]? == some (.keyword .testKw) && ks[1]? == some (.keyword .suiteKw)

/-- `'for' 'exactly'? NUMBER`. -/
def scopeAhead (ks : List TokenKind) : Bool :=
  ks[0]? == some (.keyword .forKw) && (ks[1]? == some .number
    || (ks[1]? == some (.keyword .exactlyKw) && ks[2]? == some .number))

/-- `Segment` or `'this' '/'`. -/
def qualNameAhead (ks : List TokenKind) : Bool :=
  ks[0]?.any TokenKind.isNameSegment
    || (ks[0]? == some (.keyword .thisKw) && ks[1]? == some (.punct .slash))

/-- A token that passes the last test, or one behind a token that passes the first. -/
def prefixedAhead (first last : TokenKind → Bool) (ks : List TokenKind) : Bool :=
  ks[0]?.any last || (ks[0]?.any first && ks[1]?.any last)

/-- A comparison, or one behind its negation. -/
def comparisonAhead : List TokenKind → Bool :=
  prefixedAhead Operator.isNegation Operator.isComparison

/-- `Mult? '->'`. -/
def arrowAhead : List TokenKind → Bool :=
  prefixedAhead Operator.arrowMultiplicities.contains (· == .punct .arrow)

/-- `'is'` and a word that tells an assertion of the kind. -/
def formAhead (kind : NodeKind) (ks : List TokenKind) : Bool :=
  ks[0]? == some (.keyword .isKw) && ks[1]?.any fun tag =>
    [true, false].any fun quantified => (AssertionForm.ofTag? quantified tag).any (·.node == kind)

/-- What is ahead where a node of the kind begins, or where it is put around what is there. -/
def foreseen (kind : NodeKind) : List TokenKind → Bool :=
  match kind with
  | .cmdDecl => commandAhead
  | .testSuiteDecl => suiteAhead
  | .scope => scopeAhead
  | .receiver => receiverAhead
  | .qualName => qualNameAhead
  | .quantDecl => declarationAhead
  | .compareOp => comparisonAhead
  | .arrowOp => arrowAhead
  | .propertyDecl | .quantifiedPropertyDecl | .satisfiabilityDecl | .consistencyDecl =>
    formAhead kind
  | _ => fun _ => true

/-- The kinds that may begin in front of any tokens. -/
def beginsAnywhere (kind : NodeKind) : Bool :=
  !List.contains [.cmdDecl, .testSuiteDecl, .scope, .receiver, .qualName, .quantDecl, .compareOp,
    .arrowOp, .propertyDecl, .quantifiedPropertyDecl, .satisfiabilityDecl, .consistencyDecl] kind

theorem foreseen_of_beginsAnywhere {kind : NodeKind} (h : beginsAnywhere kind = true)
    (ks : List TokenKind) : foreseen kind ks = true := by
  cases kind <;> first | rfl | cases h

/-- What is ahead where the problem is reported. Two problems are reported nowhere, and nowhere is
a problem reported as a malformed scope. -/
def reportable (problem : Problem) (ks : List TokenKind) : Bool :=
  match problem with
  | .scope | .command => false
  | .tooDeep => ks[0]?.any fun k => Operator.startsExpr k || k == .punct .lparen
  | problem => problem.code != .malformedScope

/-- What is ahead where the nonterminal is called. -/
def callable : Nonterminal → List TokenKind → Bool
  | .expression _, _ => true
  | .boundGroup, ks => ks[0]? == some (.punct .lparen)

/-- Where the rule is followed, the tokens are ahead that it needs by itself. -/
def Foreseen {ν β : Type} (calls : ν → List TokenKind → Bool) (rule : Rule ν β) (s : State) :
    Prop :=
  match rule with
  | .node kind _ | .enclose kind _ => foreseen kind s.kinds = true
  | .report problem => reportable problem s.kinds = true
  | .call symbol => calls symbol s.kinds = true
  | _ => True

/-- Wherever following the rule from the state leads, the tokens are ahead that are needed there. -/
def Foresees {ν α : Type} (calls : ν → List TokenKind → Bool) (setting : Setting)
    (enter : ν → State → Bool × State) (rule : Rule ν α) (s : State) : Prop :=
  ∀ (β : Type) (part : Rule ν β) (t : State), Visits setting enter rule s part t →
    Foreseen calls part t

/-- The rule may be followed in front of any tokens. -/
def Foresighted {ν α : Type} (calls : ν → List TokenKind → Bool) (rule : Rule ν α) : Prop :=
  ∀ (setting : Setting) (enter : ν → State → Bool × State) (s : State),
    Foresees calls setting enter rule s

section

variable {ν α β σ : Type} {calls : ν → List TokenKind → Bool} {setting : Setting}
  {enter : ν → State → Bool × State} {s : State}

/-! ### Rules in some place -/

namespace Foresees

/-- The rule itself, and all that is below it. -/
theorem intro {rule : Rule ν α} (hhere : Foreseen calls rule s)
    (hbelow : ∀ (β : Type) (part : Rule ν β) (t : State),
      VisitsBelow setting enter rule s part t → Foreseen calls part t) :
    Foresees calls setting enter rule s :=
  fun β part t h =>
    h.elim (fun part t => Foreseen calls part t) hhere (hbelow β part t)

theorem bind {first : Rule ν α} {next : α → Rule ν β}
    (hfirst : Foresees calls setting enter first s)
    (hnext : Foresees calls setting enter (next (first.run setting enter s).1)
      (first.run setting enter s).2) :
    Foresees calls setting enter (first >>= next) s :=
  .intro trivial fun β part t h => h.elim (hfirst β part t) (hnext β part t)

/-- What is done next may depend on what is seen here. -/
theorem look {a : α} {test : Rule ν α} {next : α → Rule ν β}
    (htest : test.run setting enter s = (a, s)) (hlook : Foresighted calls test)
    (hnext : Foresees calls setting enter (next a) s) :
    Foresees calls setting enter (test >>= next) s := by
  refine .bind (hlook setting enter s) ?_
  rw [htest]
  exact hnext

theorem node {kind : NodeKind} {body : Rule ν α} (hkind : foreseen kind s.kinds = true)
    (hbody : Foresees calls setting enter body { s.attachPending with siblings := [] }) :
    Foresees calls setting enter (.node kind body) s :=
  .intro hkind hbody

theorem enclose {kind : NodeKind} {body : Rule ν α} (hkind : foreseen kind s.kinds = true)
    (hbody : Foresees calls setting enter body s) :
    Foresees calls setting enter (.enclose kind body) s :=
  .intro hkind hbody

theorem group {body : Rule ν α}
    (hbody : Foresees calls setting enter body { s.attachPending with siblings := [] }) :
    Foresees calls setting enter (.group body) s :=
  .intro trivial hbody

theorem within {context : Context} {body : Rule ν α}
    (hbody : Foresees calls setting enter body { s with contexts := context :: s.contexts }) :
    Foresees calls setting enter (.within context body) s :=
  .intro trivial hbody

theorem ite {c : Prop} [Decidable c] {yes no : Rule ν α}
    (hyes : c → Foresees calls setting enter yes s)
    (hno : ¬ c → Foresees calls setting enter no s) :
    Foresees calls setting enter (if c then yes else no) s := by
  split
  · next hc => exact hyes hc
  · next hc => exact hno hc

theorem «when» {condition : Bool} {rule : Rule ν Unit}
    (hrule : condition = true → Foresees calls setting enter rule s) :
    Foresees calls setting enter (when condition rule) s :=
  ite hrule fun _ => .intro trivial fun _ _ _ => False.elim

theorem pick {condition : Bool} {yes no : Rule ν α}
    (hyes : condition = true → Foresees calls setting enter yes s)
    (hno : condition ≠ true → Foresees calls setting enter no s) :
    Foresees calls setting enter (pick condition yes no) s :=
  ite hyes hno

theorem report {problem : Problem} (h : reportable problem s.kinds = true) :
    Foresees calls setting enter (.report problem : Rule ν Unit) s :=
  .intro h fun _ _ _ => False.elim

theorem call {symbol : ν} (h : calls symbol s.kinds = true) :
    Foresees calls setting enter (.call symbol) s :=
  .intro h fun _ _ _ => False.elim

end Foresees

/-! ### Rules in any place -/

namespace Foresighted

theorem pure (a : α) : Foresighted calls (Pure.pure a : Rule ν α) :=
  fun _ _ _ => .intro trivial fun _ _ _ => False.elim

theorem bump : Foresighted calls (.bump : Rule ν Unit) :=
  fun _ _ _ => .intro trivial fun _ _ _ => False.elim

theorem peek (n : Nat) : Foresighted calls (.peek n : Rule ν _) :=
  fun _ _ _ => .intro trivial fun _ _ _ => False.elim

theorem ahead (test : List TokenKind → Bool) : Foresighted calls (.ahead test : Rule ν _) :=
  fun _ _ _ => .intro trivial fun _ _ _ => False.elim

theorem currentText : Foresighted calls (.currentText : Rule ν _) :=
  fun _ _ _ => .intro trivial fun _ _ _ => False.elim

theorem currentRange : Foresighted calls (.currentRange : Rule ν _) :=
  fun _ _ _ => .intro trivial fun _ _ _ => False.elim

theorem atRecoveryPoint : Foresighted calls (.atRecoveryPoint : Rule ν _) :=
  fun _ _ _ => .intro trivial fun _ _ _ => False.elim

theorem requireTemporal : Foresighted calls (.requireTemporal : Rule ν _) :=
  fun _ _ _ => .intro trivial fun _ _ _ => False.elim

theorem admitTemporal : Foresighted calls (.admitTemporal : Rule ν _) :=
  fun _ _ _ => .intro trivial fun _ _ _ => False.elim

theorem bind {first : Rule ν α} {next : α → Rule ν β} (hfirst : Foresighted calls first)
    (hnext : ∀ a, Foresighted calls (next a)) : Foresighted calls (first >>= next) :=
  fun setting enter s => .bind (hfirst setting enter s) (hnext _ setting enter _)

theorem node {kind : NodeKind} {body : Rule ν α} (hkind : ∀ ks, foreseen kind ks = true)
    (hbody : Foresighted calls body) : Foresighted calls (.node kind body) :=
  fun setting enter _ => .node (hkind _) (hbody setting enter _)

theorem enclose {kind : NodeKind} {body : Rule ν α} (hkind : ∀ ks, foreseen kind ks = true)
    (hbody : Foresighted calls body) : Foresighted calls (.enclose kind body) :=
  fun setting enter _ => .enclose (hkind _) (hbody setting enter _)

theorem group {body : Rule ν α} (hbody : Foresighted calls body) :
    Foresighted calls (.group body) :=
  fun setting enter _ => .group (hbody setting enter _)

theorem within {context : Context} {body : Rule ν α} (hbody : Foresighted calls body) :
    Foresighted calls (.within context body) :=
  fun setting enter _ => .within (hbody setting enter _)

theorem progress {body : Rule ν α} (hbody : Foresighted calls body) :
    Foresighted calls (.progress body) :=
  fun setting enter _ => .intro trivial (hbody setting enter _)

theorem loop {a : σ} {body : σ → Rule ν (σ × Bool)} (hbody : ∀ a, Foresighted calls (body a)) :
    Foresighted calls (.loop a body) :=
  fun setting enter _ => .intro trivial fun β part t ⟨b, u, _, h⟩ =>
    hbody b setting enter u β part t h

theorem report {problem : Problem} (h : ∀ ks, reportable problem ks = true) :
    Foresighted calls (.report problem : Rule ν Unit) :=
  fun _ _ _ => .report (h _)

theorem call {symbol : ν} (h : ∀ ks, calls symbol ks = true) : Foresighted calls (.call symbol) :=
  fun _ _ _ => .call (h _)

theorem ite {c : Prop} [Decidable c] {yes no : Rule ν α} (hyes : Foresighted calls yes)
    (hno : Foresighted calls no) : Foresighted calls (if c then yes else no) :=
  fun setting enter s => .ite (fun _ => hyes setting enter s) fun _ => hno setting enter s

theorem «when» {condition : Bool} {rule : Rule ν Unit} (hrule : Foresighted calls rule) :
    Foresighted calls (when condition rule) :=
  ite hrule (pure ())

theorem pick {condition : Bool} {yes no : Rule ν α} (hyes : Foresighted calls yes)
    (hno : Foresighted calls no) : Foresighted calls (pick condition yes no) :=
  ite hyes hno

theorem ignore {rule : Rule ν α} (hrule : Foresighted calls rule) :
    Foresighted calls (ignore rule) :=
  bind hrule fun _ => pure ()

theorem repeated {body : Rule ν Bool} (hbody : Foresighted calls body) :
    Foresighted calls (repeated body) :=
  loop fun _ => bind hbody fun _ => pure _

theorem nthIs (n : Nat) (kind : TokenKind) : Foresighted calls (nthIs n kind : Rule ν _) :=
  bind (peek n) fun _ => pure _

theorem currentIs {kind : TokenKind} : Foresighted calls (currentIs kind : Rule ν _) := nthIs 0 kind

theorem nthPasses (n : Nat) (test : TokenKind → Bool) :
    Foresighted calls (nthPasses n test : Rule ν _) :=
  bind (peek n) fun _ => pure _

theorem currentIn {kinds : List TokenKind} : Foresighted calls (currentIn kinds : Rule ν _) :=
  nthPasses 0 kinds.contains

theorem atEnd : Foresighted calls (atEnd : Rule ν _) := bind (peek 0) fun _ => pure _

theorem andAlso {first second : Rule ν Bool} (hfirst : Foresighted calls first)
    (hsecond : Foresighted calls second) : Foresighted calls (andAlso first second) :=
  bind hfirst fun _ => ite hsecond (pure _)

theorem orElse {first second : Rule ν Bool} (hfirst : Foresighted calls first)
    (hsecond : Foresighted calls second) : Foresighted calls (orElse first second) :=
  bind hfirst fun _ => ite (pure _) hsecond

theorem eat {kind : TokenKind} : Foresighted calls (eat kind : Rule ν _) :=
  bind currentIs fun _ => bind («when» bump) fun _ => pure _

theorem tokenNode {kind : NodeKind} (hkind : ∀ ks, foreseen kind ks = true) :
    Foresighted calls (tokenNode kind : Rule ν _) :=
  node hkind bump

theorem skipToken {problem : Problem} (h : ∀ ks, reportable problem ks = true) :
    Foresighted calls (skipToken problem : Rule ν _) :=
  bind (report h) fun _ => bind atEnd fun _ => «when» (tokenNode fun _ => rfl)

theorem skipUntil {problem : Problem} {stops : List TokenKind}
    (h : ∀ ks, reportable problem ks = true) :
    Foresighted calls (skipUntil problem stops : Rule ν _) :=
  bind (report h) fun _ => bind atEnd fun _ => «when» <| node (fun _ => rfl) <| bind bump fun _ =>
    repeated <| bind currentIn fun _ => bind atRecoveryPoint fun _ => bind («when» bump) fun _ =>
    pure _

theorem expectToken {kind : TokenKind} {code : Code} {opener : Option ByteRange}
    (h : ∀ ks, reportable (.missing kind code opener) ks = true) :
    Foresighted calls (expectToken kind code opener : Rule ν _) :=
  bind eat fun _ => ite (pure _) <| bind atRecoveryPoint fun _ => bind (nthIs 1 kind) fun _ =>
    ite (bind (skipToken fun _ => rfl) fun _ => bind bump fun _ => pure _)
      (bind (report h) fun _ => pure _)

/-- A missing token is not reported as a malformed scope. -/
theorem reportable_missing (kind : TokenKind) (opener : Option ByteRange) (ks : List TokenKind) :
    reportable (.missing kind (.ofMissing kind) opener) ks = true := by
  show (Code.ofMissing kind != .malformedScope) = true
  unfold Code.ofMissing
  split <;> rfl

theorem expect {kind : TokenKind} : Foresighted calls (expect kind : Rule ν _) :=
  expectToken (reportable_missing kind none)

theorem expectCloser {kind : TokenKind} {opener : ByteRange} :
    Foresighted calls (expectCloser kind opener : Rule ν _) :=
  expectToken (reportable_missing kind (some opener))

theorem items {closer : Punct} {code : Code} {item : Rule ν Unit}
    (h : ∀ ks, reportable (.listItem code) ks = true) (hitem : Foresighted calls item) :
    Foresighted calls (items closer code item) :=
  repeated <| bind currentIs fun _ => bind atEnd fun _ => ite (pure _) <|
    bind (progress hitem) fun (_, _) => ite (pure _) <| bind atRecoveryPoint fun _ =>
    bind («when» <| skipToken h) fun _ => pure _

end Foresighted

end

end RelLang.Grammar
