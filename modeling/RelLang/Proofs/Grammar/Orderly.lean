import RelLang.Parse
import RelLang.Proofs.Grammar.Decide
import RelLang.Proofs.Grammar.Fits
import RelLang.Proofs.Rule.Elementary

/-!
# How the rules of the grammar are made

All rules of the grammar are put together in the same few ways, and some steps occur
nowhere but inside others: a node of unaccepted text is made right behind a report, the
place of a token is looked at to be reported, and whether something was put into the tree
is asked only about what is all or nothing. `Orderly` says this of a rule. What is proved by
induction on it holds of every rule of the grammar.
-/

namespace RelLang.Grammar

open Rule

/-! ### Orderly rules -/

/-- What stands behind an expression that is a text of its own. -/
def behindExpression : Rule Nonterminal Unit := do
  let ended ← atEnd
  when (!ended) do
    report .afterExpression
    node .error <| repeated do
      let ended ← atEnd
      when (!ended) bump
      return !ended

/-- A rule that is put together as the rules of the grammar are. -/
inductive Orderly : {α : Type} → Rule Nonterminal α → Prop where
  | done {α : Type} (a : α) : Orderly (.done a)
  | andThen {α β : Type} {first : Rule Nonterminal α} {next : α → Rule Nonterminal β}
    (hfirst : Orderly first) (hnext : ∀ a, Orderly (next a)) : Orderly (.andThen first next)
  | peek (n : Nat) : Orderly (.peek n)
  | ahead (test : List TokenKind → Bool) : Orderly (.ahead test)
  | atRecoveryPoint : Orderly .atRecoveryPoint
  | bump : Orderly .bump
  | node {α : Type} {kind : NodeKind} {body : Rule Nonterminal α}
    (hkind : (kind != .error) = true) (hbody : Orderly body) : Orderly (.node kind body)
  | group {α : Type} {body : Rule Nonterminal α} (hbody : Orderly body) : Orderly (.group body)
  | enclose {α : Type} {kind : NodeKind} {body : Rule Nonterminal α}
    (hkind : (kind != .error) = true) (hbody : Orderly body) : Orderly (.enclose kind body)
  | within {α : Type} (context : Context) {body : Rule Nonterminal α} (hbody : Orderly body) :
    Orderly (.within context body)
  | report {problem : Problem} (hproblem : problem.ofRule = true) : Orderly (.report problem)
  | requireTemporal : Orderly .requireTemporal
  | loop {σ : Type} (a : σ) {body : σ → Rule Nonterminal (σ × Bool)}
    (hbody : ∀ a, Orderly (body a)) : Orderly (.loop a body)
  /-- The place is that of a token that opens a group. -/
  | opener {α : Type} {next : ByteRange → Rule Nonterminal α} (hnext : ∀ r, Orderly (next r))
    (hplace : Indifferent next) : Orderly (.andThen .currentRange next)
  | skipToken {problem : Problem} (hproblem : problem.ofRule = true) :
    Orderly (Rule.skipToken problem)
  | skipUntil {problem : Problem} (stops : List TokenKind) (hproblem : problem.ofRule = true) :
    Orderly (Rule.skipUntil problem stops)
  | items (closer : Punct) {code : Code} {item : Rule Nonterminal Unit}
    (hcode : (Problem.listItem code).ofRule = true) (hitem : Orderly item) (hidle : Idle item) :
    Orderly (Rule.items closer code item)
  | progress {α : Type} {body : Rule Nonterminal α} (hbody : Orderly body) (hgate : Gated body) :
    Orderly (.progress body)
  | expression (level : Nat) : Orderly (.call (.expression level))
  | boundValue : Orderly boundValue
  | optionDecl : Orderly optionDecl
  | behindExpression : Orderly behindExpression

namespace Orderly

variable {α β : Type}

theorem pure (a : α) : Orderly (Pure.pure a) := done a

theorem bind {first : Rule Nonterminal α} {next : α → Rule Nonterminal β} (hfirst : Orderly first)
    (hnext : ∀ a, Orderly (next a)) : Orderly (first >>= next) :=
  andThen hfirst hnext

theorem ite {c : Prop} [Decidable c] {yes no : Rule Nonterminal α} (hyes : Orderly yes)
    (hno : Orderly no) : Orderly (if c then yes else no) := by
  split
  · exact hyes
  · exact hno

theorem «when» {condition : Bool} {rule : Rule Nonterminal Unit} (hrule : Orderly rule) :
    Orderly (when condition rule) :=
  ite hrule (pure ())

theorem ignore {rule : Rule Nonterminal α} (hrule : Orderly rule) : Orderly (ignore rule) :=
  bind hrule fun _ => pure ()

end Orderly

theorem Orderly.elementary {α : Type} {rule : Rule Nonterminal α}
    (h : Elementary (· != .error) rule) : Orderly rule := by
  induction h with
  | done a => exact .done a
  | andThen _ _ hfirst hnext => exact .andThen hfirst hnext
  | peek n => exact .peek n
  | atRecoveryPoint => exact .atRecoveryPoint
  | bump => exact .bump
  | node hkind _ hbody => exact .node hkind hbody
  | report hproblem => exact .report hproblem
  | loop a _ hbody => exact .loop a hbody

/-! ### Names -/

section Shared

variable {ν : Type}

theorem elementary_name : Elementary (· != .error) (name : Rule ν Bool) :=
  .bind .currentIs fun _ => .ite (.bind (.node rfl .bump) fun _ => .pure _)
    (.bind (.report rfl) fun _ => .pure _)

theorem elementary_atCommaName : Elementary (· != .error) (atCommaName : Rule ν Bool) :=
  .andAlso .currentIs (.nthIs _ _)

theorem elementary_nameList : Elementary (· != .error) (nameList : Rule ν Bool) :=
  .node rfl <| .bind elementary_name fun _ =>
    .bind (.when <| .repeated <| .bind elementary_atCommaName fun _ =>
      .bind (.when <| .bind .bump fun _ => .ignore elementary_name) fun _ => .pure _) fun _ =>
    .pure _

theorem elementary_atQualName : Elementary (· != .error) (atQualName : Rule ν Bool) :=
  .orElse (.nthPasses _ _) (.andAlso .currentIs (.nthIs _ _))

theorem elementary_qualName : Elementary (· != .error) (qualName : Rule ν Bool) :=
  .bind elementary_atQualName fun _ => .ite
    (.node rfl <| .bind .currentIs fun _ => .bind (.when <| .bind .bump fun _ => .bump) fun _ =>
      .bind (.nthPasses _ _) fun _ => .bind (.pick .bump (.report rfl)) fun _ =>
      .bind (.repeated <| .bind (.andAlso .currentIs (.nthPasses _ _)) fun _ =>
        .bind (.when <| .bind .bump fun _ => .bump) fun _ => .pure _) fun _ => .pure _)
    (.bind (.report rfl) fun _ => .pure _)

theorem elementary_qualNameList : Elementary (· != .error) (qualNameList : Rule ν Unit) :=
  .node rfl <| .bind (.ignore elementary_qualName) fun _ => .repeated <| .bind .eat fun _ =>
    .bind (.when <| .ignore elementary_qualName) fun _ => .pure _

theorem elementary_optionValue : Elementary (· != .error) optionValue :=
  .bind (.peek 0) fun _ => .bind (.peek 1) fun _ => .bind elementary_atQualName fun _ =>
    .ite .bump <| .ite (.bind .bump fun _ => .bump) <|
      .ite (.ignore elementary_qualName) (.report rfl)

theorem elementary_nestedText (passes : NodeKind → Bool) :
    Elementary passes (nestedText : Rule ν Unit) :=
  .bind (.nthPasses _ _) fun _ => .bind (.loop _ fun _ => .bind .atEnd fun _ =>
    .bind (.nthPasses _ _) fun _ => .bind (.nthPasses _ _) fun _ => .ite (.pure _) <|
      .bind .bump fun _ => .bind .atRecoveryPoint fun _ => .pure _) fun _ => .pure _

theorem elementary_skipNested : Elementary (fun _ => true) (skipNested : Rule ν Unit) :=
  .bind (.report rfl) fun _ => .node rfl (elementary_nestedText _)

end Shared

theorem elementary_beyond (symbol : Nonterminal) :
    Elementary (fun _ => true) (language.beyond symbol) := by
  cases symbol with
  | expression level =>
    exact .bind (.nthPasses _ _) fun _ => .bind (.when elementary_skipNested) fun _ => .pure _
  | boundGroup => exact .bind elementary_skipNested fun _ => .pure _

theorem elementary_behindExpression : Elementary (fun _ => true) behindExpression :=
  .bind .atEnd fun _ => .when <| .bind (.report rfl) fun _ => .node rfl <| .repeated <|
    .bind .atEnd fun _ => .bind (.when .bump) fun _ => .pure _

end RelLang.Grammar
