import RelLang.Rule.State

/-!
# What rules do

The meaning of a rule as a function on the state of a reading, for a given meaning
of calls, and the meaning of a grammar: a call goes one level deeper, and at the
last level the grammar gives a rule that calls nothing.

A loop goes round at most once for every token that is left and once more; each
round of a loop of the grammar puts a token into the tree, so this is no limit.
-/

namespace RelLang

/-- Goes round a loop at most the given number of times. -/
def iterate {σ : Type} (step : σ → State → (σ × Bool) × State) : Nat → σ → State → σ × State
  | 0, a, s => (a, { s with stalled := true })
  | rounds + 1, a, s =>
    match step a s with
    | ((b, more), t) => if more then iterate step rounds b t else (b, t)

namespace Rule

/-- What a rule does, for a given meaning of calls. -/
def run {ν : Type} (setting : Setting) (enter : ν → State → Bool × State) {α : Type} :
    Rule ν α → State → α × State
  | .done a, s => (a, s)
  | .andThen first next, s =>
    match first.run setting enter s with
    | (a, t) => (next a).run setting enter t
  | .peek n, s => (s.words[n]?.map (·.token.kind), s)
  | .ahead test, s => (test s.kinds, s)
  | .currentText, s => ((s.current?.map (·.text)).getD "", s)
  | .currentRange, s => (s.currentRange setting, s)
  | .atRecoveryPoint, s => (s.atRecoveryPoint, s)
  | .bump, s => ((), s.bump)
  | .node kind body, s =>
    let s := s.attachPending
    match body.run setting enter { s with siblings := [] } with
    | (a, t) => (a, { t with siblings := .node kind t.siblings.reverse :: s.siblings })
  | .group body, s =>
    let s := s.attachPending
    match body.run setting enter { s with siblings := [] } with
    | (a, t) => (a, { t with siblings := t.siblings ++ s.siblings })
  | .enclose kind body, s =>
    match body.run setting enter s with
    | (a, t) => (a, { t with siblings := [.node kind t.siblings.reverse] })
  | .within context body, s =>
    match body.run setting enter { s with contexts := context :: s.contexts } with
    | (a, t) => (a, { t with contexts := t.contexts.tail })
  | .report problem, s => ((), s.report setting problem)
  | .requireTemporal, s =>
    ((), if s.temporal then s else s.report setting .temporalDisabled)
  | .admitTemporal, s =>
    ((), if setting.mode = .fromLanguageLine then { s with temporal := true } else s)
  | .progress body, s =>
    match body.run setting enter s with
    | (a, t) => ((a, t.left != s.left), t)
  | .loop state body, s =>
    iterate (fun a t => (body a).run setting enter t) (s.left + 1) state s
  | .call symbol, s => enter symbol s

/-- What a rule without calls does. -/
def runAlone (setting : Setting) {α : Type} (rule : Rule Empty α) (s : State) : α × State :=
  rule.run setting nofun s

end Rule

/-- A rule for each nonterminal, and one for each past the last level. -/
structure Grammar (ν : Type) where
  body : ν → Rule ν Bool
  beyond : ν → Rule Empty Bool

/-- What a nonterminal does when the given number of levels is left. -/
def Grammar.enter {ν : Type} (g : Grammar ν) (setting : Setting) :
    Nat → ν → State → Bool × State
  | 0, symbol, s => (g.beyond symbol).runAlone setting s
  | levels + 1, symbol, s => (g.body symbol).run setting (g.enter setting levels) s

end RelLang
