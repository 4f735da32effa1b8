import RelLang.Parse
import RelLang.Proofs.Machine.Builder

/-!
# Reading as a machine does

The rules once more, as what a machine does that has one state for a whole reading:
the tokens to come, a builder, the number of open nodes, the stack of contexts, and
how deep it is in nested calls. Loops and calls are not bounded by the text or by
the levels but by fuel. The machine stops with a fault if the fuel is used up or if
the builder refuses a call.
-/

namespace RelLang

/-- The state of a machine. -/
structure Machine where
  /-- The side of the text; the trees are the builder's. -/
  state : State
  builder : Builder := {}
  /-- The number of open nodes. -/
  depth : Nat := 0
  /-- The number of nested calls. -/
  nesting : Nat := 0

/-- Why a machine stops. -/
inductive Fault where
  | outOfFuel
  /-- The builder refuses a call. -/
  | refused
  deriving DecidableEq, Repr

theorem ok_bind {α β : Type} (a : α) (next : α → Except Fault β) :
    (Except.ok a >>= next) = next a := rfl

namespace Machine

/-- Goes on where a step has led, with its trees added. -/
def take (s : State) (m : Machine) : Machine :=
  { m with state := { s with siblings := [] }, builder := m.builder.add s.siblings }

/-- Adds the skipped tokens in front of the current token. -/
def skipTrivia (m : Machine) : Machine := m.take m.state.attachPending

/-- Begins a node, behind the skipped tokens unless it is the root. -/
def startNode (kind : NodeKind) (m : Machine) : Nat × Machine :=
  let m := if 0 < m.depth then m.skipTrivia else m
  let (front, builder) := m.builder.start kind
  (front, { m with builder, depth := m.depth + 1 })

/-- Sets a mark behind the skipped tokens. -/
def checkpoint (m : Machine) : Nat × Machine :=
  let m := m.skipTrivia
  let (mark, builder) := m.builder.mark
  (mark, { m with builder })

/-- Begins a node at a mark. -/
def startNodeAt (mark : Nat) (kind : NodeKind) (m : Machine) : Except Fault (Nat × Machine) :=
  match m.builder.startAt? mark kind with
  | some (front, builder) => .ok (front, { m with builder, depth := m.depth + 1 })
  | none => .error .refused

/-- Ends a node; the root takes the skipped tokens that are left. -/
def finishNode (m : Machine) : Except Fault Machine :=
  let m := if m.depth = 1 then m.skipTrivia else m
  match m.builder.finish? with
  | some builder => .ok { m with builder, depth := m.depth - 1 }
  | none => .error .refused

/-- Opens a context. -/
def pushContext (context : Context) (m : Machine) : Machine :=
  { m with state := { m.state with contexts := context :: m.state.contexts } }

/-- Closes the innermost context, unless it is the last one. -/
def popContext (m : Machine) : Machine :=
  if 1 < m.state.contexts.length then
    { m with state := { m.state with contexts := m.state.contexts.tail } }
  else m

/-- Goes one call deeper, unless the limit is reached. -/
def enterNesting? (m : Machine) : Option Machine :=
  if nestingLimit ≤ m.nesting then none else some { m with nesting := m.nesting + 1 }

def exitNesting (m : Machine) : Machine := { m with nesting := m.nesting - 1 }

/-- Goes round a loop until it asks for no more. -/
def rounds {σ : Type} (step : σ → Machine → Except Fault ((σ × Bool) × Machine)) :
    Nat → σ → Machine → Except Fault (σ × Machine)
  | 0, _, _ => .error .outOfFuel
  | fuel + 1, a, m => do
    let ((b, more), m) ← step a m
    if more then rounds step fuel b m else .ok (b, m)

end Machine

namespace Rule

/-- What a machine does by a rule, for a given meaning of calls. The mark is where the innermost
node or group began. -/
def exec {ν : Type} (setting : Setting) (fuel : Nat)
    (call : ν → Nat → Machine → Except Fault (Bool × Machine)) {α : Type} :
    Rule ν α → Nat → Machine → Except Fault (α × Machine)
  | .andThen first next, mark, m => do
    let (a, m) ← first.exec setting fuel call mark m
    (next a).exec setting fuel call mark m
  | .node kind body, _, m => do
    let (front, m) := m.startNode kind
    let (a, m) ← body.exec setting fuel call front m
    let m ← m.finishNode
    .ok (a, m)
  | .group body, _, m =>
    let (front, m) := m.checkpoint
    body.exec setting fuel call front m
  | .enclose kind body, mark, m => do
    let (front, m) ← m.startNodeAt mark kind
    let (a, m) ← body.exec setting fuel call front m
    let m ← m.finishNode
    .ok (a, m)
  | .within context body, mark, m => do
    let (a, m) ← body.exec setting fuel call mark (m.pushContext context)
    .ok (a, m.popContext)
  | .progress body, mark, m => do
    let (a, after) ← body.exec setting fuel call mark m
    .ok ((a, after.state.left != m.state.left), after)
  | .loop state body, mark, m =>
    Machine.rounds (fun a m => (body a).exec setting fuel call mark m) fuel state m
  | .call symbol, mark, m => call symbol mark m
  -- what is left looks, reports or takes one token, and opens nothing
  | rule, _, m =>
    let (a, s) := rule.run setting (fun _ s => (false, s)) m.state
    .ok (a, m.take s)

end Rule

/-- What a machine does by a nonterminal; the rounds of a loop have fuel of their own. -/
def Grammar.exec {ν : Type} (g : Grammar ν) (setting : Setting) (rounds : Nat) :
    Nat → ν → Nat → Machine → Except Fault (Bool × Machine)
  | 0, _, _, _ => .error .outOfFuel
  | fuel + 1, symbol, mark, m =>
    match m.enterNesting? with
    | none => (g.beyond symbol).exec setting rounds nofun mark m
    | some deeper => do
      let (a, m) ← (g.body symbol).exec setting rounds (g.exec setting rounds fuel) mark deeper
      .ok (a, m.exitNesting)

namespace Machine

/-- The machine before a list of tokens. -/
def start (config : ParseConfig) (tokens : List Token) : Machine :=
  { state := Parse.start config tokens }

/-- Reads a list of tokens: the root begins, the rule for the whole text is followed, the root
ends. Both kinds of fuel are known beforehand. -/
def read (config : ParseConfig) (entry : Entry) (tokens : List Token) : Except Fault Machine := do
  let setting := Parse.setting config tokens
  let rounds := tokens.length + 1
  let call := Grammar.language.exec setting rounds (nestingLimit + 1)
  let (front, m) := (start config tokens).startNode entry.rootKind
  let (_, m) ← entry.rule.exec setting rounds call front m
  m.finishNode

end Machine
end RelLang
