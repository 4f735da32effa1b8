import RelLang.Diagnostic.Problem

/-!
# Rules

The right-hand sides of the grammar, as data. A rule looks at the tokens ahead,
takes them one by one, puts nodes around what it takes, and reports what it misses.
It never sees trivia or invalid tokens, nor which reports have been made.

`Rule ν α` is a rule that may call the nonterminals of `ν` and yields an `α`. A call
goes one level deeper, and the levels are limited, so a rule without calls is a
`Rule Empty α`. What a rule does is said in `RelLang.Rule.Run`.
-/

namespace RelLang

/-- A rule that may call the nonterminals of `ν` and yields an `α`. -/
inductive Rule (ν : Type) : Type → Type 1 where
  /-- Does nothing. -/
  | done {α : Type} (a : α) : Rule ν α
  /-- One rule, and behind it another. -/
  | andThen {α β : Type} (first : Rule ν α) (next : α → Rule ν β) : Rule ν β
  /-- The kind of a token ahead; the current token is number 0. -/
  | peek (n : Nat) : Rule ν (Option TokenKind)
  /-- A test on the kinds of all tokens ahead. -/
  | ahead (test : List TokenKind → Bool) : Rule ν Bool
  /-- The text of the current token, empty at the end. -/
  | currentText : Rule ν String
  /-- The range of the current token, empty at the end. -/
  | currentRange : Rule ν ByteRange
  /-- The text is at its end, or the current token is a follow token of some open context. -/
  | atRecoveryPoint : Rule ν Bool
  /-- Takes the current token. -/
  | bump : Rule ν Unit
  /-- Puts what the body takes into a new node. -/
  | node {α : Type} (kind : NodeKind) (body : Rule ν α) : Rule ν α
  /-- Keeps apart what the body takes, for `enclose`. -/
  | group {α : Type} (body : Rule ν α) : Rule ν α
  /-- Puts everything taken since the node or group began, and what the body takes, into a new
  node. -/
  | enclose {α : Type} (kind : NodeKind) (body : Rule ν α) : Rule ν α
  /-- Opens a context for the body. -/
  | within {α : Type} (context : Context) (body : Rule ν α) : Rule ν α
  /-- Reports a problem at the current token; at the end of the text it is fatal. -/
  | report (problem : Problem) : Rule ν Unit
  /-- Reports the current token unless temporal constructs are admitted. -/
  | requireTemporal : Rule ν Unit
  /-- Admits temporal constructs from here on, if the configuration leaves it to the text. -/
  | admitTemporal : Rule ν Unit
  /-- The body, and whether any token of the text, trivia included, was put into the tree. -/
  | progress {α : Type} (body : Rule ν α) : Rule ν (α × Bool)
  /-- Repeats the body as long as it asks for more, and yields the last state. -/
  | loop {σ : Type} (state : σ) (body : σ → Rule ν (σ × Bool)) : Rule ν σ
  /-- Reads a nonterminal, one level deeper. -/
  | call (symbol : ν) : Rule ν Bool

namespace Rule

variable {ν α : Type}

instance : Monad (Rule ν) where
  pure := .done
  bind := .andThen

/-- The rule if the condition holds. -/
def when (condition : Bool) (rule : Rule ν Unit) : Rule ν Unit :=
  if condition then rule else .done ()

/-- One of two rules. -/
def pick (condition : Bool) (yes no : Rule ν α) : Rule ν α := if condition then yes else no

/-- The rule without what it yields. -/
def ignore (rule : Rule ν α) : Rule ν Unit := rule.andThen fun _ => .done ()

/-- Repeats the body as long as it asks for more. -/
def repeated (body : Rule ν Bool) : Rule ν Unit :=
  .loop () fun _ => body.andThen fun more => .done ((), more)

/-! ### Looking ahead -/

/-- The text is at its end. -/
def atEnd : Rule ν Bool := do return (← peek 0).isNone

/-- A token ahead is of a kind. -/
def nthIs (n : Nat) (kind : TokenKind) : Rule ν Bool := do return (← peek n) == some kind

/-- The current token is of a kind. -/
def currentIs (kind : TokenKind) : Rule ν Bool := nthIs 0 kind

/-- A token ahead passes a test. -/
def nthPasses (n : Nat) (test : TokenKind → Bool) : Rule ν Bool := do
  return (← peek n).any test

/-- The current token is of one of the kinds. -/
def currentIn (kinds : List TokenKind) : Rule ν Bool := nthPasses 0 kinds.contains

/-- Both hold; the second is asked only if the first holds. -/
def andAlso (first second : Rule ν Bool) : Rule ν Bool := do
  let holds ← first
  if holds then second else return false

/-- One of them holds; the second is asked only if the first does not hold. -/
def orElse (first second : Rule ν Bool) : Rule ν Bool := do
  let holds ← first
  if holds then return true else second

/-! ### Taking tokens -/

/-- Takes the current token if it is of a kind. -/
def eat (kind : TokenKind) : Rule ν Bool := do
  let present ← currentIs kind
  when present bump
  return present

/-- Reports a problem, and puts the current token into an error node. -/
def skipToken (problem : Problem) : Rule ν Unit := do
  report problem
  let ended ← atEnd
  when (!ended) (node .error bump)

/-- Takes a token of a kind. If it is missing, one stray token in front of it is skipped;
otherwise it is reported, and nothing is taken. -/
def expectToken (kind : TokenKind) (code : Code) (opener : Option ByteRange) : Rule ν Bool := do
  let present ← eat kind
  if present then return true
  else
    let blocked ← atRecoveryPoint
    let behind ← nthIs 1 kind
    if !blocked && behind then do
      skipToken (.stray kind)
      bump
      return true
    else do
      report (.missing kind code opener)
      return false

/-- Takes a token of a kind, which may be repaired. -/
def expect (kind : TokenKind) : Rule ν Bool := expectToken kind (.ofMissing kind) none

/-- Takes the token that closes a group, which may be repaired. -/
def expectCloser (kind : TokenKind) (opener : ByteRange) : Rule ν Bool :=
  expectToken kind (.ofMissing kind) (some opener)

/-- A node around one token. -/
def tokenNode (kind : NodeKind) : Rule ν Unit := node kind bump

/-! ### Recovery and lists -/

/-- Reports a problem and skips into an error node, at least one token and up to a stop token
or a recovery point. -/
def skipUntil (problem : Problem) (stops : List TokenKind) : Rule ν Unit := do
  report problem
  let ended ← atEnd
  when (!ended) <| node .error do
    bump
    repeated do
      let stop ← currentIn stops
      let recovered ← atRecoveryPoint
      let more := !stop && !recovered
      when more bump
      return more

/-- Items up to a closing mark, a recovery point or the end. An item that takes nothing makes
one token an error. -/
def items (closer : Punct) (code : Code) (item : Rule ν Unit) : Rule ν Unit :=
  repeated do
    let closed ← currentIs closer
    let ended ← atEnd
    if closed || ended then return false
    else
      let (_, moved) ← progress item
      if moved then return true
      else
        let recovered ← atRecoveryPoint
        when (!recovered) (skipToken (.listItem code))
        return !recovered

end Rule
end RelLang
