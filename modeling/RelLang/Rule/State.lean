import RelLang.Rule
import RelLang.Tree
import RelLang.Config

/-!
# The state of a reading

A text is a list of *words*, significant tokens each with the skipped tokens behind
it. The state of a reading holds the words to come, the skipped tokens in front of
them, what the node being read holds so far, and the reports made.
-/

namespace RelLang

/-- A significant token, and the skipped tokens up to the next one. -/
structure Word where
  token : Token
  behind : List Token
  deriving DecidableEq, Repr

/-- The skipped tokens at the front of a text, and its words. -/
def Word.split : List Token → List Token × List Word
  | [] => ([], [])
  | t :: ts =>
    let (front, words) := split ts
    if t.kind.isSignificant then ([], ⟨t, front⟩ :: words) else (t :: front, words)

/-- The tokens of a list of words. -/
def Word.tokens (words : List Word) : List Token := words.flatMap fun w => w.token :: w.behind

/-- Splitting a text into words loses nothing. -/
theorem Word.split_append_tokens (ts : List Token) : (split ts).1 ++ tokens (split ts).2 = ts := by
  induction ts with
  | nil => rfl
  | cons t ts ih =>
    unfold split
    cases h : split ts with
    | mk front words =>
      rw [h] at ih
      by_cases ht : t.kind.isSignificant <;> simp [ht, tokens] <;> simpa [tokens] using ih

/-- A skipped token in the tree; an invalid one has a node of its own. -/
def Token.skippedTree (t : Token) : Tree :=
  if t.kind = .invalid then .node .error [t.leaf] else t.leaf

/-- What stays the same while a text is read. -/
structure Setting where
  /-- The offset behind the text. -/
  stop : Nat
  mode : TemporalMode
  maxDiagnostics : Option Nat
  deriving DecidableEq, Repr

/-- Where a reading is. -/
structure State where
  /-- The skipped tokens in front of the current token that are not in the tree yet. -/
  pending : List Token
  /-- The current word and those behind it. -/
  words : List Word
  /-- The number of tokens that are not in the tree yet. -/
  left : Nat
  /-- What the innermost open node or group holds so far, the last one first. -/
  siblings : List Tree := []
  /-- The reports made so far, the last one first. -/
  reports : List Report := []
  /-- The open contexts, the innermost first. -/
  contexts : List Context := [.topLevel]
  /-- Temporal constructs are admitted. -/
  temporal : Bool
  /-- A loop was cut off because it went round more often than there are tokens. -/
  stalled : Bool := false
  deriving Repr

namespace State

/-- The current token. -/
def current? (s : State) : Option Token := s.words.head?.map (·.token)

/-- The kinds of the tokens ahead. -/
def kinds (s : State) : List TokenKind := s.words.map (·.token.kind)

/-- The range of the current token, empty at the end. -/
def currentRange (setting : Setting) (s : State) : ByteRange :=
  match s.current? with
  | some t => t.range
  | none => .empty setting.stop

/-- What stands at the current place. -/
def found (s : State) : Found :=
  match s.current? with
  | some t => .token t.kind t.text
  | none => .endOfText

/-- The innermost open context. -/
def context (s : State) : Context := s.contexts.headD .topLevel

/-- The text is at its end, or the current token is a follow token of some open context. -/
def atRecoveryPoint (s : State) : Bool :=
  match s.current? with
  | some t => s.contexts.any fun c => c.follow.contains t.kind
  | none => true

/-- Puts the skipped tokens in front of the current token into the tree. -/
def attachPending (s : State) : State :=
  { s with
    pending := []
    left := s.left - s.pending.length
    siblings := (s.pending.map Token.skippedTree).reverse ++ s.siblings }

/-- Takes the current token, after the skipped tokens in front of it. -/
def bump (s : State) : State :=
  let s := s.attachPending
  match s.words with
  | [] => s
  | w :: ws =>
    { s with
      pending := w.behind
      words := ws
      left := s.left - 1
      siblings := w.token.leaf :: s.siblings }

/-- Keeps a report; past the cap, only a fatal one. -/
def keep (setting : Setting) (r : Report) (s : State) : State :=
  let full := setting.maxDiagnostics.any fun max => max ≤ s.reports.length
  if full && !r.fatal then s else { s with reports := r :: s.reports }

/-- Reports a problem at the current token; at the end of the text it is fatal. -/
def report (setting : Setting) (problem : Problem) (s : State) : State :=
  s.keep setting
    { problem, found := s.found, context := s.context, range := s.currentRange setting
      fatal := s.words.isEmpty }

end State
end RelLang
