import RelLang.Kind.Token
import RelLang.Kind.Node

/-!
# The kind numbering

Token kinds and node kinds in one sequence, tokens first. A kind has a number, its
place in the sequence, and a name. The last kind, `ERROR`, is shared by the node
that holds unaccepted text and the token that is no token.
-/

namespace RelLang

/-- A kind of token or of node. -/
inductive Kind where
  | token (k : TokenKind)
  | node (k : NodeKind)
  deriving DecidableEq, Repr

namespace Kind

/-- The sequence of all kinds. -/
def all : List Kind := TokenKind.all.map .token ++ NodeKind.all.map .node

/-- The place of a kind in the sequence; an invalid token has that of the error node. -/
def number : Kind → Nat
  | .token .invalid => all.idxOf (.node .error)
  | k => all.idxOf k

/-- The kind at a place of the sequence. -/
def ofNumber? (n : Nat) : Option Kind := all[n]?

def label : Kind → String
  | .token k => k.label
  | .node k => k.label

/-- The kind of a name. -/
def ofLabel? (name : String) : Option Kind := all.find? (·.label == name)

/-- What a diagnostic calls a token or node of this kind. -/
def describe : Kind → String
  | .token k => k.describe
  | .node k => k.describe

/-- A test on tokens, false on nodes. -/
def holdsOfToken (test : TokenKind → Bool) : Kind → Bool
  | .token k => test k
  | .node _ => false

/-- A test on nodes, false on tokens. -/
def holdsOfNode (test : NodeKind → Bool) : Kind → Bool
  | .token _ => false
  | .node k => test k

/-- Stands in the part of the numbering that belongs to tokens. -/
def isToken : Kind → Bool
  | .token k => k != .invalid
  | .node _ => false

end Kind
end RelLang
