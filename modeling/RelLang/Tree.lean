import RelLang.Kind.Node
import RelLang.Token

/-!
# Trees

A tree keeps every token of the text, trivia included, in its place: the leaves of
a tree, from left to right, are the tokens it was made of. `shape` is what is left
of a tree when layout does not count.
-/

namespace RelLang

/-- A token, or a node with what it holds from left to right. -/
inductive Tree where
  | token (kind : TokenKind) (text : String)
  | node (kind : NodeKind) (children : List Tree)
  deriving Repr

namespace Tree

mutual

/-- The number of bytes of the text under a tree. -/
def width : Tree → Nat
  | .token _ text => text.utf8ByteSize
  | .node _ children => widths children

/-- The number of bytes of the text under a list of trees. -/
def widths : List Tree → Nat
  | [] => 0
  | t :: ts => t.width + widths ts

end

mutual

/-- The tokens of a tree, kind and text, from left to right. -/
def leaves : Tree → List (TokenKind × String)
  | .token kind text => [(kind, text)]
  | .node _ children => leavesAll children

/-- The tokens of a list of trees. -/
def leavesAll : List Tree → List (TokenKind × String)
  | [] => []
  | t :: ts => t.leaves ++ leavesAll ts

end

@[simp] theorem leavesAll_append (ts us : List Tree) :
    leavesAll (ts ++ us) = leavesAll ts ++ leavesAll us := by
  induction ts with
  | nil => rfl
  | cons t ts ih => simp [leavesAll, ih]

@[simp] theorem leavesAll_singleton (t : Tree) : leavesAll [t] = t.leaves := by simp [leavesAll]

/-- The text under a tree. -/
def text (t : Tree) : String := String.join (t.leaves.map (·.2))

/-- A leaf that is trivia. -/
def isTrivia : Tree → Bool
  | .token kind _ => kind.isTrivia
  | .node .. => false

mutual

/-- The tree without layout: a node is its kind with its children in parentheses, a token is
its text, and trivia are left out. -/
def shape : Tree → String
  | .token _ text => text
  | .node kind children => kind.label ++ "(" ++ " ".intercalate (shapes children) ++ ")"

/-- The shapes of the trees of a list that are not trivia. -/
def shapes : List Tree → List String
  | [] => []
  | t :: ts => if t.isTrivia then shapes ts else t.shape :: shapes ts

end

end Tree

/-- The token as a leaf. -/
def Token.leaf (t : Token) : Tree := .token t.kind t.text

end RelLang
