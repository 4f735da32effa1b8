import RelLang.View.Located

/-!
# Walking over a tree

A walk goes over a node and everything below it from left to right. It tells when
it enters a node, when it leaves it, and what significant or invalid tokens it meets.
-/

namespace RelLang

/-- What a walk tells. -/
inductive WalkEvent where
  | enter (node : Located)
  /-- Enters a node of text that no rule accepts. -/
  | enterError (node : Located)
  | exit (kind : NodeKind)
  | token (kind : TokenKind) (text : String)

namespace WalkEvent

/-- The event of entering a node. -/
def entering (n : Located) : WalkEvent := if n.kind = .error then .enterError n else .enter n

mutual

/-- The events of a tree that stands at an offset behind given siblings. -/
def ofTree (start : Nat) (before : List Tree) : Tree → List WalkEvent
  | .token kind text => if kind.isTrivia then [] else [.token kind text]
  | .node kind children =>
    entering ⟨kind, children, start, before⟩ :: (ofTrees start [] children ++ [.exit kind])

/-- The events of a list of trees. -/
def ofTrees (start : Nat) (before : List Tree) : List Tree → List WalkEvent
  | [] => []
  | t :: ts => ofTree start before t ++ ofTrees (start + t.width) (t :: before) ts

end

end WalkEvent

/-- The events of a walk over a node and everything below it. -/
def Located.walk (n : Located) : List WalkEvent := WalkEvent.ofTree n.start n.before n.tree

end RelLang
