import RelLang.View

/-!
# Visiting a tree

A visit computes a value for a node. What it does at a node is said by a *visitor*,
with one hook for each sort of nodes: error nodes, paragraphs, expressions, and all
others. Unless a hook says otherwise, the children are visited, and the value is that
of the last one.
-/

namespace RelLang

/-- What a visit does at the nodes of each sort. A hook is given what it would do otherwise. -/
structure Visitor (m : Type → Type) (β : Type) where
  /-- The value where there is nothing to visit. -/
  fallback : β
  /-- At a node whose children are to be visited; given the visit of the children. -/
  onChildren : m β → Located → m β
  /-- At a paragraph; given what is done at other nodes. -/
  onParagraph : m β → View .paragraph → m β
  /-- At an expression; given what is done at other nodes. -/
  onExpr : m β → View .expr → m β
  onError : Located → m β

namespace Visitor

variable {m : Type → Type} {β : Type}

/-- Visits all children and keeps the value of the last one. -/
def plain [Monad m] (fallback : β) : Visitor m β where
  fallback
  onChildren visitChildren _ := visitChildren
  onParagraph otherwise _ := otherwise
  onExpr otherwise _ := otherwise
  onError _ := pure fallback

/-- What a visitor does at a node, given the visit of the children. -/
def atNode (v : Visitor m β) (visitChildren : m β) (n : Located) : m β :=
  if n.kind = .error then v.onError n
  else match n.as? .paragraph, n.as? .expr with
    | some p, _ => v.onParagraph (v.onChildren visitChildren n) p
    | none, some e => v.onExpr (v.onChildren visitChildren n) e
    | none, none => v.onChildren visitChildren n

mutual

/-- Visits a tree that stands at an offset behind given siblings; a token keeps the value. -/
def visitTree [Monad m] (v : Visitor m β) (start : Nat) (before : List Tree) (last : β) :
    Tree → m β
  | .token .. => pure last
  | .node kind children =>
    v.atNode (visitTrees v start [] v.fallback children) ⟨kind, children, start, before⟩

/-- Visits a list of trees; the value is that of the last node, or the given one. -/
def visitTrees [Monad m] (v : Visitor m β) (start : Nat) (before : List Tree) (last : β) :
    List Tree → m β
  | [] => pure last
  | t :: ts => do
    let value ← visitTree v start before last t
    visitTrees v (start + t.width) (t :: before) value ts

end

/-- Visits a node. -/
def visit [Monad m] (v : Visitor m β) (n : Located) : m β :=
  v.visitTree n.start n.before v.fallback n.tree

end Visitor

end RelLang
