import RelLang.Tree

/-!
# Nodes in their place

A node of a tree together with its offset in the text and the siblings in front of
it. From the root, the offsets and siblings of all other nodes follow.
-/

namespace RelLang

/-- A node, where it stands in the text, and what stands in front of it in its parent, the
nearest first. -/
structure Located where
  kind : NodeKind
  children : List Tree
  start : Nat
  before : List Tree
  deriving Repr

namespace Located

/-- The node at the root of a tree; a tree that is one token has none. -/
def root? : Tree → Option Located
  | .node kind children => some ⟨kind, children, 0, []⟩
  | .token .. => none

/-- The node as a tree. -/
def tree (n : Located) : Tree := .node n.kind n.children

/-- The offset behind the node. -/
def stop (n : Located) : Nat := n.start + n.tree.width

/-- The kind of the node and its range. -/
def ref (n : Located) : String :=
  n.kind.label ++ "@" ++ toString n.start ++ ".." ++ toString n.stop

/-- The nodes in a list of trees that stands at an offset behind given siblings. -/
def nodesIn (start : Nat) (before : List Tree) : List Tree → List Located
  | [] => []
  | t :: ts =>
    let rest := nodesIn (start + t.width) (t :: before) ts
    match t with
    | .node kind children => ⟨kind, children, start, before⟩ :: rest
    | .token .. => rest

/-- The nodes directly below a node. -/
def childNodes (n : Located) : List Located := nodesIn n.start [] n.children

/-- The tokens directly below a node, kind and text. -/
def childTokens (n : Located) : List (TokenKind × String) :=
  n.children.filterMap fun
    | .token kind text => some (kind, text)
    | .node .. => none

/-- A node in a list of trees is one of the trees. -/
theorem tree_mem_of_mem_nodesIn {start : Nat} {before ts : List Tree} {m : Located}
    (h : m ∈ nodesIn start before ts) : m.tree ∈ ts := by
  induction ts generalizing start before with
  | nil => simp [nodesIn] at h
  | cons t ts ih =>
    unfold nodesIn at h
    match t with
    | .token _ _ => exact List.mem_cons_of_mem _ (ih h)
    | .node kind children =>
      rcases List.mem_cons.1 h with rfl | h
      · exact List.mem_cons_self
      · exact List.mem_cons_of_mem _ (ih h)

/-- What is below a child is smaller than what is below its parent. -/
theorem sizeOf_children_lt {n m : Located} (h : m ∈ n.childNodes) :
    sizeOf m.children < sizeOf n.children := by
  have hm := List.sizeOf_lt_of_mem (tree_mem_of_mem_nodesIn h)
  simp only [tree, Tree.node.sizeOf_spec] at hm
  omega

mutual

/-- The nodes of a tree that stands at an offset behind given siblings, each before the nodes
below it. -/
def nodesOf (start : Nat) (before : List Tree) : Tree → List Located
  | .token .. => []
  | .node kind children => ⟨kind, children, start, before⟩ :: allNodesOf start [] children

/-- The nodes of a list of trees, each before the nodes below it. -/
def allNodesOf (start : Nat) (before : List Tree) : List Tree → List Located
  | [] => []
  | t :: ts => nodesOf start before t ++ allNodesOf (start + t.width) (t :: before) ts

end

/-- The node and all nodes below it, each before the nodes below it. -/
def descendants (n : Located) : List Located := nodesOf n.start n.before n.tree

/-- The node that is reached by taking children by their numbers. -/
def follow? (n : Located) : List Nat → Option Located
  | [] => some n
  | i :: path => n.childNodes[i]?.bind (·.follow? path)

end Located
end RelLang
