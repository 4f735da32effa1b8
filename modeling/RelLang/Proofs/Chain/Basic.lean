import RelLang.Proofs.Parse.Syntax

/-!
# Chains of operands

Operands with operators between them. What a chain stands for does not need a reading
from left to right: it is split at its loosest operator, and so are the two chains in
front of that and behind it. Of several operators of that level it is the last if the
level groups to the left, and the first if it groups to the right.
-/

namespace RelLang

/-- The trees under a node. -/
def Tree.children : Tree → List Tree
  | .token .. => []
  | .node _ children => children

namespace Chain

/-- What stands between operators. -/
inductive Operand where
  | name (text : String)
  | number (text : String)
  /-- A text in parentheses that is an expression by itself. -/
  | parenthesized (text : String) (accepted : (Parse.ofText {} .oneExpression text).ok = true)

/-- An operator between two operands, with the negation in front of a comparison or the
multiplicities around an arrow. -/
structure Link where
  before : Option (TokenKind × String) := none
  operator : TokenKind × String
  after : Option (TokenKind × String) := none
  row : OperatorRow
  row_eq : Operator.infixRow? operator.1 = some row
  binary : row.fixity.isBinary = true
  before_mem : ∀ t ∈ before, row.node = .compareExpr ∧ Operator.isNegation t.1 = true ∨
    row.node = .arrowExpr ∧ t.1 ∈ Operator.arrowMultiplicities
  after_mem : ∀ t ∈ after, row.node = .arrowExpr ∧ t.1 ∈ Operator.arrowMultiplicities

end Chain

/-- Operands with operators between them. -/
structure Chain where
  first : Chain.Operand
  rest : List (Chain.Link × Chain.Operand)

namespace Chain

/-! ### Operands and operators -/

namespace Operand

/-- The tokens of an operand. -/
def tokens : Operand → List (TokenKind × String)
  | .name text => [(.ident, text)]
  | .number text => [(.number, text)]
  | .parenthesized text _ =>
    (.punct .lparen, "(") :: (significantTokens text).map Token.toPair ++ [(.punct .rparen, ")")]

/-- The tree of an operand. -/
def tree : Operand → Tree
  | .name text => .node .nameRef [.node .qualName [.token .ident text]]
  | .number text => .node .constExpr [.token .number text]
  | .parenthesized text _ =>
    .node .parenExpr (.token (.punct .lparen) "("
      :: (Parse.ofText {} .oneExpression text).tree.bare.children
      ++ [.token (.punct .rparen) ")"])

def isParenthesized : Operand → Bool
  | .parenthesized .. => true
  | _ => false

end Operand

namespace Link

def level (l : Link) : Nat := l.row.level

def groupsRight (l : Link) : Bool := l.row.fixity == .binaryRight

/-- The tokens of an operator. -/
def tokens (l : Link) : List (TokenKind × String) := l.before.toList ++ l.operator :: l.after.toList

/-- The trees of an operator: that of a comparison or an arrow is a node. -/
def trees (l : Link) : List Tree :=
  let leaves := l.tokens.map fun t => .token t.1 t.2
  if l.row.node = .compareExpr then [.node .compareOp leaves]
  else if l.row.node = .arrowExpr then [.node .arrowOp leaves]
  else leaves

/-- Of two operators, one somewhere behind the other, the chain is split at the first. -/
def RootOver (l m : Link) : Prop := l.level < m.level ∨ l.level = m.level ∧ l.groupsRight = true

instance (l m : Link) : Decidable (l.RootOver m) := instDecidableOr

end Link

/-! ### Splitting -/

/-- A chain in two, at the operator that is the root of its tree. -/
structure Split (rest : List (Link × Operand)) where
  front : List (Link × Operand)
  link : Link
  operand : Operand
  back : List (Link × Operand)
  rest_eq : rest = front ++ (link, operand) :: back
  front_tight : ∀ s ∈ front, ¬ s.1.RootOver link
  back_tight : ∀ s ∈ back, link.RootOver s.1

namespace Split

variable {rest : List (Link × Operand)} {link : Link}

theorem front_subset (s : Split rest) : s.front ⊆ rest := fun t ht => by
  rw [s.rest_eq]
  exact List.mem_append_left _ ht

theorem back_subset (s : Split rest) : (s.link, s.operand) :: s.back ⊆ rest := fun t ht => by
  rw [s.rest_eq]
  exact List.mem_append_right _ ht

/-- No operator is looser than the root. -/
theorem level_le (s : Split rest) : ∀ t ∈ rest, s.link.level ≤ t.1.level := by
  intro t ht
  rw [s.rest_eq] at ht
  obtain ht | ht := List.mem_append.mp ht
  · have htight := s.front_tight t ht
    unfold Link.RootOver at htight
    omega
  obtain rfl | ht := List.mem_cons.mp ht
  · exact Nat.le_refl _
  · have htight := s.back_tight t ht
    unfold Link.RootOver at htight
    omega

/-- An operator in front that is the root over the others. -/
def atFirst (s : Split rest) (operand : Operand) (h : link.RootOver s.link) :
    Split ((link, operand) :: rest) where
  front := []
  link := link
  operand := operand
  back := rest
  rest_eq := rfl
  front_tight _ ht := absurd ht List.not_mem_nil
  back_tight t ht := by
    have hle := s.level_le t ht
    obtain h | ⟨h, hright⟩ := h
    · exact .inl (by omega)
    · exact (Nat.lt_or_eq_of_le (h ▸ hle)).imp id fun heq => ⟨heq, hright⟩

/-- An operator in front that leaves the root where it is. -/
def behind (s : Split rest) (operand : Operand) (h : ¬ link.RootOver s.link) :
    Split ((link, operand) :: rest) where
  front := (link, operand) :: s.front
  link := s.link
  operand := s.operand
  back := s.back
  rest_eq := congrArg _ s.rest_eq
  front_tight t ht := by
    obtain rfl | ht := List.mem_cons.mp ht
    · exact h
    · exact s.front_tight t ht
  back_tight := s.back_tight

end Split

/-- Where a chain is split. -/
def split (link : Link) (operand : Operand) :
    (rest : List (Link × Operand)) → Split ((link, operand) :: rest)
  | [] =>
    { front := [], link, operand, back := [], rest_eq := rfl
      front_tight := fun _ ht => absurd ht List.not_mem_nil
      back_tight := fun _ ht => absurd ht List.not_mem_nil }
  | (next, x) :: rest =>
    let s := split next x rest
    if h : link.RootOver s.link then s.atFirst operand h else s.behind operand h

/-- The tree of a chain: its root is the loosest operator, the last of those of a level that
groups to the left and the first of those of a level that groups to the right. -/
def tree : Chain → Tree
  | ⟨first, []⟩ => first.tree
  | ⟨first, (link, operand) :: rest⟩ =>
    let s := split link operand rest
    .node s.link.row.node
      (tree ⟨first, s.front⟩ :: s.link.trees ++ [tree ⟨s.operand, s.back⟩])
termination_by c => c.rest.length
decreasing_by
  all_goals
    have hlength := congrArg List.length (split link operand rest).rest_eq
    simp only [List.length_append, List.length_cons] at hlength ⊢
    omega

@[simp] theorem tree_operand (x : Operand) : tree ⟨x, []⟩ = x.tree := by rw [tree]

/-- What holds of single operands, and of a chain if it holds of what is in front of its root and
behind it, holds of every chain. -/
theorem split_induction {p : Chain → Prop} (operand : ∀ x, p ⟨x, []⟩)
    (root : ∀ first rest (s : Split rest), tree ⟨first, rest⟩ = .node s.link.row.node
        (tree ⟨first, s.front⟩ :: s.link.trees ++ [tree ⟨s.operand, s.back⟩]) →
      p ⟨first, s.front⟩ → p ⟨s.operand, s.back⟩ → p ⟨first, rest⟩) (c : Chain) : p c := by
  fun_induction tree c with
  | case1 first => exact operand first
  | case2 first link x rest s ihFront ihBack =>
    exact root first _ s (by rw [tree]) ihFront ihBack

/-! ### The tokens of a chain -/

/-- The tokens of operators with their operands. -/
def restTokens (rest : List (Link × Operand)) : List (TokenKind × String) :=
  rest.flatMap fun s => s.1.tokens ++ s.2.tokens

/-- The tokens of a chain. -/
def tokens (c : Chain) : List (TokenKind × String) := c.first.tokens ++ restTokens c.rest

theorem leavesAll_leaves (ts : List (TokenKind × String)) :
    Tree.leavesAll (ts.map fun t => .token t.1 t.2) = ts := by
  induction ts with
  | nil => rfl
  | cons t ts ih => rw [List.map_cons, Tree.leavesAll, ih, Tree.leaves, List.singleton_append]

theorem Link.leavesAll_trees (l : Link) : Tree.leavesAll l.trees = l.tokens := by
  unfold trees
  split
  · rw [Tree.leavesAll_singleton, Tree.leaves, leavesAll_leaves]
  split
  · rw [Tree.leavesAll_singleton, Tree.leaves, leavesAll_leaves]
  · exact leavesAll_leaves _

theorem Operand.leaves_tree (x : Operand) : x.tree.leaves = x.tokens := by
  cases x with
  | name | number => rfl
  | parenthesized text accepted =>
    obtain ⟨ts, htree, -, hleaves⟩ := Parse.expression_of_ok accepted
    rw [tree, tokens, htree, Tree.children, Tree.leaves, Tree.leavesAll_append, Tree.leavesAll,
      hleaves]
    rfl

theorem leaves_tree (c : Chain) : c.tree.leaves = c.tokens := by
  induction c using split_induction with
  | operand x => rw [tree_operand, x.leaves_tree, tokens, restTokens, List.flatMap_nil,
      List.append_nil]
  | root first rest s htree ihFront ihBack =>
    have hrest : restTokens rest
        = restTokens s.front ++ (s.link.tokens ++ (s.operand.tokens ++ restTokens s.back)) :=
      (congrArg restTokens s.rest_eq).trans (by simp [restTokens])
    rw [htree, Tree.leaves, Tree.leavesAll_append, Tree.leavesAll, Tree.leavesAll_singleton,
      ihFront, ihBack, Link.leavesAll_trees, tokens, tokens, tokens, hrest, List.append_assoc,
      List.append_assoc]

end Chain
end RelLang
