import RelLang.Proofs.Chain.Basic
import RelLang.Proofs.Parse.Context
import RelLang.Proofs.Term.Basic

/-!
# The trees of abstract expressions

What the text of an abstract expression is read as: a node for each form, with the
trees of the parts in it. Where parentheses are written there is a node for them too.
The leaves of the tree are the tokens that are written.
-/

namespace RelLang

open Form (argumentTrees commaTrees parenTree)

namespace Term

variable {α β γ : Type}

/-! ### Names and operators -/

/-- A token as a tree. -/
def leaf (t : TokenKind × String) : Tree := .token t.1 t.2

/-- A name in a node of its own. -/
def nameTree (w : Ident) : Tree := .node .name [leaf w.token]

def QualifiedName.tree (name : QualifiedName) : Tree := .node .qualName (name.tokens.map leaf)

theorem passes_get {row? : Option OperatorRow} {test : OperatorRow → Bool}
    (h : row?.any test = true) : test (row?.get (Option.isSome_of_any h)) = true := by
  obtain ⟨row, rfl, hrow⟩ := (Option.any_eq_true test row?).mp h
  exact hrow

/-- The row of an operator in front of its operand. -/
def frontRow (operator : Spelled isFront) : OperatorRow :=
  (Operator.frontRow? operator.kind).get operator.passes

theorem frontRow_eq (operator : Spelled isFront) :
    Operator.frontRow? operator.kind = some (frontRow operator) := (Option.some_get _).symm

theorem node_of_compareLevel : ∀ row ∈ Operator.table, row.level = Operator.compareLevel →
    row.node = .compareExpr := by
  decide

theorem isBinary_of_node_compare : ∀ row ∈ Operator.table, row.node = .compareExpr →
    row.fixity.isBinary = true := by
  decide

/-- The relation of a comparison is an operator of the row of comparisons. -/
theorem node_of_isComparison {k : TokenKind} (h : Operator.isComparison k = true) :
    ((Operator.infixRow? k).get (Option.isSome_of_any h)).node = .compareExpr :=
  node_of_compareLevel _ (Operator.mem_table_of_infixRow? (Option.some_get _).symm)
    (eq_of_beq (passes_get h))

/-- An implication is one of two tokens. -/
theorem kind_of_isImplication {k : TokenKind} (h : isImplication k = true) :
    k = .keyword .impliesKw ∨ k = .punct .fatArrow := by
  have hrow : ∀ row ∈ Operator.table, (row.node == .impliesExpr) = true →
      row.operators = [.keyword .impliesKw, .punct .fatArrow] := by
    decide
  obtain ⟨row, hk, hnode⟩ := (Option.any_eq_true _ _).mp h
  have hmem := (Operator.mem_of_infixRow? hk).2
  rw [hrow row (Operator.mem_table_of_infixRow? hk) hnode] at hmem
  simpa using hmem

/-- The operator with its row in the table. -/
def BinaryOperator.link : BinaryOperator → Chain.Link
  | .plain operator =>
    { operator := operator.token
      row := (Operator.infixRow? operator.kind).get (Option.isSome_of_any operator.passes)
      row_eq := (Option.some_get _).symm
      binary := by
        have h := passes_get operator.passes
        simp only [Bool.and_eq_true] at h
        exact h.1.1.1
      before_mem := fun _ h => absurd h (Option.not_mem_none _)
      after_mem := fun _ h => absurd h (Option.not_mem_none _) }
  | .compare negation relation =>
    { before := negation.map (·.token)
      operator := relation.token
      row := (Operator.infixRow? relation.kind).get (Option.isSome_of_any relation.passes)
      row_eq := (Option.some_get _).symm
      binary := isBinary_of_node_compare _
        (Operator.mem_table_of_infixRow? (Option.some_get _).symm)
        (node_of_isComparison relation.passes)
      before_mem := by
        rintro t ht
        obtain ⟨w, -, rfl⟩ := Option.map_eq_some_iff.mp ht
        exact .inl ⟨node_of_isComparison relation.passes, w.passes⟩
      after_mem := fun _ h => absurd h (Option.not_mem_none _) }
  | .arrow left right =>
    { before := left.map (word ·.val.keyword)
      operator := mark .arrow
      after := right.map (word ·.val.keyword)
      row := ⟨Operator.arrowLevel, [.punct .arrow], .binaryRight, .arrowExpr, false⟩
      row_eq := rfl
      binary := rfl
      before_mem := by
        rintro t ht
        obtain ⟨m, -, rfl⟩ := Option.map_eq_some_iff.mp ht
        exact .inr ⟨rfl, m.property⟩
      after_mem := by
        rintro t ht
        obtain ⟨m, -, rfl⟩ := Option.map_eq_some_iff.mp ht
        exact ⟨rfl, m.property⟩ }

theorem BinaryOperator.tokens_link (operator : BinaryOperator) :
    operator.link.tokens = operator.tokens := by
  cases operator with
  | plain operator => rfl
  | compare negation relation => cases negation <;> rfl
  | arrow left right => cases left <;> cases right <;> rfl

/-! ### Trees -/

def Declaration.tree (d : Declaration Tree) : Tree :=
  .node .quantDecl <| (if d.disj then [leaf (word .disjKw)] else [])
    ++ .node .nameList (argumentTrees (d.names.toList.map nameTree)) :: leaf (mark .colon)
    :: d.mult.toList.map (fun m => .node .mult [leaf (word m.val.keyword)]) ++ [d.type]

theorem Declaration.tree_eq (d : Declaration Tree) : d.tree = .node .quantDecl
    ((if d.disj then [leaf (word .disjKw)] else [])
      ++ ([.node .nameList (argumentTrees (d.names.toList.map nameTree))]
      ++ ([leaf (mark .colon)]
      ++ (d.mult.toList.map (fun m => .node .mult [leaf (word m.val.keyword)]) ++ [d.type])))) := by
  simp [tree]

def Binding.tree (b : Binding Tree) : Tree :=
  .node .letDecl [nameTree b.name, leaf (mark .eq), b.value]

namespace Shape

/-- The tree of an expression, of which the trees of the parts are given. -/
def tree : Shape Tree → Tree
  | .binary operator lhs rhs => .node operator.link.row.node (lhs :: operator.link.trees ++ [rhs])
  | .implies operator lhs rhs otherwise =>
    .node .impliesExpr <|
      [lhs, leaf operator.token, rhs] ++ (otherwise.map ([leaf (word .elseKw), ·])).getD []
  | .unary operator operand => .node (frontRow operator).node [leaf operator.token, operand]
  | .quantified quantifier decls body =>
    .node .quantExpr <| leaf (word quantifier.keyword) :: argumentTrees (decls.toList.map (·.tree))
      ++ [leaf (mark .bar), body]
  | .letIn isBind bindings body =>
    .node (if isBind then .bindExpr else .letExpr) <|
      leaf (word (if isBind then .bindKw else .letKw))
        :: argumentTrees (bindings.toList.map (·.tree)) ++ [leaf (mark .bar), body]
  | .comprehension decls body =>
    .node .comprehensionExpr <| leaf (mark .lbrace) :: argumentTrees (decls.toList.map (·.tree))
      ++ (body.map ([leaf (mark .bar), ·])).getD [] ++ [leaf (mark .rbrace)]
  | .boxJoin target arguments =>
    .node .boxJoinExpr [target, leaf (mark .lbracket), .node .exprList (argumentTrees arguments),
      leaf (mark .rbracket)]
  | .prime operand => .node .primeExpr [operand, leaf (mark .prime)]
  | .const value => .node .constExpr ((constTokens value.val).map leaf)
  | .nameRef name => .node .nameRef [name.tree]
  | .atName name => .node .atNameExpr [leaf (mark .atSign), nameTree name]
  | .atom name => .node .atomExpr [leaf (.atomName, "\x60" ++ name.name)]
  | .this => .node .thisExpr [leaf (word .thisKw)]
  | .sexpr text => .node .sexprExpr [leaf text.token]
  | .block items => .node .block (leaf (mark .lbrace) :: items ++ [leaf (mark .rbrace)])

/-- The tree with the parentheses that a negative number stands in. -/
def writtenTree (s : Shape Tree) : Tree := if s.isNegative then parenTree s.tree else s.tree

end Shape

/-- The tree of an expression. -/
def tree : {n : Nat} → Term n → Tree
  | n + 1, e => Shape.writtenTree <| Shape.map
      (fun part : Term n => if part.isAtomic then tree part else parenTree (tree part)) e

/-- The tree of an expression that is a part of another one. -/
def partTree {n : Nat} (e : Term n) : Tree := if e.isAtomic then e.tree else parenTree e.tree

theorem tree_succ {n : Nat} (s : Shape (Term n)) :
    tree (n := n + 1) s = (s.map partTree).writtenTree := rfl

/-! ### Leaves -/

@[simp] theorem leaves_leaf (t : TokenKind × String) : (leaf t).leaves = [t] := rfl

@[simp] theorem leavesAll_leaf (ts : List (TokenKind × String)) :
    Tree.leavesAll (ts.map leaf) = ts :=
  Chain.leavesAll_leaves ts

theorem leavesAll_commaTrees (ts : List Tree) :
    Tree.leavesAll (commaTrees ts) = (ts.map Tree.leaves).flatMap (mark .comma :: ·) := by
  induction ts with
  | nil => rfl
  | cons t ts ih =>
    have hsplit : commaTrees (t :: ts) = [leaf (mark .comma), t] ++ commaTrees ts := rfl
    rw [hsplit, Tree.leavesAll_append, ih, Tree.leavesAll, Tree.leavesAll_singleton]
    rfl

/-- Trees with commas between them. -/
@[simp] theorem leavesAll_argumentTrees (ts : List Tree) :
    Tree.leavesAll (argumentTrees ts) = separated (mark .comma) (ts.map Tree.leaves) := by
  cases ts with
  | nil => rfl
  | cons t ts =>
    rw [argumentTrees, Tree.leavesAll, leavesAll_commaTrees]
    rfl

theorem leaves_parenTree (t : Tree) : (parenTree t).leaves = parenthesized t.leaves := by
  simp only [parenTree, Tree.leaves, Tree.leavesAll]
  rfl

theorem Declaration.leaves_tree (d : Declaration Tree) :
    d.tree.leaves = (d.map Tree.leaves).tokens := by
  have hnames : (d.names.toList.map nameTree).map Tree.leaves = d.names.toList.map ([·.token]) := by
    rw [List.map_map]
    rfl
  have hdisj : Tree.leavesAll (if d.disj then [leaf (word .disjKw)] else [])
      = if d.disj then [word .disjKw] else [] := by
    cases d.disj <;> rfl
  have hmult : Tree.leavesAll (d.mult.toList.map fun m => .node .mult [leaf (word m.val.keyword)])
      = d.mult.toList.map (word ·.val.keyword) := by
    cases d.mult <;> rfl
  have htokens : (d.map Tree.leaves).tokens = (if d.disj then [word .disjKw] else [])
      ++ separated (mark .comma) (d.names.toList.map ([·.token]))
      ++ mark .colon :: d.mult.toList.map (word ·.val.keyword) ++ d.type.leaves := rfl
  rw [htokens, tree, Tree.leaves, Tree.leavesAll_append, Tree.leavesAll_append, hdisj,
    Tree.leavesAll, Tree.leavesAll, hmult, Tree.leaves, leavesAll_argumentTrees, hnames]
  simp

theorem Binding.leaves_tree (b : Binding Tree) :
    b.tree.leaves = (b.map Tree.leaves).tokens := by
  simp [tree, tokens, map, Tree.leaves, Tree.leavesAll, nameTree]

theorem leavesAll_eq_flatten (ts : List Tree) :
    Tree.leavesAll ts = (ts.map Tree.leaves).flatten := by
  induction ts with
  | nil => rfl
  | cons t ts ih => rw [Tree.leavesAll, ih, List.map_cons, List.flatten_cons]

/-- The leaves of a tree are the tokens of the expression. -/
theorem Shape.leaves_tree (s : Shape Tree) : s.tree.leaves = (s.map Tree.leaves).tokens := by
  cases s with
  | binary operator lhs rhs =>
    simp [tree, map, tokens, Tree.leaves, Tree.leavesAll, Chain.Link.leavesAll_trees,
      BinaryOperator.tokens_link]
  | implies operator lhs rhs otherwise =>
    cases otherwise <;> simp [tree, map, tokens, Tree.leaves, Tree.leavesAll]
  | unary operator operand => simp [tree, map, tokens, Tree.leaves, Tree.leavesAll]
  | quantified quantifier decls body =>
    simp [tree, map, tokens, Tree.leaves, Tree.leavesAll, Declaration.leaves_tree,
      Function.comp_def]
  | letIn isBind bindings body =>
    simp [tree, map, tokens, Tree.leaves, Tree.leavesAll, Binding.leaves_tree,
      Function.comp_def]
  | comprehension decls body =>
    cases body <;> simp [tree, map, tokens, Tree.leaves, Tree.leavesAll, Declaration.leaves_tree,
      Function.comp_def]
  | boxJoin target arguments => simp [tree, map, tokens, Tree.leaves, Tree.leavesAll]
  | prime operand => simp [tree, map, tokens, Tree.leaves, Tree.leavesAll]
  | nameRef name => simp [tree, map, tokens, Tree.leaves, Tree.leavesAll, QualifiedName.tree]
  | atName name => simp [tree, map, tokens, Tree.leaves, Tree.leavesAll, nameTree]
  | const | atom | this | sexpr => simp [tree, map, tokens, Tree.leaves, Tree.leavesAll]
  | block items =>
    simp [tree, map, tokens, Tree.leaves, Tree.leavesAll, leavesAll_eq_flatten]

theorem Several.map_map (g : β → γ) (f : α → β) (s : Several α) :
    (s.map f).map g = s.map (g ∘ f) := by
  simp [Several.map]

theorem Shape.map_map (g : β → γ) (f : α → β) (s : Shape α) : (s.map f).map g = s.map (g ∘ f) := by
  cases s with
  | implies operator lhs rhs otherwise => simp [map]
  | quantified quantifier decls body => simp only [map, Several.map_map]; rfl
  | letIn isBind bindings body => simp only [map, Several.map_map]; rfl
  | comprehension decls body => simp only [map, Several.map_map, Option.map_map]; rfl
  | boxJoin target arguments => simp [map]
  | block items => simp [map]
  | binary | unary | prime | const | nameRef | atName | atom | this | sexpr => rfl

theorem Shape.isNegative_map (f : α → β) (s : Shape α) : (s.map f).isNegative = s.isNegative := by
  cases s <;> rfl

/-- Parentheses in the tree are parentheses in the text. -/
theorem Shape.leaves_writtenTree (s : Shape Tree) :
    s.writtenTree.leaves = (s.map Tree.leaves).written := by
  rw [writtenTree, written, isNegative_map]
  split
  · rw [leaves_parenTree, leaves_tree]
  · exact leaves_tree s

/-- The leaves of the tree of an expression are the tokens that are written. -/
theorem leaves_tree : {n : Nat} → (e : Term n) → e.tree.leaves = e.tokens
  | n + 1, (s : Shape (Term n)) => by
    have hpart : Tree.leaves ∘ partTree
        = fun part : Term n => if part.isAtomic then part.tokens else parenthesized part.tokens := by
      funext part
      rw [Function.comp_apply, partTree]
      split
      · exact leaves_tree part
      · rw [leaves_parenTree, leaves_tree part]
    rw [tree_succ, Shape.leaves_writtenTree, Shape.map_map, hpart]
    rfl

end Term
end RelLang
