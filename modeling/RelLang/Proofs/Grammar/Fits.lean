import RelLang.Operator
import RelLang.Proofs.Tree.Everywhere
import RelLang.View.Category

/-!
# Nodes that fit the table of operators

What it means for the node of an operator to be in its place: which operator it is,
which operands it may have, and which token must not stand behind it.
-/

namespace RelLang

/-! ### The table -/

namespace Fixity

theorem isBinary_of_isFront {f : Fixity} (h : f.isFront = true) : f.isBinary = false := by
  cases f with
  | front | frontRepeated => rfl
  | binaryLeft | binaryRight | binaryNone | behind => cases h

theorem ne_behind {f : Fixity} (h : f.isBinary = true ∨ f.isFront = true) : f ≠ .behind := by
  rintro rfl
  obtain h | h := h
  · cases h
  · cases h

theorem eq_behind {f : Fixity} (hfront : f.isFront = false) (hbinary : f.isBinary = false) :
    f = .behind := by
  cases f with
  | front | frontRepeated => cases hfront
  | binaryLeft | binaryRight | binaryNone => cases hbinary
  | behind => rfl

end Fixity

namespace Operator

/-- The kind of a node tells the level of its operator and that of the operand behind it. -/
theorem level_eq_of_node_eq : ∀ row ∈ table, ∀ row' ∈ table, row.node = row'.node →
    row.level = row'.level ∧ row.operandLevel = row'.operandLevel ∧
      row.fixity = row'.fixity := by
  decide

/-- The operators between operands make the nodes that are seen as binary, those in front of an
operand the nodes that are seen as unary. -/
theorem form_of_row : ∀ row ∈ table,
    (row.fixity.isBinary = true ↔ ExprForm.ofKind? row.node = some .binary) ∧
    (row.fixity.isFront = true ↔ ExprForm.ofKind? row.node = some .unary) ∧
    (ExprForm.ofKind? row.node).isSome = true := by
  decide

theorem mem_table_of_infixRow? {k : TokenKind} {row : OperatorRow} (h : infixRow? k = some row) :
    row ∈ table :=
  List.mem_of_find?_eq_some h

theorem mem_table_of_frontRow? {k : TokenKind} {row : OperatorRow} (h : frontRow? k = some row) :
    row ∈ table :=
  List.mem_of_find?_eq_some h

theorem isFront_of_frontRow? {k : TokenKind} {row : OperatorRow} (h : frontRow? k = some row) :
    row.fixity.isFront = true := by
  have hrow := List.find?_some h
  simp only [Bool.and_eq_true] at hrow
  exact hrow.1

theorem mem_of_infixRow? {k : TokenKind} {row : OperatorRow} (h : infixRow? k = some row) :
    row.fixity.isFront = false ∧ k ∈ row.operators := by
  have hrow := List.find?_some h
  simpa using hrow

theorem mem_of_frontRow? {k : TokenKind} {row : OperatorRow} (h : frontRow? k = some row) :
    k ∈ row.operators := by
  have hrow := List.find?_some h
  simp only [Bool.and_eq_true] at hrow
  exact List.contains_iff_mem.mp hrow.2

theorem isNegation_eq (k : TokenKind) :
    isNegation k = (k == .punct .bang || k == .keyword .notKw) := by
  unfold isNegation
  split <;> simp_all

theorem isTrivia_of_mem_operators : ∀ row ∈ table, ∀ k ∈ row.operators, k.isTrivia = false := by
  decide

/-- No operator behind an operand is a negation. -/
theorem isNegation_of_mem_operators : ∀ row ∈ table, row.fixity.isFront = false →
    ∀ k ∈ row.operators, isNegation k = false := by
  decide

theorem isTrivia_of_infixRow? {k : TokenKind} {row : OperatorRow} (h : infixRow? k = some row) :
    k.isTrivia = false :=
  isTrivia_of_mem_operators row (mem_table_of_infixRow? h) k (mem_of_infixRow? h).2

theorem isTrivia_of_frontRow? {k : TokenKind} {row : OperatorRow} (h : frontRow? k = some row) :
    k.isTrivia = false :=
  isTrivia_of_mem_operators row (mem_table_of_frontRow? h) k (mem_of_frontRow? h)

theorem isNegation_of_infixRow? {k : TokenKind} {row : OperatorRow} (h : infixRow? k = some row) :
    isNegation k = false :=
  isNegation_of_mem_operators row (mem_table_of_infixRow? h) (mem_of_infixRow? h).1 k
    (mem_of_infixRow? h).2

theorem ofRow_of_level_eq : ∀ row ∈ table, row.fixity.isFront = false → row.level = compareLevel →
    Extension.ofRow row = ⟨.compareExpr, compareLevel, some (compareLevel + 1), false⟩ := by
  decide

theorem operandLevel_implies : ∀ row ∈ table, row.node = .impliesExpr →
    row.operandLevel = impliesLevel := by
  decide

theorem operators_arrow : ∀ row ∈ table, row.node = .arrowExpr →
    row.operators = [.punct .arrow] := by
  decide

/-- The continuation is that of a row of the table. The operator of the row is the first token,
the one behind a negation, or an arrow behind its multiplicity. -/
theorem ofRow_of_extension? {first : TokenKind} {second : Option TokenKind} {e : Extension}
    (h : extension? first second = some e) :
    ∃ k row, infixRow? k = some row ∧ e = .ofRow row ∧
      (k = first ∨
        isNegation first = true ∧ second = some k ∧ row.node = .compareExpr ∨
        arrowMultiplicities.contains first = true ∧ second = some k ∧ k = .punct .arrow) := by
  unfold extension? at h
  split at h
  · next hnegated =>
    obtain ⟨hfirst, hsecond⟩ := Bool.and_eq_true_iff.mp hnegated
    obtain ⟨k, rfl, hk⟩ := Option.any_eq_true _ _ |>.mp hsecond
    obtain ⟨row, hrow, hlevel⟩ := Option.any_eq_true _ _ |>.mp hk
    have hrow' := ofRow_of_level_eq row (mem_table_of_infixRow? hrow) (mem_of_infixRow? hrow).1
      (eq_of_beq hlevel)
    refine ⟨k, row, hrow, ?_, .inr (.inl ⟨hfirst, rfl, congrArg Extension.node hrow'⟩)⟩
    rw [hrow']
    exact (Option.some.inj h).symm
  · split at h
    · next harrow =>
      obtain ⟨hfirst, hsecond⟩ := Bool.and_eq_true_iff.mp harrow
      obtain rfl := eq_of_beq hsecond
      refine ⟨.punct .arrow, _, rfl, ?_, .inr (.inr ⟨hfirst, rfl, rfl⟩)⟩
      exact (Option.some.inj h).symm
    · split at h
      · cases h
      · obtain ⟨row, hrow, he⟩ := Option.map_eq_some_iff.mp h
        exact ⟨first, row, hrow, he.symm, .inl rfl⟩

/-- The operators behind their operands. -/
theorem postfix_of_extension? {first : TokenKind} {second : Option TokenKind}
    {e : Extension} (h : extension? first second = some e) (hnone : e.operandLevel? = none) :
    first = .punct .lbracket ∨ first = .punct .prime := by
  have hbehind : ∀ row ∈ table, (Extension.ofRow row).operandLevel? = none →
      row.fixity.isFront = false → row.node ≠ .compareExpr ∧
        ∀ k ∈ row.operators, k = .punct .lbracket ∨ k = .punct .prime := by
    decide
  obtain ⟨k, row, hrow, rfl, hfirst⟩ := ofRow_of_extension? h
  have hmem := mem_of_infixRow? hrow
  obtain ⟨hcompare, hoperators⟩ := hbehind row (mem_table_of_infixRow? hrow) hnone hmem.1
  have hk := hoperators k hmem.2
  obtain rfl | ⟨-, -, hnode⟩ | ⟨-, -, rfl⟩ := hfirst
  · exact hk
  · exact absurd hnode hcompare
  · simp at hk

end Operator

/-! ### Solid trees -/

namespace Tree

/-- A token that the grammar does not see, or an error. -/
def isSkipped : Tree → Bool
  | .token kind _ => kind.isTrivia
  | .node kind _ => kind == .error

/-- The trees that stand for something. -/
def solid (ts : List Tree) : List Tree := ts.filter (!·.isSkipped)

/-- The kinds of the tokens among some trees. -/
def tokenKinds (ts : List Tree) : List TokenKind :=
  ts.filterMap fun
    | .token kind _ => some kind
    | .node .. => none

/-- The operator that a tree stands for: a token, or the relation or the arrow in a node. -/
def operator? : Tree → Option TokenKind
  | .token kind _ => some kind
  | .node .compareOp children =>
    (tokenKinds children).find? fun k => !k.isTrivia && k != .punct .bang && k != .keyword .notKw
  | .node .arrowOp children => (tokenKinds children).find? (· == .punct .arrow)
  | .node .. => none

/-- An expression that no operator between operands makes looser than the level. -/
def AtLeast (level : Nat) : Tree → Prop
  | .token .. => False
  | .node kind _ => (ExprForm.ofKind? kind).isSome = true ∧
    ∀ row ∈ Operator.table, row.node = kind → row.fixity.isBinary = true → level ≤ row.level

/-- An expression that an operator of the level may stand behind: the operand that ends it, if an
operator ends in an operand, could not have taken that operator. -/
def Before (level : Nat) : Tree → Prop
  | .token .. => False
  | .node kind _ => (ExprForm.ofKind? kind).isSome = true ∧
    ∀ row ∈ Operator.table, row.node = kind → row.fixity ≠ .behind → level < row.operandLevel

end Tree

namespace Tree

theorem solid_node_cons {kind : NodeKind} (hkind : kind ≠ .error) (children ts : List Tree) :
    solid (.node kind children :: ts) = .node kind children :: solid ts :=
  List.filter_cons_of_pos (by simpa [isSkipped] using hkind)

theorem solid_token_cons {kind : TokenKind} (hkind : kind.isTrivia = false) (text : String)
    (ts : List Tree) : solid (.token kind text :: ts) = .token kind text :: solid ts :=
  List.filter_cons_of_pos (by simpa [isSkipped] using hkind)

/-- Skipped trees are in the way of no token with a meaning. -/
theorem find?_tokenKinds_solid {p : TokenKind → Bool} (hp : ∀ k, p k = true → k.isTrivia = false)
    (ts : List Tree) : (tokenKinds (solid ts)).find? p = (tokenKinds ts).find? p := by
  induction ts with
  | nil => rfl
  | cons t ts ih =>
    cases t with
    | node kind children =>
      by_cases hkind : kind = .error <;> simpa [solid, tokenKinds, isSkipped, hkind] using ih
    | token kind text =>
      cases htrivia : kind.isTrivia with
      | false =>
        have hcons : ∀ us, tokenKinds (.token kind text :: us) = kind :: tokenKinds us :=
          fun _ => rfl
        rw [solid_token_cons htrivia, hcons, hcons, List.find?_cons, List.find?_cons, ih]
      | true =>
        have hsolid : solid (.token kind text :: ts) = solid ts :=
          List.filter_cons_of_neg (by simp [isSkipped, htrivia])
        have hno : p kind = false := by
          cases hk : p kind with
          | false => rfl
          | true => exact absurd (hp kind hk) (by simp [htrivia])
        rw [hsolid, ih]
        simp [tokenKinds, hno]

theorem solid_reverse (ts : List Tree) : solid ts.reverse = (solid ts).reverse := by
  rw [solid, List.filter_reverse, solid]

end Tree

/-! ### Nodes of operators -/

/-- The kind of the first token that the grammar sees. -/
def nextKind (ls : List (TokenKind × String)) : Option TokenKind :=
  (ls.find? (·.1.isSignificant)).map (·.1)

theorem nextKind_map (ts : List Token) :
    nextKind (ts.map Token.toPair) = (ts.find? (·.kind.isSignificant)).map (·.kind) := by
  have hfind : (ts.map Token.toPair).find? (·.1.isSignificant)
      = (ts.find? (·.kind.isSignificant)).map Token.toPair := by
    rw [List.find?_map]
    rfl
  rw [nextKind, hfind, Option.map_map]
  rfl

/-- What may stand behind the right operand in a node: nothing, and then an implication has no
`else` behind it, or an `else` with its operand. -/
def TailFits (kind : NodeKind) (level : Nat) (next : Option TokenKind) (tail : List Tree) : Prop :=
  (tail = [] ∧ (kind = .impliesExpr → next ≠ some (.keyword .elseKw))) ∨
    ∃ text branch, tail = [.token (.keyword .elseKw) text, branch] ∧ branch.AtLeast level

/-- The parts of a node of an operator between two operands, each in its place. -/
structure BinaryParts (kind : NodeKind) (children : List Tree)
    (behind : List (TokenKind × String)) where
  row : OperatorRow
  lhs : Tree
  op : Tree
  rhs : Tree
  tail : List Tree
  row_eq : op.operator?.bind Operator.infixRow? = some row
  node_eq : row.node = kind
  solid_eq : Tree.solid children = lhs :: op :: rhs :: tail
  lhs_fits : lhs.Before row.level
  rhs_fits : rhs.AtLeast row.operandLevel
  tail_fits : TailFits kind row.operandLevel (nextKind behind) tail

/-- The parts of a node of an operator in front of an operand. -/
structure UnaryParts (kind : NodeKind) (children : List Tree) where
  row : OperatorRow
  operator : TokenKind
  text : String
  operand : Tree
  row_eq : Operator.frontRow? operator = some row
  node_eq : row.node = kind
  solid_eq : Tree.solid children = [.token operator text, operand]

/-- A node that is made of an operator and operands has its parts in place. -/
def Fits (kind : NodeKind) (children : List Tree) (behind : List (TokenKind × String)) : Prop :=
  (ExprForm.ofKind? kind = some .binary → Nonempty (BinaryParts kind children behind)) ∧
  (ExprForm.ofKind? kind = some .unary → Nonempty (UnaryParts kind children))

end RelLang
