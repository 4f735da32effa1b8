import Mathlib
import RelLang.Proofs.Grammar.Operand
import RelLang.Proofs.Parse.Lossless
import RelLang.Proofs.View.Binary

/-!
# Operators are where the table puts them

In the tree of an expression that nothing is reported about, each operator between
two operands stands where its level and its grouping put it, whatever other
operators, bindings or brackets the operands are made of.
-/

namespace RelLang

/-! ### Levels -/

theorem OperatorRow.operandLevel_of_left {row : OperatorRow} (h : row.fixity = .binaryLeft) :
    row.operandLevel = row.level + 1 := by
  rw [operandLevel, h]

theorem OperatorRow.operandLevel_of_right {row : OperatorRow} (h : row.fixity = .binaryRight) :
    row.operandLevel = row.level := by
  rw [operandLevel, h]

theorem Operator.grouping_of_isBinary : ∀ row ∈ table, row.fixity.isBinary = true →
    row.fixity = .binaryLeft ∨ row.fixity = .binaryRight := by
  decide

namespace BinaryParts

variable {v : BinaryExpr} {behind : List (TokenKind × String)}

theorem mem_table (p : BinaryParts v.node.kind v.node.children behind) :
    p.row ∈ Operator.table := by
  obtain ⟨k, -, hrow⟩ := Option.bind_eq_some_iff.mp p.row_eq
  exact Operator.mem_table_of_infixRow? hrow

theorem isBinary (p : BinaryParts v.node.kind v.node.children behind) :
    p.row.fixity.isBinary = true := by
  have hform : ExprForm.ofKind? v.node.kind = some .binary := eq_of_beq v.admitted
  rw [← p.node_eq] at hform
  exact (Operator.form_of_row p.row p.mem_table).1.mpr hform

/-- An operand of a level at least has an operator of such a level. -/
theorem le_level {level : Nat} (p : BinaryParts v.node.kind v.node.children behind)
    (h : v.node.tree.AtLeast level) : level ≤ p.row.level :=
  h.2 p.row p.mem_table p.node_eq p.isBinary

/-- The operand behind the operator of an operand in front is tighter. -/
theorem lt_operandLevel {level : Nat} (p : BinaryParts v.node.kind v.node.children behind)
    (h : v.node.tree.Before level) : level < p.row.operandLevel := by
  have hfixity : p.row.fixity ≠ .behind := Fixity.ne_behind (.inl p.isBinary)
  exact h.2 p.row p.mem_table p.node_eq hfixity

end BinaryParts

theorem UnaryParts.lt_operandLevel {level : Nat} {u : UnaryExpr}
    (p : UnaryParts u.node.kind u.node.children) (h : u.node.tree.Before level) :
    level < p.row.operandLevel := by
  have hfront := Operator.isFront_of_frontRow? p.row_eq
  have hfixity : p.row.fixity ≠ .behind := Fixity.ne_behind (.inr hfront)
  exact h.2 p.row (Operator.mem_table_of_frontRow? p.row_eq) p.node_eq hfixity

/-! ### Nodes in their places -/

/-- The operator of a binary node, of a row of the table, is where the row puts it among the
tokens of the text. -/
structure BinaryExpr.InPlace (v : BinaryExpr) (row : OperatorRow) (tokens : List Token) : Prop where
  row_eq : v.row? = some row
  mem_table : row ∈ Operator.table
  node_eq : row.node = v.node.kind
  grouping : row.fixity = .binaryLeft ∨ row.fixity = .binaryRight
  complete : v.lhs.isSome = true ∧ v.rhs.isSome = true
  /-- An operator behind is tighter; one that groups to the right may be as loose as this one. -/
  behind : ∀ w : BinaryExpr,
    v.rhs.map (·.node) = some w.node ∨ v.elseBranch.map (·.node) = some w.node →
    ∃ inner, w.row? = some inner ∧
      (row.fixity = .binaryLeft → row.level < inner.level) ∧
      (row.fixity = .binaryRight → row.level ≤ inner.level)
  /-- An operator in front is tighter; one that groups to the left may be as loose as this one. -/
  front : ∀ w : BinaryExpr, v.lhs.map (·.node) = some w.node →
    ∃ inner, w.row? = some inner ∧
      (inner.fixity = .binaryLeft → row.level ≤ inner.level) ∧
      (inner.fixity = .binaryRight → row.level < inner.level)
  /-- An operator in front of its operand, which would have taken this operator, is tighter. -/
  applied : ∀ u : UnaryExpr, v.lhs.map (·.node) = some u.node →
    ∃ inner, u.row? = some inner ∧ row.level < inner.operandLevel
  /-- An implication leaves no `else` behind it to another. -/
  no_else : v.node.kind = .impliesExpr → v.elseBranch = none →
    (tokens.find? fun t => t.kind.isSignificant && decide (v.node.stop ≤ t.start)).map (·.kind)
      ≠ some (.keyword .elseKw)

section

variable {v : BinaryExpr} {behind : List (TokenKind × String)}

theorem BinaryExpr.node_mem_of_lhs {n : Located} (h : v.lhs.map (·.node) = some n) :
    n ∈ v.node.childNodes := by
  obtain ⟨w, hw, rfl⟩ := Option.map_eq_some_iff.mp h
  exact View.node_mem_childNodes_of_first hw

theorem BinaryExpr.node_mem_of_rhs {n : Located}
    (h : v.rhs.map (·.node) = some n ∨ v.elseBranch.map (·.node) = some n) :
    n ∈ v.node.childNodes := by
  have hat : ∃ (i : Nat) (w : Expr), v.exprs[i]? = some w ∧ w.node = n := by
    obtain h | h := h
    · obtain ⟨w, hw, hn⟩ := Option.map_eq_some_iff.mp h
      exact ⟨1, w, hw, hn⟩
    · obtain ⟨w, hw, hn⟩ := Option.map_eq_some_iff.mp h
      rw [elseBranch] at hw
      split at hw
      · exact ⟨2, w, hw, hn⟩
      · cases hw
  obtain ⟨i, w, hw, rfl⟩ := hat
  exact View.node_mem_childNodes_of_mem_all (List.mem_of_getElem? hw)

/-- The tree of an operand behind the operator. -/
theorem BinaryParts.atLeast_of_rhs (p : BinaryParts v.node.kind v.node.children behind)
    {n : Located} (h : v.rhs.map (·.node) = some n ∨ v.elseBranch.map (·.node) = some n) :
    n.tree.AtLeast p.row.operandLevel := by
  obtain h | h := h
  · have htree := p.rhs_eq
    obtain ⟨w, hw, rfl⟩ := Option.map_eq_some_iff.mp h
    rw [hw] at htree
    have hfits := p.rhs_fits
    rwa [← Option.some.inj htree] at hfits
  · obtain ⟨w, hw, rfl⟩ := Option.map_eq_some_iff.mp h
    obtain ⟨-, hnone⟩ | ⟨text, branch, -, hfits, htree⟩ := p.elseBranch_eq
    · rw [hnone] at hw
      cases hw
    · rw [hw] at htree
      rwa [← Option.some.inj htree] at hfits

theorem BinaryParts.before_of_lhs (p : BinaryParts v.node.kind v.node.children behind)
    {n : Located} (h : v.lhs.map (·.node) = some n) : n.tree.Before p.row.level := by
  have htree := p.lhs_eq
  obtain ⟨w, hw, rfl⟩ := Option.map_eq_some_iff.mp h
  rw [hw] at htree
  have hfits := p.lhs_fits
  rwa [← Option.some.inj htree] at hfits

/-- A node with its parts in place among nodes with theirs is where the table puts it. -/
theorem BinaryParts.inPlace (p : BinaryParts v.node.kind v.node.children behind)
    {tokens : List Token}
    (hnext : (tokens.find? fun t => t.kind.isSignificant && decide (v.node.stop ≤ t.start)).map
      (·.kind) = nextKind behind)
    (hchildren : ∀ n ∈ v.node.childNodes, ∃ behind, Fits n.kind n.children behind) :
    v.InPlace p.row tokens := by
  have hinner : ∀ w : BinaryExpr, w.node ∈ v.node.childNodes →
      ∃ behind, Nonempty (BinaryParts w.node.kind w.node.children behind) := by
    intro w hw
    obtain ⟨behind, hfits⟩ := hchildren _ hw
    exact ⟨behind, hfits.1 (eq_of_beq w.admitted)⟩
  refine ⟨p.row?_eq, p.mem_table, p.node_eq, Operator.grouping_of_isBinary _ p.mem_table p.isBinary,
    ⟨?_, ?_⟩, ?_, ?_, ?_, ?_⟩
  · have hlhs := congrArg Option.isSome p.lhs_eq
    rwa [Option.isSome_map] at hlhs
  · have hrhs := congrArg Option.isSome p.rhs_eq
    rwa [Option.isSome_map] at hrhs
  · intro w hw
    obtain ⟨_, ⟨q⟩⟩ := hinner w (BinaryExpr.node_mem_of_rhs hw)
    have hlevel := q.le_level (p.atLeast_of_rhs hw)
    refine ⟨q.row, q.row?_eq, fun hleft => ?_, fun hright => ?_⟩
    · rw [OperatorRow.operandLevel_of_left hleft] at hlevel
      omega
    · rwa [OperatorRow.operandLevel_of_right hright] at hlevel
  · intro w hw
    obtain ⟨_, ⟨q⟩⟩ := hinner w (BinaryExpr.node_mem_of_lhs hw)
    have hlevel := q.lt_operandLevel (p.before_of_lhs hw)
    refine ⟨q.row, q.row?_eq, fun hleft => ?_, fun hright => ?_⟩
    · rw [OperatorRow.operandLevel_of_left hleft] at hlevel
      omega
    · rwa [OperatorRow.operandLevel_of_right hright] at hlevel
  · intro u hu
    obtain ⟨_, hfits⟩ := hchildren _ (BinaryExpr.node_mem_of_lhs hu)
    obtain ⟨q⟩ := hfits.2 (eq_of_beq u.admitted)
    exact ⟨q.row, q.row?_eq, q.lt_operandLevel (p.before_of_lhs hu)⟩
  · intro hkind helse
    rw [hnext]
    obtain ⟨-, hnot⟩ | ⟨text, branch, htail, -⟩ := p.tail_fits
    · exact hnot hkind
    · obtain ⟨htail', -⟩ | ⟨_, _, -, -, hsome⟩ := p.elseBranch_eq
      · rw [htail'] at htail
        cases htail
      · rw [helse] at hsome
        cases hsome

end

/-! ### Readings without reports -/

theorem Located.of_root? {t : Tree} {n : Located} (h : root? t = some n) :
    t = n.tree ∧ n.start = 0 := by
  cases t with
  | token kind text => cases h
  | node kind children =>
    obtain rfl := Option.some.inj h
    exact ⟨rfl, rfl⟩

namespace Parse

/-- If nothing is reported, every node that is read fits. -/
theorem sound_final {config : ParseConfig} (hkeep : config.maxDiagnostics = none)
    (tokens : List Token) (hclean : (final config .oneExpression tokens).reports = []) :
    (final config .oneExpression tokens).Sound Fits := by
  have hkeeps : Rule.Keeps Fits (Grammar.exprRoot.run (setting config tokens)
      (Grammar.language.enter (setting config tokens) nestingLimit)) :=
    Grammar.keeps_advances (Grammar.calls_enter hkeep nestingLimit) Grammar.advances_exprRoot
  have hread := hkeeps (start config tokens) (valid_start config tokens)
    (State.sound_of_siblings_eq_nil (siblings_start config tokens))
  rw [final, Entry.rule, State.attachPending_reports] at hclean
  rw [final, Entry.rule]
  exact (hread hclean).attachPending fun _ => Grammar.fits_of_plain .error (by decide) _

theorem everywhere_ofTokens {config : ParseConfig} (hkeep : config.maxDiagnostics = none)
    (tokens : List Token) (hok : (ofTokens config .oneExpression tokens).ok = true) :
    (ofTokens config .oneExpression tokens).tree.Everywhere Fits [] := by
  rw [ok, reports_ofTokens, List.isEmpty_iff, List.reverse_eq_nil_iff] at hok
  have hsound := sound_final hkeep tokens hok
  have hrest := rest_final config .oneExpression tokens
  rw [tree_ofTokens]
  exact hsound.everywhere hrest (Grammar.fits_of_plain _ (by decide) _ _)

/-- The token behind a node is that which is found behind its place. -/
theorem nextKind_behind {text : String} {n : Located} {front back : List (TokenKind × String)}
    (hleaves : (tokenize text).map Token.toPair = front ++ n.tree.leaves ++ back)
    (hstart : n.start = Tree.bytes front) :
    ((tokenize text).find? fun t => t.kind.isSignificant && decide (n.stop ≤ t.start)).map (·.kind)
      = nextKind back := by
  obtain ⟨ts, us, htokens, hts, rfl⟩ := List.map_eq_append_iff.mp hleaves
  have hstop : n.stop = Token.size ts := by
    have hbytes : Tree.bytes (ts.map Token.toPair) = Token.size ts := by
      rw [Tree.bytes, List.map_map]
      rfl
    rw [Located.stop, hstart, Tree.width_eq, ← Tree.bytes_append, ← hts, hbytes]
  have hplaced := placed_tokenize text
  rw [htokens] at hplaced
  rw [htokens, hstop, hplaced.find?_behind, nextKind_map]

/-- If nothing is reported about an expression, each operator between two operands in it is where
the table puts it: operators in its operands are tighter, or as loose where both group that way;
an operator in front of its left operand is tighter; and no implication leaves an `else` that
stands behind it to another. -/
theorem operators_in_place (text : String) (hok : (ofText {} .oneExpression text).ok = true)
    {root : ExprRoot} (hroot : Located.root? (ofText {} .oneExpression text).tree = some root.node)
    {v : BinaryExpr} (hv : v ∈ root.descendants .binaryExpr) :
    ∃ row, v.InPlace row (tokenize text) := by
  have heverywhere := everywhere_ofTokens rfl (tokenize text) hok
  have hleaves := (reading_lossless {} .oneExpression text).1
  obtain ⟨htree, hzero⟩ := Located.of_root? hroot
  have hnodes : ∀ n ∈ root.node.descendants, ∃ back,
      ((tokenize text).find? fun t => t.kind.isSignificant && decide (n.stop ≤ t.start)).map
        (·.kind) = nextKind back ∧ Fits n.kind n.children back := by
    intro n hn
    obtain ⟨front, back, hbetween, hstart, hfits⟩ :=
      Located.everywhere_of_mem_nodesOf root.node.tree (htree ▸ heverywhere) hn
    rw [List.append_nil, ← htree, hleaves] at hbetween
    rw [hzero, Nat.zero_add] at hstart
    have hnext := nextKind_behind hbetween hstart
    exact ⟨back, hnext, hfits⟩
  obtain ⟨n, hn, hview⟩ := List.mem_filterMap.mp hv
  obtain rfl := Located.node_of_as? hview
  obtain ⟨back, hnext, hfits⟩ := hnodes _ hn
  obtain ⟨p⟩ := hfits.1 (eq_of_beq v.admitted)
  refine ⟨p.row, p.inPlace hnext fun m hm => ?_⟩
  obtain ⟨back, -, hfits⟩ := hnodes m (Located.mem_descendants_of_mem_childNodes hn hm)
  exact ⟨back, hfits⟩

/-- In `!a => b + c` the implication is in its place, between the negation and the union. -/
theorem operators_in_place_implication :
    ∃ (root : ExprRoot) (v : BinaryExpr), (ofText {} .oneExpression "!a => b + c").ok = true ∧
      Located.root? (ofText {} .oneExpression "!a => b + c").tree = some root.node ∧
      v ∈ root.descendants .binaryExpr ∧ v.node.kind = .impliesExpr ∧
      ∃ row, v.InPlace row (tokenize "!a => b + c") := by
  have hok : (ofText {} .oneExpression "!a => b + c").ok = true := by rw [ofText_eq]; rfl
  obtain ⟨children, htree⟩ : ∃ children, (ofText {} .oneExpression "!a => b + c").tree
      = .node .exprRoot [.node .impliesExpr children] :=
    ⟨[.node .unaryExpr [.token (.punct .bang) "!", .node .nameRef [.node .qualName [.token .ident "a"]]],
      .token .whitespace " ", .token (.punct .fatArrow) "=>", .token .whitespace " ",
      .node .unionExpr [.node .nameRef [.node .qualName [.token .ident "b"]],
        .token .whitespace " ", .token (.punct .plus) "+", .token .whitespace " ",
        .node .nameRef [.node .qualName [.token .ident "c"]]]], by rw [ofText_eq]; rfl⟩
  let root : ExprRoot := ⟨⟨.exprRoot, [.node .impliesExpr children], 0, []⟩, rfl⟩
  have hroot : Located.root? (ofText {} .oneExpression "!a => b + c").tree = some root.node :=
    congrArg Located.root? htree
  let v : BinaryExpr := ⟨⟨.impliesExpr, children, 0, []⟩, rfl⟩
  have hv : v ∈ root.descendants .binaryExpr := .head _
  exact ⟨root, v, hok, hroot, hv, rfl, operators_in_place "!a => b + c" hok hroot hv⟩

end Parse
end RelLang
