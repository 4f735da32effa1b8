import RelLang.Proofs.Chain.Basic
import RelLang.Proofs.Parse.Precedence
import RelLang.Proofs.Syntax.Outside

/-!
# Chains are expressions

The tree of a chain is derived from the form of an expression. The operators in front
of its root are followed by that, which is looser than their operands may be; those
behind it are as tight as the operand of the root has to be.
-/

namespace RelLang

namespace Chain

/-! ### What is ahead of a chain and behind it -/

/-- A token that can stand behind an operand. -/
def follows (k : TokenKind) : Bool :=
  (Operator.infixRow? k).isSome || Operator.isNegation k || Operator.arrowMultiplicities.contains k

/-- An operand can end in front of these tokens. -/
def Ends (ks : List TokenKind) : Prop := ∀ k ∈ ks[0]?, follows k = true

/-- What cannot stand behind an operand is not ahead. -/
theorem Ends.not_at? {ks : List TokenKind} (h : Ends ks) {k : TokenKind}
    (hk : follows k = false) : Form.at? k ks = false := by
  refine Bool.eq_false_iff.mpr fun hat => ?_
  have hfirst : ks[0]? = some k := eq_of_beq hat
  rw [h k (Option.mem_def.mpr hfirst)] at hk
  cases hk

/-- The kinds of the first token of an operand in which operators stand in brackets only. -/
def operandKinds : List TokenKind :=
  [.ident, .number, .punct .lparen, .keyword .intKw, .keyword .seqKw, .keyword .thisKw,
   .keyword .noneKw, .keyword .univKw, .keyword .idenKw, .punct .atSign, .atomName, .sexpr]

theorem of_mem_operandKinds : ∀ k ∈ operandKinds, Operator.startsExpr k = true ∧
    Operator.arrowMultiplicities.contains k = false ∧ k ∉ Operator.testResults := by
  decide

/-- An operand is ahead, and no declaration. -/
def Starts (ks : List TokenKind) : Prop :=
  ∃ k behind, ks = k :: behind ∧ k ∈ operandKinds ∧ Grammar.declarationAhead ks = false

namespace Link

variable (l : Link)

/-- The first token of an operator. -/
def front : TokenKind := (l.before.getD l.operator).1

theorem kinds_trees : Tree.kinds l.trees = l.tokens.map (·.1) := by
  rw [Tree.kinds, leavesAll_trees]

theorem follows_front : follows l.front = true := by
  unfold follows front
  cases hbefore : l.before with
  | none => rw [Option.getD_none, l.row_eq]; rfl
  | some t =>
    obtain ⟨-, h⟩ | ⟨-, h⟩ := l.before_mem t hbefore
    · simp [h]
    · simp [h]

theorem tokens_eq : ∃ ts, l.tokens.map (·.1) = l.front :: ts := by
  unfold tokens front
  cases l.before with
  | none => exact ⟨_, rfl⟩
  | some t => exact ⟨_, rfl⟩

theorem ends_trees (ks : List TokenKind) : Ends (Tree.kinds l.trees ++ ks) := by
  obtain ⟨ts, hts⟩ := l.tokens_eq
  intro k hk
  rw [kinds_trees, hts] at hk
  obtain rfl := Option.some.inj (Option.mem_def.mp hk)
  exact l.follows_front

end Link

theorem ends_restTokens (rest : List (Link × Operand)) {ks : List TokenKind} (h : Ends ks) :
    Ends ((restTokens rest).map (·.1) ++ ks) := by
  cases rest with
  | nil => exact h
  | cons s rest =>
    have htokens := s.1.ends_trees (s.2.tokens.map (·.1) ++ ((restTokens rest).map (·.1) ++ ks))
    rw [Link.kinds_trees] at htokens
    simpa [restTokens] using htokens

theorem Ends.namesEndInColon {ks : List TokenKind} (h : Ends ks) :
    Grammar.namesEndInColon ks = false := by
  unfold Grammar.namesEndInColon
  split
  · have hcomma : follows (.punct .comma) = true := h _ rfl
    cases hcomma
  · have hcolon : follows (.punct .colon) = true := h _ rfl
    cases hcolon
  · rfl

theorem starts_tokens (c : Chain) {ks : List TokenKind} (h : Ends ks) :
    Starts (c.tokens.map (·.1) ++ ks) := by
  obtain ⟨first, rest⟩ := c
  have hrest := ends_restTokens rest h
  rw [tokens, List.map_append, List.append_assoc]
  cases first with
  | name text => exact ⟨.ident, _, rfl, by decide, hrest.namesEndInColon⟩
  | number text => exact ⟨.number, _, rfl, by decide, rfl⟩
  | parenthesized text accepted => exact ⟨.punct .lparen, _, rfl, by decide, rfl⟩

/-! ### What is derived -/

end Chain

namespace Operator

variable {first k : TokenKind} {row : OperatorRow}

theorem level_of_node_compare : ∀ row ∈ table, row.node = .compareExpr →
    row.level = compareLevel := by
  decide

theorem not_isNegation_of_arrowMult : ∀ k ∈ arrowMultiplicities, isNegation k = false := by
  decide

theorem ofRow_of_node_arrow : ∀ row ∈ table, row.node = .arrowExpr →
    Extension.ofRow row = ⟨.arrowExpr, arrowLevel, some arrowLevel, false⟩ := by
  decide

/-- A negation in front of a comparison. -/
theorem extension?_of_isNegation (hfirst : isNegation first = true)
    (hrow : infixRow? k = some row) (hnode : row.node = .compareExpr) :
    extension? first (some k) = some (.ofRow row) := by
  have hmem := mem_table_of_infixRow? hrow
  have hlevel := level_of_node_compare row hmem hnode
  have hcompare : isComparison k = true := by
    rw [isComparison, hrow, Option.any_some, hlevel, beq_self_eq_true]
  rw [extension?, hfirst, Option.any_some, hcompare, Bool.and_self, if_pos rfl,
    ofRow_of_level_eq row hmem (mem_of_infixRow? hrow).1 hlevel]

/-- A multiplicity in front of an arrow. -/
theorem extension?_of_arrowMult (hfirst : first ∈ arrowMultiplicities)
    (hrow : infixRow? k = some row) (hnode : row.node = .arrowExpr) :
    extension? first (some k) = some (.ofRow row) := by
  have hmem := mem_table_of_infixRow? hrow
  have hoperators := (mem_of_infixRow? hrow).2
  rw [operators_arrow row hmem hnode] at hoperators
  obtain rfl := List.mem_singleton.mp hoperators
  rw [extension?, not_isNegation_of_arrowMult _ hfirst, Bool.false_and,
    if_neg Bool.false_ne_true, List.contains_iff_mem.mpr hfirst, beq_self_eq_true, Bool.and_self,
    if_pos rfl, ofRow_of_node_arrow row hmem hnode]

/-- An operator by itself; behind an `is` there must not be the result of a test. -/
theorem extension?_of_infixRow? (hrow : infixRow? first = some row)
    (hresult : first = .keyword .isKw → k ∉ testResults) :
    extension? first (some k) = some (.ofRow row) := by
  have hmem := mem_of_infixRow? hrow
  have hmult := not_arrowMult_of_mem_operators row (mem_table_of_infixRow? hrow) hmem.1 _ hmem.2
  have hends : ¬ (first == .keyword .isKw && (some k).any testResults.contains) = true := by
    rw [Bool.and_eq_true, beq_iff_eq, Option.any_some, List.contains_iff_mem]
    exact fun h => hresult h.1 h.2
  rw [extension?, isNegation_of_infixRow? hrow, Bool.false_and, if_neg Bool.false_ne_true, hmult,
    Bool.false_and, if_neg Bool.false_ne_true, if_neg hends, hrow, Option.map_some]

end Operator

namespace Chain

namespace Link

variable (l : Link) {ks : List TokenKind}

theorem mem_table : l.row ∈ Operator.table := Operator.mem_table_of_infixRow? l.row_eq

theorem isFront_eq : l.row.fixity.isFront = false := (Operator.mem_of_infixRow? l.row_eq).1

theorem mem_operators : l.operator.1 ∈ l.row.operators := (Operator.mem_of_infixRow? l.row_eq).2

/-- The tokens of an operator ask for the continuation of its row. -/
theorem extensionOf_eq (h : Starts ks) :
    Operator.extensionOf (Tree.kinds l.trees ++ ks) = some (l.front, .ofRow l.row) := by
  obtain ⟨k, behind, rfl, hk, -⟩ := h
  have hresult := (of_mem_operandKinds k hk).2.2
  rw [Operator.extensionOf_eq_some, kinds_trees]
  unfold tokens front
  cases hbefore : l.before with
  | some t =>
    refine ⟨rfl, ?_⟩
    obtain ⟨hnode, ht⟩ | ⟨hnode, ht⟩ := l.before_mem t hbefore
    · exact Operator.extension?_of_isNegation ht l.row_eq hnode
    · exact Operator.extension?_of_arrowMult ht l.row_eq hnode
  | none =>
    refine ⟨rfl, ?_⟩
    cases hafter : l.after with
    | none => exact Operator.extension?_of_infixRow? l.row_eq fun _ => hresult
    | some t =>
      refine Operator.extension?_of_infixRow? l.row_eq fun his => ?_
      have hmem := l.mem_operators
      rw [Operator.operators_arrow _ l.mem_table (l.after_mem t hafter).1] at hmem
      cases (List.mem_singleton.mp hmem).symm.trans his

theorem before_eq_none (hcompare : l.row.node ≠ .compareExpr) (harrow : l.row.node ≠ .arrowExpr) :
    l.before = none := by
  cases hbefore : l.before with
  | none => rfl
  | some t =>
    obtain ⟨hnode, -⟩ | ⟨hnode, -⟩ := l.before_mem t hbefore
    · exact absurd hnode hcompare
    · exact absurd hnode harrow

theorem after_eq_none (harrow : l.row.node ≠ .arrowExpr) : l.after = none := by
  cases hafter : l.after with
  | none => rfl
  | some t => exact absurd (l.after_mem t hafter).1 harrow

theorem derives_compareOperator {n : Nat} (hnode : l.row.node = .compareExpr) :
    (Form.compareOperator l.front).Derives n
      [.node .compareOp (l.tokens.map fun t => .token t.1 t.2)] ks := by
  refine .node ?_
  have hafter := l.after_eq_none fun heq => nomatch hnode.symm.trans heq
  rw [tokens, front, hafter]
  cases hbefore : l.before with
  | none =>
    rw [Option.getD_none, Operator.isNegation_of_infixRow? l.row_eq, if_neg Bool.false_ne_true]
    exact .one
  | some t =>
    obtain ⟨-, ht⟩ | ⟨harrow, -⟩ := l.before_mem t hbefore
    · rw [Option.getD_some, ht, if_pos rfl]
      have hcompare := l.mem_operators
      rw [Operator.operators_compare _ l.mem_table hnode] at hcompare
      exact .one_append (.token hcompare)
    · cases hnode.symm.trans harrow

/-- Behind an arrow, the multiplicity that belongs to it is read. -/
theorem derives_after {n : Nat} (h : Starts ks) :
    (Form.ifAhead Form.arrowMultAhead (.token Operator.arrowMultiplicities)).Derives n
      (l.after.toList.map fun t => .token t.1 t.2) ks := by
  obtain ⟨k, behind, rfl, hk, hdeclaration⟩ := h
  rw [Form.ifAhead, Form.derives_given]
  cases hafter : l.after with
  | none =>
    have hmult := (of_mem_operandKinds k hk).2.1
    have hnot : Form.arrowMultAhead (k :: behind) = false := by
      rw [Form.arrowMultAhead, Form.atAny, List.getElem?_cons_zero, Option.any_some, hmult]
      rfl
    rw [Option.toList_none, List.map_nil, Tree.kinds_nil, List.nil_append, hnot,
      if_neg Bool.false_ne_true]
    exact .nothing
  | some t =>
    have ht := (l.after_mem t hafter).2
    have hahead : Form.arrowMultAhead (t.1 :: k :: behind) = true := by
      have hbehind : Grammar.declarationBehind (t.1 :: k :: behind) = false := hdeclaration
      have hmult : Form.atAny Operator.arrowMultiplicities (t.1 :: k :: behind) = true :=
        List.contains_iff_mem.mpr ht
      rw [Form.arrowMultAhead, Form.quantifierAhead, hbehind, Bool.and_false, hmult]
      exact (of_mem_operandKinds k hk).1
    rw [Option.toList_some, List.map_cons, List.map_nil, Tree.kinds_token_cons, Tree.kinds_nil,
      List.cons_append, List.nil_append, hahead, if_pos rfl]
    exact .token ht

theorem derives_arrowOperator {n : Nat} (hnode : l.row.node = .arrowExpr) (h : Starts ks) :
    (Form.arrowOperator l.front).Derives n
      [.node .arrowOp (l.tokens.map fun t => .token t.1 t.2)] ks := by
  refine .node ?_
  rw [tokens, front, List.map_append, List.map_cons]
  have harrow := l.mem_operators
  rw [Operator.operators_arrow _ l.mem_table hnode] at harrow
  cases hbefore : l.before with
  | none =>
    have hmult := Operator.not_arrowMult_of_mem_operators _ l.mem_table l.isFront_eq _
      l.mem_operators
    rw [Option.getD_none, hmult, if_neg Bool.false_ne_true]
    exact (l.derives_after h).one_append
  | some t =>
    obtain ⟨hcompare, -⟩ | ⟨-, ht⟩ := l.before_mem t hbefore
    · cases hnode.symm.trans hcompare
    · rw [Option.getD_some, List.contains_iff_mem.mpr ht, if_pos rfl]
      refine Form.derives_append_assoc.mpr (.one_append ?_)
      exact Form.derives_append.mpr ⟨[_], _, rfl, .token harrow, l.derives_after h⟩

/-- The operators that are neither comparisons nor arrows are one token. -/
theorem infixOperator_eq {kind : NodeKind} (hcompare : kind ≠ .compareExpr)
    (harrow : kind ≠ .arrowExpr) (k : TokenKind) : Form.infixOperator kind k = .token [k] := by
  unfold Form.infixOperator
  split
  · exact absurd rfl hcompare
  · exact absurd rfl harrow
  · rfl

theorem derives_infixOperator {n : Nat} (h : Starts ks) :
    (Form.infixOperator l.row.node l.front).Derives n l.trees ks := by
  unfold trees
  by_cases hcompare : l.row.node = .compareExpr
  · rw [if_pos hcompare, hcompare]
    exact l.derives_compareOperator hcompare
  by_cases harrow : l.row.node = .arrowExpr
  · rw [if_neg hcompare, if_pos harrow, harrow]
    exact l.derives_arrowOperator harrow h
  rw [if_neg hcompare, if_neg harrow, infixOperator_eq hcompare harrow, tokens, front,
    l.before_eq_none hcompare harrow, l.after_eq_none harrow]
  exact .one

/-- The operand in front of an operator may be followed by it. -/
theorem stopsAt_trees (h : Starts ks) {level : Nat} (hlevel : l.level < level) :
    Operator.stopsAt level (Tree.kinds l.trees ++ ks) = true := by
  rw [Operator.stopsAt, l.extensionOf_eq h]
  exact decide_eq_true hlevel

end Link

/-! ### Operands -/

/-- How deep expressions are in an operand. -/
def Operand.depth (x : Operand) : Nat := if x.isParenthesized then nestingLimit else 0

/-- A name with no segment behind it. -/
theorem derives_plainName {n : Nat} {text : String} {ks : List TokenKind}
    (h : Form.at? (.punct .slash) ks = false) :
    Form.qualName.Derives n [.node .qualName [.token .ident text]] ks := by
  have hslash : Form.segmentBehind .slash ks = false := by
    rw [Form.segmentBehind, h, Bool.false_and]
  refine .node (Form.derives_row_cons.mpr ⟨[], [_], rfl, ?_, Form.derives_row_cons.mpr
    ⟨[_], [], rfl, .token (List.mem_cons_self ..), ?_⟩⟩)
  · exact Form.derives_given.mpr .nothing
  · exact .then_stop .stop hslash

/-- A name with nothing joined to it. -/
theorem derives_name {n : Nat} {text : String} {ks : List TokenKind} (h : Ends ks) :
    Form.qualName.Derives n [.node .qualName [.token .ident text]] ks :=
  derives_plainName (h.not_at? rfl)

/-- An operand is read wherever an operator or the end of the text is behind it. -/
theorem Operand.derives_tree (x : Operand) {n : Nat} (hn : x.depth ≤ n) {ks : List TokenKind}
    (h : Ends ks) : Form.operandHead.Derives n [x.tree] ks := by
  refine Form.derives_ahead.mpr ?_
  cases x with
  | name text => exact .node (derives_name h)
  | number text => exact .node .one
  | parenthesized text accepted =>
    obtain ⟨ts, htree, hts, -⟩ := Parse.expression_of_ok accepted
    have hinner : Form.expr.Derives n ts (.punct .rparen :: ks) :=
      (Form.Derives.outside hts (Outside.closer (by decide) ks)).mono hn
    rw [tree, htree, Tree.children]
    exact .node (.one_row (Form.derives_row_cons.mpr ⟨ts, [_], rfl, hinner, .one⟩))

/-! ### Levels -/

/-- The levels from the given one on that group to the left. -/
def leftLevels (level : Nat) : Nat :=
  Operator.table.countP fun row => row.fixity == .binaryLeft && decide (level ≤ row.level)

theorem leftLevels_anti {level level' : Nat} (h : level ≤ level') :
    leftLevels level' ≤ leftLevels level := by
  refine List.countP_mono_left fun row _ hrow => ?_
  rw [Bool.and_eq_true, decide_eq_true_eq] at hrow ⊢
  exact ⟨hrow.1, Nat.le_trans h hrow.2⟩

/-- The operand of an operator that groups to the left has fewer of them. -/
theorem leftLevels_succ : ∀ row ∈ Operator.table, row.fixity = .binaryLeft →
    leftLevels (row.level + 1) + 1 = leftLevels row.level := by
  decide

/-- The number of operators that group to the right. -/
def rights (rest : List (Link × Operand)) : Nat := rest.countP (·.1.groupsRight)

namespace Link

variable (l : Link)

theorem operandLevel_of_right (h : l.groupsRight = true) : l.row.operandLevel = l.level :=
  OperatorRow.operandLevel_of_right (eq_of_beq h)

theorem fixity_of_left (h : l.groupsRight = false) : l.row.fixity = .binaryLeft :=
  (Operator.grouping_of_isBinary l.row l.mem_table l.binary).resolve_right fun hright =>
    ne_of_beq_false h hright

theorem operandLevel_of_left (h : l.groupsRight = false) : l.row.operandLevel = l.level + 1 :=
  OperatorRow.operandLevel_of_left (l.fixity_of_left h)

/-- The operators behind the root are no looser than its operand may be. -/
theorem operandLevel_le {m : Link} (h : l.RootOver m) : l.row.operandLevel ≤ m.level := by
  cases hright : l.groupsRight with
  | true =>
    rw [l.operandLevel_of_right hright]
    exact h.elim Nat.le_of_lt fun heq => Nat.le_of_eq heq.1
  | false =>
    rw [l.operandLevel_of_left hright]
    exact h.elim id fun heq => absurd (hright.symm.trans heq.2) Bool.false_ne_true

/-- The root ends the operands of the operators in front of it. -/
theorem lt_operandLevel {m : Link} (h : ¬ m.RootOver l) : l.level < m.row.operandLevel := by
  rw [RootOver, not_or, not_and, Bool.not_eq_true] at h
  cases hright : m.groupsRight with
  | true =>
    rw [m.operandLevel_of_right hright]
    have hne : m.level ≠ l.level := fun heq => by
      cases hright.symm.trans (h.2 heq)
    omega
  | false =>
    rw [m.operandLevel_of_left hright]
    omega

/-- Behind an operator expressions are one level deeper, and there are fewer operators left for
that: either the operator counts among those that group to the right, or its level is left
behind. -/
theorem depth_behind {level : Nat} (h : level ≤ l.level) :
    leftLevels l.row.operandLevel + 1
      ≤ leftLevels level + if l.groupsRight then 1 else 0 := by
  have hlevel := leftLevels_anti h
  cases hright : l.groupsRight with
  | true =>
    rw [l.operandLevel_of_right hright, if_pos rfl]
    omega
  | false =>
    rw [l.operandLevel_of_left hright, if_neg Bool.false_ne_true]
    exact Nat.le_trans (Nat.le_of_eq (leftLevels_succ _ l.mem_table (l.fixity_of_left hright)))
      hlevel

/-- What is behind the operand in front of an operator: the operator and its own operand. -/
theorem derives_tail {n : Nat} {t : Tree} {ks : List TokenKind}
    (ht : (Form.expression l.row.operandLevel).Derives n [t] ks) (hstarts : Starts (Tree.kinds [t] ++ ks))
    (hends : Ends ks) :
    (Form.tail l.front (.ofRow l.row)).Derives (n + 1) (l.trees ++ [t]) ks := by
  have hlevel : (Operator.Extension.ofRow l.row).operandLevel? = some l.row.operandLevel :=
    if_pos l.binary
  have hnode : (Operator.Extension.ofRow l.row).node = l.row.node := rfl
  rw [Form.tail, hlevel, hnode]
  refine Form.derives_row_cons.mpr ⟨l.trees, [t], rfl, l.derives_infixOperator hstarts,
    Form.derives_row_cons.mpr ⟨[t], [], rfl, .part ht, ?_⟩⟩
  change Form.Derives _ (if _ then _ else _) _ _
  split
  · rw [Form.otherwise, Form.ifAhead, Form.derives_given, Tree.kinds_nil, List.nil_append,
      hends.not_at? rfl, if_neg Bool.false_ne_true]
    exact .nothing
  · exact .nothing

end Link

/-! ### Chains -/

/-- The operands of a chain. -/
def operands (c : Chain) : List Operand := c.first :: c.rest.map (·.2)

/-- The tree of a chain is an expression in front of what ends the operands of all of its
operators. The levels are those of the operands and one for each operand behind an operator: that
are as many as there are operators that group to the right, and one for each level that groups
to the left. -/
theorem derives_tree (c : Chain) {d : Nat} (hdepth : ∀ x ∈ c.operands, x.depth ≤ d) {level : Nat}
    (hlevel : ∀ s ∈ c.rest, level ≤ s.1.level) {ks : List TokenKind} (hends : Ends ks)
    (hstops : ∀ s ∈ c.rest, Operator.stopsAt s.1.row.operandLevel ks = true) :
    (Form.extended level Form.operandHead).Derives (d + rights c.rest + leftLevels level)
      [c.tree] ks := by
  induction c using split_induction generalizing level ks with
  | operand x =>
    rw [tree_operand]
    have hx := hdepth x (List.mem_cons_self ..)
    exact .head (x.derives_tree (by omega) hends)
  | root first rest s htree ihFront ihBack =>
    have hroot : (s.link, s.operand) ∈ rest := s.back_subset (List.mem_cons_self ..)
    have hrights : rights rest
        = rights s.front + (rights s.back + if s.link.groupsRight then 1 else 0) := by
      refine (congrArg rights s.rest_eq).trans ?_
      rw [rights, List.countP_append, List.countP_cons, rights, rights]
    have hdeep := s.link.depth_behind (hlevel _ hroot)
    have hstarts : Starts (Tree.kinds [tree ⟨s.operand, s.back⟩] ++ ks) := by
      rw [Tree.kinds, Tree.leavesAll_singleton, leaves_tree]
      exact starts_tokens _ hends
    have hback : (Form.expression s.link.row.operandLevel).Derives
        (d + rights s.back + leftLevels s.link.row.operandLevel)
        [tree ⟨s.operand, s.back⟩] ks := by
      refine .then_look (ihBack
        (fun x hx => hdepth x (List.mem_cons_of_mem _ (List.map_subset _ s.back_subset hx)))
        (fun t ht => s.link.operandLevel_le (s.back_tight t ht)) hends
        (fun t ht => hstops t (s.back_subset (List.mem_cons_of_mem _ ht)))) ?_
      exact hstops _ hroot
    have hfront : (Form.extended level Form.operandHead).Derives
        (d + rights s.front + leftLevels level) [tree ⟨first, s.front⟩]
        (Tree.kinds (s.link.trees ++ [tree ⟨s.operand, s.back⟩]) ++ ks) := by
      rw [Tree.kinds_append, List.append_assoc]
      exact ihFront
        (fun x hx => hdepth x (List.cons_subset_cons _ (List.map_subset _ s.front_subset) hx))
        (fun t ht => hlevel t (s.front_subset ht)) (s.link.ends_trees _)
        fun t ht => s.link.stopsAt_trees hstarts (s.link.lt_operandLevel (s.front_tight t ht))
    rw [htree, List.cons_append]
    refine .extend (hfront.mono ?_) ?_ (hlevel _ hroot) ((s.link.derives_tail hback hstarts hends).mono ?_)
    · simp only [hrights]
      omega
    · rw [Tree.kinds_append, List.append_assoc]
      exact s.link.extensionOf_eq hstarts
    · simp only [hrights]
      omega

end Chain
end RelLang
