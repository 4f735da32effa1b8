import RelLang.Proofs.Term.Part

/-!
# Written expressions are derived

The tree of an abstract expression has the form of an expression, and as a part of
another one it is an operand. For each form with parts there is one lemma: what its
tokens ask for, and what the rest of it is read as. Each height takes two levels, one
for the operator or binder and one for the parentheses.
-/

namespace RelLang

open Grammar
open RelLang.Tree (kinds)
open Form (argumentTrees parenTree)

namespace Term

variable {n : Nat}

/-- The tree of an expression with nothing behind it. -/
abbrev Whole (n : Nat) (t : Tree) : Prop :=
  (Form.extended 0 Form.operandHead).Derives n [t] []

/-! ### Operators -/

theorem whole_binary (operator : BinaryOperator) {lhs rhs : Tree} (hlhs : Part n lhs)
    (hrhs : Part n rhs) : Whole (n + 1) (Shape.binary operator lhs rhs).tree := by
  have hstarts : Chain.Starts (kinds [rhs] ++ []) := hrhs.starts_append rfl rfl
  have hexpr : (Form.expression operator.link.row.operandLevel).Derives n [rhs] [] :=
    hrhs.expression rfl rfl
  have htail := operator.link.derives_tail hexpr hstarts nofun
  have hends : Chain.Ends (kinds (operator.link.trees ++ [rhs]) ++ []) := by
    rw [Tree.kinds_append, List.append_assoc]
    exact operator.link.ends_trees _
  have hasked : Operator.extensionOf (kinds (operator.link.trees ++ [rhs]) ++ [])
      = some (operator.link.front, .ofRow operator.link.row) := by
    rw [Tree.kinds_append, List.append_assoc]
    exact operator.link.extensionOf_eq hstarts
  have hfront := hlhs.derives _ (hends.not_at? rfl)
  exact .extend (.head (hfront.mono (Nat.le_succ n))) hasked (Nat.zero_le _) htail

theorem extension?_of_isImplication {k : TokenKind} (h : isImplication k = true) :
    k ≠ .punct .slash ∧ ∀ second, Operator.extension? k second
      = some ⟨.impliesExpr, Operator.impliesLevel, some Operator.impliesLevel, false⟩ := by
  rcases kind_of_isImplication h with rfl | rfl
  · exact ⟨nofun, fun _ => rfl⟩
  · exact ⟨nofun, fun _ => rfl⟩

theorem derives_otherwise {otherwise : Option Tree} (h : ∀ t ∈ otherwise, Part n t) :
    Form.otherwise.Derives (n + 1)
      ((otherwise.map ([leaf (word .elseKw), ·])).getD []) [] := by
  rw [Form.otherwise, Form.ifAhead, Form.derives_given]
  cases otherwise with
  | none => exact .nothing
  | some t =>
    have ht : Part n t := h t rfl
    exact .one_append (ht.exprAt rfl rfl)

theorem whole_implies (operator : Spelled isImplication) {lhs rhs : Tree} {otherwise : Option Tree}
    (hlhs : Part n lhs) (hrhs : Part n rhs) (hotherwise : ∀ t ∈ otherwise, Part n t) :
    Whole (n + 1) (Shape.implies operator lhs rhs otherwise).tree := by
  obtain ⟨hslash, hextension⟩ := extension?_of_isImplication operator.passes
  have hrhs : (Form.exprAt Operator.impliesLevel).Derives (n + 1) [rhs]
      (kinds ((otherwise.map ([leaf (word .elseKw), ·])).getD []) ++ []) := by
    cases otherwise with
    | none => exact hrhs.exprAt rfl rfl
    | some t => exact hrhs.exprAt rfl rfl
  have htail : (Form.tail operator.kind
        ⟨.impliesExpr, Operator.impliesLevel, some Operator.impliesLevel, false⟩).Derives (n + 1)
      ([leaf operator.token, rhs] ++ (otherwise.map ([leaf (word .elseKw), ·])).getD []) [] :=
    .one_row (Form.derives_row_cons.mpr ⟨[rhs], _, rfl, hrhs, derives_otherwise hotherwise⟩)
  have hasked : ∀ ks, Operator.extensionOf (operator.kind :: ks) = some (operator.kind,
      ⟨.impliesExpr, Operator.impliesLevel, some Operator.impliesLevel, false⟩) :=
    fun ks => Operator.extensionOf_eq_some.mpr ⟨rfl, hextension _⟩
  have hnot : ∀ ks, Form.at? (.punct .slash) (operator.kind :: ks) = false :=
    fun ks => beq_false_of_ne fun heq => hslash (Option.some.inj heq)
  exact .extend (.head ((hlhs.derives _ (hnot _)).mono (Nat.le_succ n))) (hasked _)
    (Nat.zero_le _) htail

/-- An operator in front of an operand opens no quantified expression. -/
theorem whole_unary (operator : Spelled isFront) {operand : Tree} (h : Part n operand) :
    Whole (n + 1) (Shape.unary operator operand).tree := by
  have hrow := frontRow_eq operator
  have honly : ∀ row ∈ Operator.table, row.fixity.isFront = true →
      ∀ k ∈ row.operators, isBinderOnly k = false := by
    decide
  have hk : isBinderOnly operator.kind = false := honly _ (Operator.mem_table_of_frontRow? hrow)
    (Operator.isFront_of_frontRow? hrow) _ (Operator.mem_of_frontRow? hrow)
  have hstarts : Chain.Starts (kinds [operand] ++ []) := h.starts_append rfl rfl
  obtain ⟨k, rest, -, -, hdeclaration⟩ := hstarts
  have hbinder : Form.binderAhead (operator.kind :: (kinds [operand] ++ [])) = false := by
    have hbehind : declarationBehind (operator.kind :: (kinds [operand] ++ [])) = false := hdeclaration
    rw [Form.binderAhead, Form.quantifierAhead, hbehind, Bool.and_false, Bool.or_false]
    exact hk
  have hkinds : kinds [(Shape.unary operator operand).tree] ++ []
      = operator.kind :: (kinds [operand] ++ []) := by
    rw [Shape.tree, Tree.kinds_node_cons, Tree.kinds_nil, List.append_nil]
    rfl
  refine .head (Form.derives_ahead.mpr ?_)
  rw [hkinds, hbinder]
  simp only [List.getElem?_cons_zero, hrow]
  exact .node (.one_append (h.exprAt rfl rfl))

theorem whole_boxJoin {target : Tree} {arguments : List Tree} (h : Part n target)
    (harguments : ∀ t ∈ arguments, Part n t) :
    Whole (n + 1) (Shape.boxJoin target arguments).tree := by
  have htail : (Form.tail (.punct .lbracket) ⟨.boxJoinExpr, 16, none, false⟩).Derives (n + 1)
      [leaf (mark .lbracket), .node .exprList (argumentTrees arguments), leaf (mark .rbracket)] [] :=
    .one_row (Form.derives_row_cons.mpr
      ⟨[_], [_], rfl, Form.derives_arguments (fun t ht => (harguments t ht).alone) [], .one⟩)
  exact .extend (.head ((h.derives _ rfl).mono (Nat.le_succ n))) rfl (Nat.zero_le _) htail

theorem whole_prime {operand : Tree} (h : Part n operand) :
    Whole (n + 1) (Shape.prime operand).tree := by
  have htail : (Form.tail (.punct .prime) ⟨.primeExpr, 18, none, true⟩).Derives (n + 1)
      [leaf (mark .prime)] [] := .one
  exact .extend (.head ((h.derives _ rfl).mono (Nat.le_succ n))) rfl (Nat.zero_le _) htail

/-! ### Binders and braces -/

theorem derives_body {body : Tree} (h : Part n body) :
    Form.binderBody.Derives (n + 1) [leaf (mark .bar), body] [] :=
  Form.derives_given.mpr (.one_append h.alone)

/-- Declarations are ahead, whatever is behind them. -/
theorem declarationAhead_list (ds : Several (Declaration Tree)) (ts : List Tree) :
    declarationAhead (kinds (argumentTrees (ds.toList.map (·.tree)) ++ ts)) = true := by
  rw [argumentTrees_toList, List.append_assoc, Tree.kinds_append]
  exact ds.first.ahead _

theorem whole_binder {t : Tree} {k : TokenKind} {rest : List TokenKind} (hkinds : kinds [t] = k :: rest)
    (hbinder : Form.binderAhead (k :: rest) = true) (h : (Form.binder k).Derives n [t] []) :
    Whole n t := by
  refine .head (Form.derives_ahead.mpr ?_)
  rw [List.append_nil, hkinds]
  simp only [List.getElem?_cons_zero, hbinder, if_pos]
  exact h

/-- The kinds of a node that begins with a token. -/
theorem kinds_node_leaf (kind : NodeKind) (t : TokenKind × String) (ts : List Tree) :
    kinds [.node kind (leaf t :: ts)] = t.1 :: kinds ts := by
  rw [Tree.kinds_node_cons, leaf, Tree.kinds_token_cons, Tree.kinds_nil, List.append_nil]

theorem whole_quantified (quantifier : Quantifier) {decls : Several (Declaration Tree)}
    {body : Tree} (hdecls : ∀ d ∈ decls.toList, Part n d.type) (hbody : Part n body) :
    Whole (n + 1) (Shape.quantified quantifier decls body).tree := by
  have hahead := declarationAhead_list decls [leaf (mark .bar), body]
  have hquantifier : Operator.quantifiers.contains (.keyword quantifier.keyword) = true := by
    cases quantifier <;> rfl
  have hform : Form.binder (.keyword quantifier.keyword)
      = Form.quantified (.keyword quantifier.keyword) := by
    cases quantifier <;> rfl
  refine whole_binder (kinds_node_leaf _ _ _) ?_ ?_
  · exact Bool.or_eq_true_iff.mpr (.inr (Bool.and_eq_true_iff.mpr ⟨hquantifier, hahead⟩))
  · refine hform ▸ .node (.one_row ?_)
    refine Form.derives_row_cons.mpr ⟨argumentTrees (decls.toList.map (·.tree)),
      [leaf (mark .bar), body], rfl, Form.derives_given.mpr ?_, derives_body hbody⟩
    rw [List.append_nil, ← Tree.kinds_append, if_pos hahead]
    exact Declaration.derives_list hdecls (divides_bar _) rfl

theorem whole_letIn (isBind : Bool) {bindings : Several (Binding Tree)} {body : Tree}
    (hbindings : ∀ b ∈ bindings.toList, Part n b.value) (hbody : Part n body) :
    Whole (n + 1) (Shape.letIn isBind bindings body).tree := by
  have hform : ∀ (kind : NodeKind) (keyword : Keyword),
      (Form.bindings kind (.keyword keyword)).Derives (n + 1)
        [.node kind (leaf (word keyword) :: argumentTrees (bindings.toList.map (·.tree))
          ++ [leaf (mark .bar), body])] [] := by
    intro kind keyword
    have hlist := Binding.derives_list hbindings (kinds [body])
    refine .node (.one_row (Form.derives_append_assoc.mp ?_))
    refine Form.derives_append.mpr ⟨argumentTrees (bindings.toList.map (·.tree)),
      [leaf (mark .bar), body], rfl, ?_, derives_body hbody⟩
    rw [List.append_nil]
    exact hlist
  cases isBind with
  | true => exact whole_binder (kinds_node_leaf _ _ _) rfl (hform .bindExpr .bindKw)
  | false => exact whole_binder (kinds_node_leaf _ _ _) rfl (hform .letExpr .letKw)

/-- What begins with a brace. -/
theorem whole_braced {t : Tree} {rest : List TokenKind} (hkinds : kinds [t] = .punct .lbrace :: rest)
    (h : (if declarationAhead rest then Form.comprehension else Form.block).Derives n [t] []) :
    Whole n t := by
  have hbraced : (Form.ofAtom (.punct .lbrace) .braced).Derives n [t] [] := by
    refine Form.derives_given.mpr ?_
    rw [List.append_nil, hkinds, declarationBehind, List.tail_cons]
    split at h
    · next hahead => rwa [if_pos hahead]
    · next hahead => rwa [if_neg hahead]
  refine .head (Form.derives_ahead.mpr ?_)
  rw [List.append_nil, hkinds]
  exact hbraced

theorem whole_comprehension {decls : Several (Declaration Tree)} {body : Option Tree}
    (hdecls : ∀ d ∈ decls.toList, Part n d.type) (hbody : ∀ t ∈ body, Part n t) :
    Whole (n + 1) (Shape.comprehension decls body).tree := by
  have htree : (Shape.comprehension decls body).tree = .node .comprehensionExpr
      (leaf (mark .lbrace) :: (argumentTrees (decls.toList.map (·.tree))
        ++ ((body.map ([leaf (mark .bar), ·])).getD [] ++ [leaf (mark .rbrace)]))) := by
    simp [Shape.tree]
  have hrbrace : Divides [.punct .rbrace] := ⟨_, _, rfl, by decide⟩
  rw [htree]
  refine whole_braced (kinds_node_leaf _ _ _) ?_
  rw [if_pos (declarationAhead_list decls _)]
  refine .node (.one_row ?_)
  cases body with
  | none =>
    refine Form.derives_row_cons.mpr ⟨argumentTrees (decls.toList.map (·.tree)),
      [leaf (mark .rbrace)], rfl, Declaration.derives_list hdecls hrbrace rfl, ?_⟩
    exact Form.derives_row_cons.mpr
      ⟨[], [_], rfl, Form.derives_given.mpr (Form.derives_given.mpr .nothing), .one⟩
  | some t =>
    have ht : Part n t := hbody t rfl
    refine Form.derives_row_cons.mpr ⟨argumentTrees (decls.toList.map (·.tree)),
      [leaf (mark .bar), t, leaf (mark .rbrace)], rfl,
      Declaration.derives_list hdecls (divides_bar _) rfl, ?_⟩
    refine Form.derives_row_cons.mpr ⟨[leaf (mark .bar), t], [_], rfl, ?_, .one⟩
    exact Form.derives_given.mpr (.one_append (ht.value hrbrace))

theorem Part.not_minus {t : Tree} (h : Part n t) : Form.at? (.punct .minus) (kinds [t]) = false := by
  obtain ⟨k, rest, hkinds, hk⟩ := h.starts
  rw [hkinds]
  refine beq_false_of_ne fun heq => ?_
  rw [Option.some.inj heq] at hk
  revert hk
  decide

theorem whole_block {items : List Tree} (h : ∀ t ∈ items, Part n t) :
    Whole (n + 1) (Shape.block items).tree := by
  obtain ⟨hmany, -⟩ := Form.derives_exprs (fun t ht => (h t ht).alone)
    (fun t ht => (h t (List.mem_of_mem_tail ht)).not_minus) []
  have hahead : declarationAhead (kinds (items ++ [leaf (mark .rbrace)])) = false := by
    cases items with
    | nil => rfl
    | cons t ts =>
      obtain ⟨ht, hts⟩ := List.forall_mem_cons.mp h
      have houtside : Outside (kinds ts ++ [.punct .rbrace]) :=
        (Form.derives_exprs (fun t ht => (hts t ht).alone)
          (fun t ht => (hts t (List.mem_of_mem_tail ht)).not_minus) []).2
          fun t ht => (hts t ht).not_minus
      obtain ⟨k, rest, -, -, hdeclaration⟩ := ht.starts_append houtside.slash houtside.names
      rw [← List.singleton_append, List.append_assoc, Tree.kinds_append, Tree.kinds_append]
      exact hdeclaration
  refine whole_braced (kinds_node_leaf _ _ _) ?_
  show (if declarationAhead (kinds (items ++ [leaf (mark .rbrace)])) = true then Form.comprehension
    else Form.block).Derives _ _ _
  rw [if_neg (Bool.eq_false_iff.mp hahead)]
  exact .node (.one_row (Form.derives_row_cons.mpr ⟨items, [_], rfl, hmany, .one⟩))

/-! ### Expressions -/

/-- What has parts is an expression if these are operands. -/
theorem Shape.whole {s : Shape Tree} (h : s.All (Part n)) (hs : s.isAtomic = false) :
    Whole (n + 1) s.tree := by
  cases s with
  | binary operator lhs rhs => exact whole_binary operator h.1 h.2
  | implies operator lhs rhs otherwise => exact whole_implies operator h.1 h.2.1 h.2.2
  | unary operator operand => exact whole_unary operator h
  | quantified quantifier decls body => exact whole_quantified quantifier h.1 h.2
  | letIn isBind bindings body => exact whole_letIn isBind h.1 h.2
  | comprehension decls body => exact whole_comprehension h.1 h.2
  | boxJoin target arguments => exact whole_boxJoin h.1 h.2
  | prime operand => exact whole_prime h
  | block items => exact whole_block h
  | const | nameRef | atName | atom | this | sexpr => cases hs

theorem Shape.derives {s : Shape Tree} (h : s.All (Part n)) :
    Form.expr.Derives (n + 2) [s.writtenTree] [] ∧
      Part (n + 2) (if s.isAtomic then s.writtenTree else parenTree s.writtenTree) := by
  cases hs : s.isAtomic with
  | true =>
    have hpart : Part (n + 1) s.writtenTree := part_of_isAtomic hs
    exact ⟨hpart.alone, hpart.mono (Nat.le_succ _)⟩
  | false =>
    have htree : s.writtenTree = s.tree := by
      cases s with
      | const => cases hs
      | _ => rfl
    have hexpr : Form.expr.Derives (n + 2) [s.tree] [] :=
      .part ((Shape.whole h hs).then_look rfl)
    rw [htree]
    exact ⟨hexpr, .paren hexpr⟩

/-- The tree of an expression is derived at two levels for each unit of height, by itself and as an
operand in another one. -/
theorem derives_tree : {n : Nat} → (e : Term n) →
    Form.expr.Derives (2 * n) [e.tree] [] ∧ Part (2 * n) e.partTree
  | n + 1, (s : Shape (Term n)) => by
    have hparts : (s.map partTree).All (Part (2 * n)) :=
      Shape.all_map (fun part => (derives_tree part).2) s
    have hatomic : (s.map partTree).isAtomic = s.isAtomic := by cases s <;> rfl
    have hderives := Shape.derives hparts
    rw [hatomic] at hderives
    exact hderives

end Term
end RelLang
