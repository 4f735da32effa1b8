import RelLang.Proofs.Chain.Expression
import RelLang.Proofs.Term.Tree

/-!
# Parts of written expressions

What stands in a written expression: operands, which are atoms or in parentheses,
names, and lists of declarations and of bindings. Whatever stands behind an operand,
other than a slash, the tests on the tokens ahead come out the same.
-/

namespace RelLang

open Grammar
open RelLang.Tree (kinds)
open Form (argumentTrees commaTrees parenTree)

namespace Term

/-- The tree is read as an operand wherever no slash is behind it. -/
structure Part (n : Nat) (t : Tree) : Prop where
  derives : ∀ ks, Form.at? (.punct .slash) ks = false → Form.operandHead.Derives n [t] ks
  starts : ∃ k ks, kinds [t] = k :: ks ∧ k ∈ Chain.operandKinds

namespace Part

variable {n m level : Nat} {t : Tree} {ks : List TokenKind}

theorem mono (h : Part n t) (hnm : n ≤ m) : Part m t :=
  ⟨fun ks hslash => (h.derives ks hslash).mono hnm, h.starts⟩

/-- An operand is an expression in front of what is no operator for it. -/
theorem expression (h : Part n t) (hslash : Form.at? (.punct .slash) ks = false)
    (hstops : Operator.stopsAt level ks = true) : (Form.expression level).Derives n [t] ks :=
  .then_look (.head (h.derives ks hslash)) hstops

theorem exprAt (h : Part n t) (hslash : Form.at? (.punct .slash) ks = false)
    (hstops : Operator.stopsAt level ks = true) : (Form.exprAt level).Derives (n + 1) [t] ks :=
  .part (h.expression hslash hstops)

theorem alone (h : Part n t) : Form.expr.Derives (n + 1) [t] [] := h.exprAt rfl rfl

/-- An operand does not begin a declaration. -/
theorem starts_append (h : Part n t) (hslash : Form.at? (.punct .slash) ks = false)
    (hnames : namesEndInColon ks = false) : Chain.Starts (kinds [t] ++ ks) := by
  obtain ⟨k, ks', hkinds, hk⟩ := h.starts
  have hdisj : k ≠ .keyword .disjKw := by
    rintro rfl
    revert hk
    decide
  have hextended : (Form.extended 0 Form.operandHead).Derives n [t] ks := .head (h.derives ks hslash)
  have hno : namesAhead (kinds [t] ++ ks) = false := Bool.eq_false_iff.mpr fun hyes => by
    rw [(Form.kinds_of_namesAhead hextended hyes).2] at hnames
    cases hnames
  rw [hkinds, List.cons_append] at hno ⊢
  exact ⟨k, ks' ++ ks, rfl, hk, (Form.declarationAhead_of_ne_disj hdisj _).trans hno⟩

/-- An expression in parentheses. -/
theorem paren (h : Form.expr.Derives n [t] []) : Part n (parenTree t) :=
  ⟨fun ks _ => Form.derives_parenHead h ks, _, _, rfl, by decide⟩

end Part

/-! ### Lists -/

section

variable {n : Nat} {test : List TokenKind → Bool} {f : Form} {P : List TokenKind → Prop}

/-- Items behind commas. -/
theorem derives_commaTrees (hcomma : ∀ ks, P (.punct .comma :: ks)) {ts : List Tree}
    (hitem : ∀ t ∈ ts, ∀ ks, P ks → f.Derives n [t] ks)
    (htest : ∀ t ∈ ts, ∀ ks, P ks → test (.punct .comma :: (kinds [t] ++ ks)) = true)
    {behind : List TokenKind} (hbehind : P behind) :
    (Form.many (.look test ++ (.token [.punct .comma] ++ f))).Derives n (commaTrees ts) behind ∧
      P (kinds (commaTrees ts) ++ behind) := by
  induction ts with
  | nil => exact ⟨.stop, hbehind⟩
  | cons t ts ih =>
    obtain ⟨ht, hts⟩ := List.forall_mem_cons.mp hitem
    obtain ⟨htestFirst, htestRest⟩ := List.forall_mem_cons.mp htest
    obtain ⟨hmany, hP⟩ := ih hts htestRest
    have hsplit : commaTrees (t :: ts) = [.token (.punct .comma) ",", t] ++ commaTrees ts := rfl
    rw [hsplit]
    refine ⟨.round (Form.derives_look_append.mpr ⟨htestFirst _ hP, ?_⟩) hmany, hcomma _⟩
    exact .one_append (ht _ hP)

/-- Items with commas between them. -/
theorem derives_argumentTrees (hcomma : ∀ ks, P (.punct .comma :: ks)) {t : Tree} {ts : List Tree}
    (hitem : ∀ u ∈ t :: ts, ∀ ks, P ks → f.Derives n [u] ks)
    (htest : ∀ u ∈ ts, ∀ ks, P ks → test (.punct .comma :: (kinds [u] ++ ks)) = true)
    {behind : List TokenKind} (hbehind : P behind) (hstop : test behind = false) :
    (f ++ Form.whileAhead test (.token [.punct .comma] ++ f)).Derives n
      (argumentTrees (t :: ts)) behind := by
  obtain ⟨ht, hts⟩ := List.forall_mem_cons.mp hitem
  obtain ⟨hmany, hP⟩ := derives_commaTrees hcomma hts htest hbehind
  refine Form.derives_append.mpr ⟨[t], commaTrees ts, rfl, ht _ hP, ?_⟩
  exact hmany.then_stop hstop

end

theorem argumentTrees_toList {α : Type} (f : α → Tree) (s : Several α) :
    argumentTrees (s.toList.map f) = [f s.first] ++ commaTrees (s.rest.map f) := rfl

/-! ### Names -/

theorem derives_nameTree {n : Nat} (w : Ident) (ks : List TokenKind) :
    Form.name.Derives n [nameTree w] ks :=
  .node (.token (by rw [Spelled.token, w.kind_eq]; exact List.mem_singleton_self _))

theorem kinds_nameTree (w : Ident) : kinds [nameTree w] = [.ident] := by
  rw [kinds, Tree.leavesAll_singleton, nameTree, Tree.leaves, Tree.leavesAll_singleton, leaves_leaf,
    List.map_singleton, Spelled.token, w.kind_eq]

theorem commaName_nameTree (w : Ident) (ks : List TokenKind) :
    Form.commaName (.punct .comma :: (kinds [nameTree w] ++ ks)) = true := by
  rw [kinds_nameTree]
  rfl

theorem derives_nameList {n : Nat} (names : Several Ident) (ks : List TokenKind) :
    Form.nameList.Derives n [.node .nameList (argumentTrees (names.toList.map nameTree))]
      (.punct .colon :: ks) := by
  refine .node (derives_argumentTrees (P := fun _ => True) (fun _ => trivial) ?_ ?_ trivial rfl)
  · rintro u hu ks -
    obtain ⟨w, -, rfl⟩ := List.mem_map.mp (show u ∈ names.toList.map nameTree from hu)
    exact derives_nameTree w ks
  · rintro u hu ks -
    obtain ⟨w, -, rfl⟩ := List.mem_map.mp hu
    exact commaName_nameTree w ks

/-- Names with a colon behind them tell a declaration. -/
theorem namesAhead_names (names : Several Ident) (ks : List TokenKind) :
    namesAhead (kinds (argumentTrees (names.toList.map nameTree)) ++ .punct .colon :: ks)
      = true := by
  have hrest : ∀ ws : List Ident,
      namesEndInColon (kinds (commaTrees (ws.map nameTree)) ++ .punct .colon :: ks) = true := by
    intro ws
    induction ws with
    | nil => rfl
    | cons w ws ih =>
      have hsplit : commaTrees ((w :: ws).map nameTree)
          = [.token (.punct .comma) ",", nameTree w] ++ commaTrees (ws.map nameTree) := rfl
      rw [hsplit, Tree.kinds_append, Tree.kinds_token_cons, kinds_nameTree]
      exact ih
  rw [argumentTrees_toList, Tree.kinds_append, kinds_nameTree]
  exact hrest names.rest

/-- The segments of a name behind slashes. -/
theorem derives_segments {n : Nat} (ws : List (Spelled TokenKind.isNameSegment))
    (ks : List TokenKind) :
    (Form.many (.look (Form.segmentBehind .slash)
      ++ (.token [.punct .slash] ++ .token Form.segmentKinds))).Derives n
      (((ws.map ([·.token])).flatMap (mark .slash :: ·)).map leaf) ks := by
  induction ws with
  | nil => exact .stop
  | cons w ws ih =>
    have hmem : w.kind ∈ Form.segmentKinds := (Form.isNameSegment_iff _).mp w.passes
    have hsplit : (((w :: ws).map ([·.token])).flatMap (mark .slash :: ·)).map leaf
        = [leaf (mark .slash), leaf w.token]
          ++ ((ws.map ([·.token])).flatMap (mark .slash :: ·)).map leaf := rfl
    rw [hsplit]
    refine .round (Form.derives_look_append.mpr ⟨w.passes, ?_⟩) ih
    exact .one_append (.token hmem)

theorem derives_qualifiedName {n : Nat} (name : QualifiedName) {ks : List TokenKind}
    (hslash : Form.at? (.punct .slash) ks = false) : Form.qualName.Derives n [name.tree] ks := by
  have hfirst : name.segments.first.kind ∈ Form.segmentKinds :=
    (Form.isNameSegment_iff _).mp name.segments.first.passes
  have hstop : Form.segmentBehind .slash ks = false := by
    rw [Form.segmentBehind, hslash, Bool.false_and]
  have hsplit : (separated (mark .slash) (name.segments.toList.map ([·.token]))).map leaf
      = [leaf name.segments.first.token]
        ++ ((name.segments.rest.map ([·.token])).flatMap (mark .slash :: ·)).map leaf := rfl
  refine .node (Form.derives_row_cons.mpr ⟨_, _, List.map_append, ?_, ?_⟩)
  · rw [hsplit, Tree.kinds_append, Form.ifAhead, Form.derives_given]
    cases name.this with
    | true => exact .one_append .one
    | false =>
      have hthis : ∀ ks, Form.at? (.keyword .thisKw) (name.segments.first.kind :: ks) ≠ true := by
        intro ks hat
        rw [Option.some.inj (eq_of_beq hat)] at hfirst
        revert hfirst
        decide
      exact (if_neg (hthis _)).mpr .nothing
  · rw [hsplit]
    refine Form.derives_row_cons.mpr ⟨[_], _, rfl, .token hfirst, ?_⟩
    exact (derives_segments _ _).then_stop hstop

/-! ### Atoms -/

theorem of_mem_operandKinds : ∀ k ∈ Chain.operandKinds, Operator.frontRow? k = none ∧
    isBinderOnly k = false ∧ Operator.quantifiers.contains k = false := by
  decide

/-- An atom is an operand. -/
theorem part_of_atom {n : Nat} {t : Tree} {k : TokenKind} {rest : List TokenKind}
    (hkinds : kinds [t] = k :: rest) (hk : k ∈ Chain.operandKinds)
    (h : ∀ ks, Form.at? (.punct .slash) ks = false →
      ∃ form, AtomForm.ofTokens? (some k) (rest ++ ks)[0]? = some form ∧
        (Form.ofAtom k form).Derives n [t] ks) : Part n t := by
  refine ⟨fun ks hslash => Form.derives_ahead.mpr ?_, k, rest, hkinds, hk⟩
  obtain ⟨hfront, honly, hquantifier⟩ := of_mem_operandKinds k hk
  obtain ⟨form, hform, hderives⟩ := h ks hslash
  have hbinder : Form.binderAhead (k :: (rest ++ ks)) = false := by
    rw [Form.binderAhead, Form.quantifierAhead, Form.atAny, List.getElem?_cons_zero,
      Option.any_some, Option.any_some, honly, hquantifier, Bool.false_or, Bool.false_and]
  rw [hkinds, List.cons_append, hbinder]
  simp only [List.getElem?_cons_zero, List.getElem?_cons_succ, hfront, hform]
  exact hderives

/-- An atom that is one token, unless it is `this`, is read as one whatever is behind it. -/
theorem part_of_oneToken {n : Nat} {k : TokenKind} {kind : NodeKind} {text : String}
    (hk : k ∈ Chain.operandKinds)
    (hform : ∀ second, Form.at? (.punct .slash) second = false →
      AtomForm.ofTokens? (some k) second[0]? = some (.oneToken kind)) :
    Part n (.node kind [.token k text]) :=
  part_of_atom rfl hk fun ks hslash =>
    ⟨_, hform ks hslash, .node .one⟩

theorem part_nameRef {n : Nat} (name : QualifiedName) : Part n (.node .nameRef [name.tree]) := by
  have hkinds : kinds [.node .nameRef [name.tree]] = name.tokens.map (·.1) := by
    rw [kinds, Tree.leavesAll_singleton, Tree.leaves, Tree.leavesAll_singleton, QualifiedName.tree,
      Tree.leaves, leavesAll_leaf]
  have hderives : ∀ {k ks}, Form.at? (.punct .slash) ks = false →
      (Form.ofAtom k .nameRef).Derives n [.node .nameRef [name.tree]] ks :=
    fun hslash => .node (derives_qualifiedName name hslash)
  cases hthis : name.this with
  | true =>
    have htokens : name.tokens = [word .thisKw, mark .slash]
        ++ separated (mark .slash) (name.segments.toList.map ([·.token])) := by
      rw [QualifiedName.tokens, hthis]
      rfl
    rw [htokens] at hkinds
    exact part_of_atom hkinds (by decide) fun ks hslash => ⟨.nameRef, rfl, hderives hslash⟩
  | false =>
    have htokens : name.tokens = name.segments.first.token
        :: (name.segments.rest.map ([·.token])).flatMap (mark .slash :: ·) := by
      rw [QualifiedName.tokens, hthis]
      rfl
    rw [htokens] at hkinds
    have hmem : name.segments.first.kind ∈ Form.segmentKinds :=
      (Form.isNameSegment_iff _).mp name.segments.first.passes
    have hform : ∀ k ∈ Form.segmentKinds, k ∈ Chain.operandKinds ∧
        ∀ second, AtomForm.ofTokens? (some k) second = some .nameRef := by
      simp only [Form.segmentKinds, List.forall_mem_cons]
      exact ⟨⟨by decide, fun _ => rfl⟩, ⟨by decide, fun _ => rfl⟩, ⟨by decide, fun _ => rfl⟩,
        List.forall_mem_nil _⟩
    obtain ⟨hk, hname⟩ := hform _ hmem
    exact part_of_atom hkinds hk fun ks hslash => ⟨.nameRef, hname _, hderives hslash⟩

theorem part_atName {n : Nat} (name : Ident) :
    Part n (.node .atNameExpr [leaf (mark .atSign), nameTree name]) := by
  have hkinds : kinds [.node .atNameExpr [leaf (mark .atSign), nameTree name]]
      = [.punct .atSign, .ident] := by
    have hname := kinds_nameTree name
    rw [Tree.kinds_node_cons, leaf, Tree.kinds_token_cons, hname]
    rfl
  refine part_of_atom hkinds (by decide) fun ks _ => ⟨.atName, rfl, .node ?_⟩
  exact .one_append (derives_nameTree name ks)

/-- A number with a minus in front of it is an expression by itself. -/
theorem derives_negative {n : Nat} (digits : String) : Form.expr.Derives (n + 1)
    [.node .constExpr [leaf (mark .minus), leaf (.number, digits)]] [] := by
  have hhead : Form.operandHead.Derives n
      [.node .constExpr [leaf (mark .minus), leaf (.number, digits)]] [] :=
    Form.derives_ahead.mpr (.node (.one_append .one))
  exact .part (.then_look (.head hhead) rfl)

/-- What has no parts is an operand as it is written. -/
theorem part_of_isAtomic {n : Nat} {s : Shape Tree} (h : s.isAtomic = true) :
    Part (n + 1) s.writtenTree := by
  cases s with
  | const value =>
    obtain ⟨c, hc⟩ := value
    cases c with
    | none | univ | iden => exact part_of_oneToken (by decide) fun _ _ => rfl
    | number i =>
      by_cases hi : i < 0
      · have htree : (Shape.const (α := Tree) ⟨.number i, hc⟩).writtenTree
            = parenTree (.node .constExpr [leaf (mark .minus), leaf (.number, toString i.natAbs)]) := by
          simp [Shape.writtenTree, Shape.isNegative, Constant.isNegative, Shape.tree, constTokens, hi]
        rw [htree]
        exact .paren (derives_negative _)
      · have htree : (Shape.const (α := Tree) ⟨.number i, hc⟩).writtenTree
            = .node .constExpr [leaf (.number, toString i.natAbs)] := by
          simp [Shape.writtenTree, Shape.isNegative, Constant.isNegative, Shape.tree, constTokens, hi]
        rw [htree]
        exact part_of_oneToken (k := .number) (by decide) fun _ _ => rfl
  | nameRef name => exact part_nameRef name
  | atName name => exact part_atName name
  | atom name => exact part_of_oneToken (k := .atomName) (by decide) fun _ _ => rfl
  | this =>
    refine part_of_oneToken (k := .keyword .thisKw) (by decide) fun second hslash => ?_
    show (if (second[0]? == some (.punct .slash)) then some AtomForm.nameRef else _) = _
    exact if_neg (Bool.eq_false_iff.mp hslash)
  | sexpr text =>
    obtain ⟨kind, text, hkind, hsignificant, hlexes⟩ := text
    obtain rfl := eq_of_beq hkind
    exact part_of_oneToken (k := .sexpr) (by decide) fun _ _ => rfl
  | binary | implies | unary | quantified | letIn | comprehension | boxJoin | prime | block => cases h

/-! ### Declarations and bindings -/

/-- What stands behind a declaration or a binding. -/
def Divides (ks : List TokenKind) : Prop :=
  ∃ k rest, ks = k :: rest ∧ k ∈ [.punct .comma, .punct .bar, .punct .rbrace]

theorem Divides.ends {ks : List TokenKind} (h : Divides ks) :
    Form.at? (.punct .slash) ks = false ∧ Operator.stopsAt 0 ks = true := by
  obtain ⟨k, rest, rfl, hk⟩ := h
  simp only [List.mem_cons, List.not_mem_nil, or_false] at hk
  rcases hk with rfl | rfl | rfl
  · exact ⟨rfl, rfl⟩
  · exact ⟨rfl, rfl⟩
  · exact ⟨rfl, rfl⟩

theorem divides_comma (ks : List TokenKind) : Divides (.punct .comma :: ks) :=
  ⟨_, _, rfl, by decide⟩

theorem divides_bar (ks : List TokenKind) : Divides (.punct .bar :: ks) := ⟨_, _, rfl, by decide⟩

/-- An operand in front of what stands behind a declaration. -/
theorem Part.value {n : Nat} {t : Tree} {ks : List TokenKind} (h : Part n t) (hks : Divides ks) :
    Form.expr.Derives (n + 1) [t] ks := h.exprAt hks.ends.1 hks.ends.2

namespace Declaration

/-- The names of a declaration are ahead, and a colon behind them. -/
theorem ahead (d : Declaration Tree) (ks : List TokenKind) :
    declarationAhead (kinds [d.tree] ++ ks) = true := by
  have hnames := namesAhead_names d.names
  have hplain : ∀ ks, declarationAhead
      (kinds (argumentTrees (d.names.toList.map nameTree)) ++ .punct .colon :: ks) = true := by
    intro ks
    have h := hnames ks
    rw [argumentTrees_toList, Tree.kinds_append, kinds_nameTree] at h ⊢
    exact h
  rw [tree_eq]
  cases d.disj with
  | true =>
    simp only [Tree.kinds_node_cons, Tree.kinds_append, Tree.kinds_nil, List.append_nil,
      List.append_assoc, if_pos]
    exact hnames _
  | false =>
    simp only [Tree.kinds_node_cons, Tree.kinds_append, Tree.kinds_nil, List.append_nil,
      List.append_assoc, List.nil_append, Bool.false_eq_true, if_false]
    exact hplain _

variable {n : Nat} {d : Declaration Tree} {ks : List TokenKind}

theorem derives_disj {ts : List Tree} (hts : Form.at? (.keyword .disjKw) (kinds ts ++ ks) = false) :
    (Form.optional (.keyword .disjKw)).Derives n (if d.disj then [leaf (word .disjKw)] else [])
      (kinds ts ++ ks) := by
  rw [Form.optional, Form.ifAhead, Form.derives_given]
  cases d.disj with
  | true => exact .one
  | false => exact (if_neg (Bool.eq_false_iff.mp hts)).mpr .nothing

theorem derives_mult (h : Part n d.type) :
    (Form.optionalMult Operator.typeMultiplicities).Derives n
      (d.mult.toList.map fun m => .node .mult [leaf (word m.val.keyword)])
      (kinds [d.type] ++ ks) := by
  rw [Form.optionalMult, Form.ifAhead, Form.derives_given]
  cases d.mult with
  | some m =>
    have hmem : TokenKind.keyword m.val.keyword ∈ Operator.typeMultiplicities := m.property
    exact (if_pos (List.contains_iff_mem.mpr hmem)).mpr (.node (.token hmem))
  | none =>
    obtain ⟨k, rest, hkinds, hk⟩ := h.starts
    have hmult : ∀ k ∈ Chain.operandKinds, Operator.typeMultiplicities.contains k ≠ true := by
      decide
    have hahead : Form.atAny Operator.typeMultiplicities (kinds [d.type] ++ ks) ≠ true := by
      rw [hkinds]
      exact hmult k hk
    exact (if_neg hahead).mpr .nothing

theorem derives_tree (h : Part n d.type) (hks : Divides ks) :
    Form.quantDecl.Derives (n + 1) [d.tree] ks := by
  rw [tree_eq]
  refine .node (Form.derives_row_cons.mpr ⟨_, _, rfl, derives_disj ?_, ?_⟩)
  · rw [List.singleton_append, Tree.kinds_node_cons, argumentTrees_toList, Tree.kinds_append,
      kinds_nameTree]
    rfl
  refine Form.derives_row_cons.mpr ⟨_, _, rfl, derives_nameList d.names _, ?_⟩
  refine .one_row ?_
  exact Form.derives_row_cons.mpr
    ⟨d.mult.toList.map fun m => .node .mult [leaf (word m.val.keyword)], [d.type], rfl,
      (derives_mult h).mono (Nat.le_succ n), h.value hks⟩

/-- Declarations in front of what ends them. -/
theorem derives_list {ds : Several (Declaration Tree)} (h : ∀ d ∈ ds.toList, Part n d.type)
    (hks : Divides ks) (hstop : Form.at? (.punct .comma) ks = false) :
    Form.quantDecls.Derives (n + 1) (argumentTrees (ds.toList.map (·.tree))) ks := by
  have hend : Form.commaDeclaration ks = false := by
    rw [Form.commaDeclaration, hstop, Bool.false_and]
  refine derives_argumentTrees divides_comma ?_ ?_ hks hend
  · intro u hu ks hks
    obtain ⟨d, hd, rfl⟩ := List.mem_map.mp (show u ∈ ds.toList.map (·.tree) from hu)
    exact derives_tree (h d hd) hks
  · intro u hu ks hks
    obtain ⟨d, hd, rfl⟩ := List.mem_map.mp hu
    exact d.ahead ks

end Declaration

theorem Binding.derives_tree {n : Nat} {b : Binding Tree} {ks : List TokenKind}
    (h : Part n b.value) (hks : Divides ks) : Form.letDecl.Derives (n + 1) [b.tree] ks :=
  .node (Form.derives_row_cons.mpr
    ⟨[_], _, rfl, derives_nameTree b.name _, .one_row (h.value hks)⟩)

/-- Bindings in front of their body. -/
theorem Binding.derives_list {n : Nat} {bs : Several (Binding Tree)}
    (h : ∀ b ∈ bs.toList, Part n b.value) (ks : List TokenKind) :
    (Form.letDecl ++ Form.whileAhead Form.commaName (.token [.punct .comma] ++ Form.letDecl)).Derives
      (n + 1) (argumentTrees (bs.toList.map (·.tree))) (.punct .bar :: ks) := by
  refine derives_argumentTrees divides_comma ?_ ?_ (divides_bar ks) rfl
  · intro u hu ks hks
    obtain ⟨b, hb, rfl⟩ := List.mem_map.mp (show u ∈ bs.toList.map (·.tree) from hu)
    exact derives_tree (h b hb) hks
  · intro u hu ks hks
    obtain ⟨b, hb, rfl⟩ := List.mem_map.mp hu
    have hsplit : kinds [b.tree] = kinds [nameTree b.name] ++ kinds [leaf (mark .eq), b.value] := by
      rw [Binding.tree, Tree.kinds_node_cons, Tree.kinds_nil, List.append_nil, ← Tree.kinds_append]
      rfl
    rw [hsplit, List.append_assoc]
    exact commaName_nameTree b.name _

end Term
end RelLang
