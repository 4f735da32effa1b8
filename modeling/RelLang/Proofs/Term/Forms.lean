import RelLang.Proofs.Term.Reads

/-!
# Binders, braces and atoms are read back

For each form without an operator, what the views find in the tree of an expression is
what the expression is made of.
-/

namespace RelLang

open Form (argumentTrees)

namespace Term

/-! ### Binders and braces -/

theorem filter_declarations {β : Type} (g : β → Tree) (ds : List (Declaration β)) :
    (argumentTrees (ds.map fun d => (d.map g).tree)).filter (Tree.isOf (.only .quantDecl))
        = (ds.map fun d => (d.map g).tree) ∧
      (argumentTrees (ds.map fun d => (d.map g).tree)).filter (Tree.isOf .expr) = [] :=
  ⟨filter_nodes (fun _ => rfl) ds, filter_others (fun _ => rfl) ds⟩

theorem filter_bindings {β : Type} (g : β → Tree) (bs : List (Binding β)) :
    (argumentTrees (bs.map fun b => (b.map g).tree)).filter (Tree.isOf (.only .letDecl))
        = (bs.map fun b => (b.map g).tree) ∧
      (argumentTrees (bs.map fun b => (b.map g).tree)).filter (Tree.isOf .expr) = [] :=
  ⟨filter_nodes (fun _ => rfl) bs, filter_others (fun _ => rfl) bs⟩

theorem ofToken?_quantifier (q : Quantifier) : Quantifier.ofToken? (.keyword q.keyword) = some q := by
  cases q <;> rfl

theorem quantifier_of_isTrivia (k : TokenKind) (h : k.isTrivia = true) :
    Quantifier.ofToken? k = none := by
  cases k with
  | keyword => cases h
  | _ => rfl

section

variable {β : Type} {f : Expr → Option β} {g : β → Tree} (hf : Inverts f g)
  (hg : ∀ b, (g b).isOf .expr = true)

include hf hg

theorem read_quantified {v : QuantExpr} {quantifier : Quantifier} {decls : Several (Declaration β)}
    {body : β}
    (h : v.bare = (Shape.quantified quantifier (decls.map (·.map g)) (g body)).tree) :
    readQuantified f v = some (.quantified quantifier decls body) := by
  have hparts : v.parts = leaf (word quantifier.keyword)
      :: argumentTrees (decls.toList.map fun d => (d.map g).tree) ++ [leaf (mark .bar), g body] := by
    rw [(View.kind_of_bare h).2, Several.toList_map, List.map_map]
    rfl
  obtain ⟨hnodes, hothers⟩ := filter_declarations g decls.toList
  have hdecls : v.parts.filter (Tree.isOf (.only .quantDecl))
      = decls.toList.map fun d => (d.map g).tree := by
    have hbody : (g body).isOf (.only .quantDecl) = false := Tree.not_isOf_only (hg _) rfl
    rw [hparts]
    simp [hbody, hnodes]
  have hexprs : v.parts.filter (Tree.isOf .expr) = [g body] := by
    rw [hparts]
    simp [hg, hothers]
  have hquantifier : QuantExpr.quantifier v = some quantifier := by
    have hwords : v.words = word quantifier.keyword :: Tree.words
        (argumentTrees (decls.toList.map fun d => (d.map g).tree) ++ [leaf (mark .bar), g body]) := by
      rw [View.words, hparts]
      rfl
    have hmeaning : Quantifier.ofToken? (word quantifier.keyword).1 = some quantifier :=
      ofToken?_quantifier quantifier
    rw [QuantExpr.quantifier, View.firstMeaning_eq v quantifier_of_isTrivia, hwords,
      List.findSome?_cons, hmeaning]
  have hlist : several? (readDeclaration f) v.quantDecls = some decls :=
    (inverts_declaration hf hg).several hdecls
  have hbody : (QuantExpr.body v).bind f = some body := hf.first hexprs
  rw [readQuantified, hquantifier, hlist, hbody]
  rfl

theorem read_letIn {v : LetExpr} {isBind : Bool} {bindings : Several (Binding β)} {body : β}
    (h : v.bare = (Shape.letIn isBind (bindings.map (·.map g)) (g body)).tree) :
    readLet f v = some (.letIn isBind bindings body) := by
  obtain ⟨hkind, hparts⟩ := View.kind_of_bare h
  rw [Several.toList_map, List.map_map] at hparts
  obtain ⟨hnodes, hothers⟩ := filter_bindings g bindings.toList
  have hbindings : v.parts.filter (Tree.isOf (.only .letDecl))
      = bindings.toList.map fun b => (b.map g).tree := by
    have hbody : (g body).isOf (.only .letDecl) = false := Tree.not_isOf_only (hg _) rfl
    rw [hparts]
    simp [hbody, hnodes, Function.comp_def]
  have hexprs : v.parts.filter (Tree.isOf .expr) = [g body] := by
    rw [hparts]
    simp [hg, hothers, Function.comp_def]
  have hbind : LetExpr.isBind v = isBind := by
    rw [LetExpr.isBind, hkind]
    cases isBind <;> rfl
  have hlist : several? (readBinding f) (LetExpr.bindings v) = some bindings :=
    (inverts_binding hf hg).several hbindings
  have hbody : (LetExpr.body v).bind f = some body := hf.first hexprs
  rw [readLet, hbind, hlist, hbody]
  rfl

theorem read_comprehension {v : ComprehensionExpr} {decls : Several (Declaration β)} {body : Option β}
    (h : v.bare = (Shape.comprehension (decls.map (·.map g)) (body.map g)).tree) :
    readComprehension f v = some (.comprehension decls body) := by
  have hparts := (View.kind_of_bare h).2
  rw [Several.toList_map, List.map_map] at hparts
  obtain ⟨hnodes, hothers⟩ := filter_declarations g decls.toList
  have hdecls : v.parts.filter (Tree.isOf (.only .quantDecl))
      = decls.toList.map fun d => (d.map g).tree := by
    have hbody : ∀ b, (g b).isOf (.only .quantDecl) = false := fun b => Tree.not_isOf_only (hg b) rfl
    rw [hparts]
    cases body <;> simp [hbody, hnodes, Function.comp_def]
  have hexprs : v.parts.filter (Tree.isOf .expr) = body.toList.map g := by
    rw [hparts]
    cases body <;> simp [hg, hothers, Function.comp_def]
  have hlist : several? (readDeclaration f) v.quantDecls = some decls :=
    (inverts_declaration hf hg).several hdecls
  have hbody : optional? f (ComprehensionExpr.body v) = some body := hf.optional hexprs
  rw [readComprehension, hlist, hbody]
  rfl

theorem read_boxJoin {v : BoxJoinExpr} {target : β} {arguments : List β}
    (h : v.bare = (Shape.boxJoin (g target) (arguments.map g)).tree) :
    readBoxJoin f v = some (.boxJoin target arguments) := by
  have hparts := (View.kind_of_bare h).2
  have hlist : v.parts.filter (Tree.isOf (.only .exprList))
      = [.node .exprList (argumentTrees (arguments.map g))] := by
    have htarget : (g target).isOf (.only .exprList) = false := Tree.not_isOf_only (hg _) rfl
    rw [hparts]
    simp [htarget, isOf_node, Category.admits]
  have hexprs : v.parts.filter (Tree.isOf .expr) = [g target] := by
    rw [hparts]
    simp [hg, isOf_node, Category.admits, ExprForm.ofKind?]
  have htarget : (BoxJoinExpr.target v).bind f = some target := hf.first hexprs
  have harguments : v.arguments.mapM f = some arguments := by
    obtain ⟨list, hfirst, hbare⟩ := View.first_of_parts hlist
    rw [View.arguments, hfirst, Option.map_some, Option.getD_some]
    refine hf.mapM ?_
    rw [(View.kind_of_bare hbare).2, filter_nodes hg]
  rw [readBoxJoin, htarget, harguments]
  rfl

end

/-! ### Atoms -/

section

variable {β : Type}

theorem read_const {v : ConstExpr} {value : { c : Constant // Fits c }}
    (h : v.bare = (Shape.const value).tree) : readConst v = some (.const (α := β) value) := by
  obtain ⟨c, hc⟩ := value
  have hwords : v.words = constTokens c := by
    rw [View.words, (View.kind_of_bare h).2, words_leaf]
  have hvalue : ConstExpr.value v = some c := by
    rw [ConstExpr.value, View.hasToken_eq v rfl, View.hasToken_eq v rfl, View.hasToken_eq v rfl, hwords]
    cases c with
    | none | univ | iden => rfl
    | number n =>
      have hminus : v.hasToken (.punct .minus) = decide (n < 0) := by
        rw [View.hasToken_eq v rfl, hwords, constTokens]
        by_cases hn : n < 0 <;> simp [hn, mark]
      have htext : v.tokenText? .number = some (toString n.natAbs) := by
        rw [View.tokenText?_eq v rfl, hwords, constTokens]
        by_cases hn : n < 0 <;> simp [hn, mark]
      have hfits : n.natAbs < Nat.pow 2 63 := hc
      have hnumber : v.number? = some n := by
        rw [View.number?, htext, Option.bind_eq_bind, Option.bind_some, digitsValue_toString,
          if_pos hfits, hminus]
        by_cases hn : n < 0
        · rw [decide_eq_true hn, if_pos rfl]
          exact congrArg some (by omega)
        · rw [decide_eq_false hn, if_neg Bool.false_ne_true]
          exact congrArg some (by omega)
      have hno : ∀ k : Keyword,
          (constTokens (.number n)).any (·.1 == TokenKind.keyword k) = false := by
        intro k
        by_cases hn : n < 0 <;> simp [constTokens, hn, mark]
      rw [hno, hno, hno, hnumber]
      rfl
  rw [readConst, hvalue, Option.bind_eq_bind, Option.bind_some, dif_pos hc]
  rfl

theorem filter_segments (ws : List (Spelled TokenKind.isNameSegment)) :
    (separated (mark .slash) (ws.map ([·.token]))).filter (·.1.isNameSegment)
      = ws.map (·.token) := by
  have hrest : ∀ ws : List (Spelled TokenKind.isNameSegment),
      ((ws.map ([·.token])).flatMap (mark .slash :: ·)).filter (·.1.isNameSegment)
        = ws.map (·.token) := by
    intro ws
    induction ws with
    | nil => rfl
    | cons w ws ih =>
      have hw : w.token.1.isNameSegment = true := w.passes
      have hslash : (mark .slash).1.isNameSegment = false := rfl
      rw [List.map_cons, List.flatMap_cons, List.filter_append, ih]
      simp [hw, hslash]
  cases ws with
  | nil => rfl
  | cons w ws =>
    have hw : w.token.1.isNameSegment = true := w.passes
    rw [List.map_cons, separated, List.filter_append, hrest]
    simp [hw]

theorem isNameSegment_of_isTrivia {k : TokenKind} (h : k.isTrivia = true) :
    k.isNameSegment = false := by
  cases k with
  | keyword | punct | ident => cases h
  | _ => rfl

theorem read_name {v : NameRef} {name : QualifiedName} (h : v.bare = .node .nameRef [name.tree]) :
    readName v = some (.nameRef (α := β) name) := by
  have hnames : v.parts.filter (Tree.isOf (.only .qualName)) = [name.tree] := by
    rw [(View.kind_of_bare h).2]
    rfl
  obtain ⟨q, hq, hbare⟩ := View.first_of_parts hnames
  have hwords : q.words = name.tokens := by
    rw [View.words, (View.kind_of_bare hbare).2, words_leaf]
  have hthis : QualName.isThis q = name.this := by
    have hno : (separated (mark .slash) (name.segments.toList.map ([·.token]))).any
        (·.1 == TokenKind.keyword .thisKw) = false := by
      refine List.any_eq_false.mpr fun t ht heq => ?_
      rcases mem_separated ht with rfl | ⟨ts, hts, ht⟩
      · cases eq_of_beq heq
      · obtain ⟨w, -, rfl⟩ := List.mem_map.mp hts
        obtain rfl := List.mem_singleton.mp ht
        have hw : w.token.1.isNameSegment = true := w.passes
        rw [eq_of_beq heq] at hw
        cases hw
    rw [QualName.isThis, View.hasToken_eq q rfl, hwords, QualifiedName.tokens, List.any_append, hno]
    cases name.this <;> rfl
  have hsegments : QualName.segments q = name.segments.toList.map (·.text) := by
    have hfilter : q.node.childTokens.filter (·.1.isNameSegment)
        = q.words.filter (·.1.isNameSegment) := by
      rw [← View.filter_childTokens, List.filter_filter]
      congr 1
      funext t
      cases htrivia : t.1.isTrivia with
      | true => simp [isNameSegment_of_isTrivia htrivia]
      | false => simp
    have hprefix : (if name.this then [word .thisKw, mark .slash] else []).filter
        (·.1.isNameSegment) = [] := by
      cases name.this <;> rfl
    rw [QualName.segments, hfilter, hwords, QualifiedName.tokens, List.filter_append, hprefix,
      List.nil_append, filter_segments, List.map_map]
    rfl
  have hq : NameRef.qualName v = some q := hq
  rw [readName, hq, Option.bind_eq_bind, Option.bind_some, hthis, hsegments, several?_texts]
  rfl

theorem read_atName {v : AtNameExpr} {name : Ident}
    (h : v.bare = .node .atNameExpr [leaf (mark .atSign), nameTree name]) :
    readAtName v = some (.atName (α := β) name) := by
  have hname : v.parts.filter (Tree.isOf (.only .name)) = [nameTree name] := by
    rw [(View.kind_of_bare h).2]
    rfl
  rw [readAtName, name_of_parts hname]
  rfl

theorem read_atom {v : AtomExpr} {name : AtomName}
    (h : v.bare = .node .atomExpr [leaf (.atomName, "\x60" ++ name.name)]) :
    readAtom v = some (.atom (α := β) name) := by
  have hwords : v.words = [(.atomName, "\x60" ++ name.name)] := by
    rw [View.words, (View.kind_of_bare h).2]
    rfl
  have hname : v.atomName = some name.name := by
    rw [View.atomName, View.tokenText?_eq v rfl, hwords]
    simp
  rw [readAtom, hname, Option.bind_eq_bind, Option.bind_some, dif_pos name.lexes]
  rfl

theorem text_of_sexpr {v : SExprExpr} {text : Spelled (· == .sexpr)}
    (h : v.bare = .node .sexprExpr [leaf text.token]) :
    (SExprExpr.text v).bind (Spelled.ofText? (· == .sexpr)) = some text := by
  have hwords : v.words = text.token :: [] := by
    rw [View.words, (View.kind_of_bare h).2]
    rfl
  have hspelled := spelled?_first text hwords
  rw [text.kind_eq] at hspelled
  exact hspelled

end
end Term
end RelLang
