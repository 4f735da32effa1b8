import RelLang.Proofs.Term.Text
import RelLang.Proofs.Term.Tree
import RelLang.Proofs.View.Bare

/-!
# Parts are read back

The readers of an abstract expression undo the writing of trees: names, declarations
and bindings are found again in a tree that is, without trivia, the tree they were
written as.
-/

namespace RelLang

open Form (argumentTrees)

namespace Term

variable {c d : Category} {α β : Type}

/-- The reader yields what a tree was made from. -/
def Inverts (f : View c → Option β) (g : β → Tree) : Prop := ∀ v b, v.bare = g b → f v = some b

namespace Inverts

variable {f : View d → Option β} {g : β → Tree} {v : View c}

theorem getElem? (hf : Inverts f g) {i : Nat} {b : β}
    (h : (v.parts.filter (Tree.isOf d))[i]? = some (g b)) : (v.all d)[i]?.bind f = some b := by
  rw [← View.map_bare_all, List.getElem?_map] at h
  obtain ⟨w, hw, hb⟩ := Option.map_eq_some_iff.mp h
  rw [hw]
  exact hf w b hb

theorem first (hf : Inverts f g) {b : β} {ts : List Tree}
    (h : v.parts.filter (Tree.isOf d) = g b :: ts) : (v.first d).bind f = some b := by
  obtain ⟨w, hw, hb⟩ := View.first_of_parts h
  rw [hw]
  exact hf w b hb

theorem mapM (hf : Inverts f g) {bs : List β} (h : v.parts.filter (Tree.isOf d) = bs.map g) :
    (v.all d).mapM f = some bs := by
  rw [← View.map_bare_all] at h
  generalize v.all d = vs at h
  induction vs generalizing bs with
  | nil =>
    obtain rfl := List.map_eq_nil_iff.mp h.symm
    rfl
  | cons w vs ih =>
    cases bs with
    | nil => cases h
    | cons b bs =>
      obtain ⟨hb, hbs⟩ := List.cons.inj h
      rw [List.mapM_cons, hf w b hb, ih hbs]
      rfl

theorem several (hf : Inverts f g) {s : Several β}
    (h : v.parts.filter (Tree.isOf d) = s.toList.map g) : several? f (v.all d) = some s := by
  rw [several?, hf.mapM h]
  rfl

theorem optional (hf : Inverts f g) {o : Option β}
    (h : v.parts.filter (Tree.isOf d) = o.toList.map g) : optional? f (v.first d) = some o := by
  cases o with
  | none =>
    rw [View.first_eq_none h]
    rfl
  | some b =>
    obtain ⟨w, hw, hb⟩ := View.first_of_parts h
    rw [hw, optional?, hf w b hb]
    rfl

end Inverts

theorem optional?_of_bind {f : α → Option β} {o : Option α} {b : β}
    (h : o.bind f = some b) : optional? f o = some (some b) := by
  obtain ⟨a, rfl, ha⟩ := Option.bind_eq_some_iff.mp h
  rw [optional?, ha]
  rfl

/-! ### Tokens and nodes -/

@[simp] theorem isOf_leaf (t : TokenKind × String) : (leaf t).isOf d = false := rfl

theorem isOf_node (kind : NodeKind) (ts : List Tree) :
    (Tree.node kind ts).isOf d = d.admits kind := rfl

@[simp] theorem words_leaf_cons (t : TokenKind × String) (ts : List Tree) :
    Tree.words (leaf t :: ts) = t :: Tree.words ts := rfl

@[simp] theorem words_leaf (ts : List (TokenKind × String)) : Tree.words (ts.map leaf) = ts := by
  induction ts with
  | nil => rfl
  | cons t ts ih => rw [List.map_cons, words_leaf_cons, ih]

/-- Nodes of one category are found among commas. -/
theorem filter_nodes {ι : Type} {tree : ι → Tree} (h : ∀ i, (tree i).isOf d = true)
    (is : List ι) : (argumentTrees (is.map tree)).filter (Tree.isOf d) = is.map tree := by
  rw [Form.filter_argumentTrees]
  refine List.filter_eq_self.mpr fun t ht => ?_
  obtain ⟨i, -, rfl⟩ := List.mem_map.mp ht
  exact h i

theorem filter_others {ι : Type} {tree : ι → Tree} (h : ∀ i, (tree i).isOf d = false)
    (is : List ι) : (argumentTrees (is.map tree)).filter (Tree.isOf d) = [] := by
  rw [Form.filter_argumentTrees]
  refine List.filter_eq_nil_iff.mpr fun t ht => ?_
  obtain ⟨i, -, rfl⟩ := List.mem_map.mp ht
  rw [h i]
  exact Bool.false_ne_true

theorem isTrivia_of_isSignificant {k : TokenKind} (h : k.isSignificant = true) :
    k.isTrivia = false := by
  rw [TokenKind.isSignificant, Bool.and_eq_true, Bool.not_eq_true'] at h
  exact h.1

/-- The first word of its kind is read as it was written. -/
theorem spelled?_of_words {test : TokenKind → Bool} (w : Spelled test) {v : View c}
    {ts us : List (TokenKind × String)} (h : v.words = ts ++ w.token :: us)
    (hts : ∀ t ∈ ts, t.1 ≠ w.kind) : spelled? test w.kind v = some w := by
  have hfind : ts.find? (·.1 == w.kind) = none :=
    List.find?_eq_none.mpr fun t ht => by simpa using hts t ht
  have hself : (w.token.1 == w.kind) = true := beq_self_eq_true w.kind
  rw [spelled?, View.tokenText?_eq v (isTrivia_of_isSignificant w.significant), h, List.find?_append,
    hfind, Option.none_or, List.find?_cons, hself]
  exact Spelled.ofText?_text w

theorem spelled?_first {test : TokenKind → Bool} (w : Spelled test) {v : View c}
    {us : List (TokenKind × String)} (h : v.words = w.token :: us) : spelled? test w.kind v = some w := by
  have hwords : v.words = [] ++ w.token :: us := h
  exact spelled?_of_words w hwords fun _ ht => absurd ht List.not_mem_nil

theorem firstOperator_of_words {test : TokenKind → Bool} (w : Spelled test) {v : View c}
    {us : List (TokenKind × String)} (h : v.words = w.token :: us) :
    v.firstOperator = some w.kind := by
  have htrivia : w.token.1.isTrivia = false := isTrivia_of_isSignificant w.significant
  rw [View.firstOperator, View.find?_tokenKinds v fun k hk => by rw [hk]; rfl, h, List.find?_cons,
    htrivia]
  rfl

/-- The texts of words are read as the words. -/
theorem several?_texts {test : TokenKind → Bool} (s : Several (Spelled test)) :
    several? (Spelled.ofText? test) (s.toList.map (·.text)) = some s := by
  have hall : ∀ ws : List (Spelled test),
      (ws.map (·.text)).mapM (Spelled.ofText? test) = some ws := by
    intro ws
    induction ws with
    | nil => rfl
    | cons w ws ih =>
      rw [List.map_cons, List.mapM_cons, Spelled.ofText?_text, ih]
      rfl
  rw [several?, hall]
  rfl

/-! ### Names -/

theorem text_of_bare {v : Name} {w : Ident} (h : v.bare = nameTree w) : v.text = some w.text := by
  have hwords : v.words = [w.token] := by
    rw [View.words, (View.kind_of_bare h).2]
    rfl
  have hkind : (w.token.1 == TokenKind.ident) = true := w.passes
  rw [Name.text, View.tokenText?_eq v rfl, hwords, List.find?_cons, hkind]
  rfl

theorem texts_of_bare {vs : List Name} {ws : List Ident} (h : vs.map View.bare = ws.map nameTree) :
    vs.filterMap Name.text = ws.map (·.text) := by
  induction vs generalizing ws with
  | nil =>
    obtain rfl := List.map_eq_nil_iff.mp h.symm
    rfl
  | cons v vs ih =>
    cases ws with
    | nil => cases h
    | cons w ws =>
      obtain ⟨hw, hws⟩ := List.cons.inj h
      rw [List.filterMap_cons, text_of_bare hw, ih hws]
      rfl

/-- The name of a node is read as it was written. -/
theorem name_of_parts {v : View c} {w : Ident} {ts : List Tree}
    (h : v.parts.filter (Tree.isOf (.only .name)) = nameTree w :: ts) :
    (v.name.bind Name.text).bind (Spelled.ofText? (· == .ident)) = some w := by
  obtain ⟨name, hname, hbare⟩ := View.first_of_parts h
  rw [View.name, hname, Option.bind_some, text_of_bare hbare]
  exact Spelled.ofText?_text w

/-! ### Declarations and bindings -/

theorem ofToken?_keyword (m : Multiplicity) :
    Multiplicity.ofToken? (.keyword m.keyword) = some m := by
  cases m <;> rfl

/-- No multiplicity is a trivial token. -/
theorem ofToken?_of_isTrivia (k : TokenKind) (h : k.isTrivia = true) :
    Multiplicity.ofToken? k = none := by
  cases k with
  | keyword => cases h
  | _ => rfl

/-- The multiplicity of a node is read as it was written. -/
theorem multiplicity_of_parts {v : View c} {mult : Option TypeMult}
    (h : v.parts.filter (Tree.isOf (.only .mult))
      = mult.toList.map fun m => .node .mult [leaf (word m.val.keyword)]) :
    optional? typeMult? v.multiplicity = some mult := by
  cases mult with
  | none =>
    rw [View.multiplicity, View.first_eq_none h]
    rfl
  | some m =>
    obtain ⟨w, hw, hbare⟩ := View.first_of_parts h
    have hwords : w.words = [word m.val.keyword] := by
      rw [View.words, (View.kind_of_bare hbare).2]
      rfl
    have hmult : v.multiplicity = some m.val := by
      rw [View.multiplicity, hw, Option.bind_some, Mult.multiplicity,
        View.firstMeaning_eq w ofToken?_of_isTrivia, hwords, List.findSome?_cons]
      rw [show Multiplicity.ofToken? (word m.val.keyword).1 = some m.val from ofToken?_keyword m.val]
    rw [hmult, optional?, typeMult?, dif_pos m.property]
    rfl

section

variable {f : Expr → Option β} {g : β → Tree} (hf : Inverts f g)
  (hg : ∀ b, (g b).isOf .expr = true)

include hf hg

theorem inverts_declaration :
    Inverts (readDeclaration f) fun d : Declaration β => (d.map g).tree := by
  intro v d h
  have h : v.bare = (d.map g).tree := h
  rw [Declaration.tree_eq] at h
  have hparts := (View.kind_of_bare h).2
  have hdisj : ∀ c : Category,
      (if d.disj then [leaf (word .disjKw)] else []).filter (Tree.isOf c) = [] := by
    intro c
    cases d.disj <;> rfl
  have hlist : v.parts.filter (Tree.isOf (.only .nameList))
      = [.node .nameList (argumentTrees (d.names.toList.map nameTree))] := by
    have htype : (g d.type).isOf (.only .nameList) = false := Tree.not_isOf_only (hg _) rfl
    rw [hparts]
    cases hm : d.mult <;>
      simp [Declaration.map, hm, hdisj, htype, isOf_node, Category.admits]
  have hmult : v.parts.filter (Tree.isOf (.only .mult))
      = d.mult.toList.map fun m => .node .mult [leaf (word m.val.keyword)] := by
    have htype : (g d.type).isOf (.only .mult) = false := Tree.not_isOf_only (hg _) rfl
    rw [hparts]
    cases hm : d.mult <;>
      simp [Declaration.map, hm, hdisj, htype, isOf_node, Category.admits]
  have hexprs : v.parts.filter (Tree.isOf .expr) = [g d.type] := by
    rw [hparts]
    cases hm : d.mult <;>
      simp [Declaration.map, hm, hdisj, hg, isOf_node, Category.admits, ExprForm.ofKind?]
  have hwords : v.words = (if d.disj then [word .disjKw] else []) ++ [mark .colon] := by
    rw [View.words, hparts]
    cases hm : d.mult <;> cases hd : d.disj <;>
      simp [Declaration.map, hm, hd, Tree.words_cons_of_isOf (hg d.type)]
  have hisDisj : QuantDecl.isDisj v = d.disj := by
    rw [QuantDecl.isDisj, View.hasToken_eq v rfl, hwords]
    cases d.disj <;> rfl
  have hnames : several? (Spelled.ofText? (· == .ident)) v.names = some d.names := by
    obtain ⟨list, hfirst, hbare⟩ := View.first_of_parts hlist
    have hall : (NameList.names list).map View.bare = d.names.toList.map nameTree := by
      rw [NameList.names, View.map_bare_all, (View.kind_of_bare hbare).2,
        filter_nodes fun _ => rfl]
    rw [View.names, View.nameList, hfirst, Option.map_some, Option.getD_some, NameList.texts,
      texts_of_bare hall]
    exact several?_texts d.names
  have htype : (QuantDecl.type v).bind f = some d.type := hf.first hexprs
  rw [readDeclaration, hisDisj, hnames, multiplicity_of_parts hmult, htype]
  rfl

theorem inverts_binding : Inverts (readBinding f) fun b : Binding β => (b.map g).tree := by
  intro v b h
  have h : v.bare = (b.map g).tree := h
  have hparts := (View.kind_of_bare h).2
  have hname : v.parts.filter (Tree.isOf (.only .name)) = [nameTree b.name] := by
    have hvalue : (g b.value).isOf (.only .name) = false := Tree.not_isOf_only (hg _) rfl
    rw [hparts]
    simp [Binding.map, hvalue, nameTree, isOf_node, Category.admits]
  have hexprs : v.parts.filter (Tree.isOf .expr) = [g b.value] := by
    rw [hparts]
    simp [Binding.map, hg, nameTree, isOf_node, Category.admits, ExprForm.ofKind?]
  have hvalue : (LetDecl.value v).bind f = some b.value := hf.first hexprs
  rw [readBinding, name_of_parts hname, hvalue]
  rfl

end

end Term
end RelLang
