import Mathlib
import RelLang.Proofs.Parse.Asserted
import RelLang.Proofs.Parse.Bounds
import RelLang.Proofs.Syntax.Carry

/-!
# Declarations are the same beside others

A text that is one declaration by itself, as a field of a signature, as a parameter of a
predicate or behind a quantifier, is the same declaration when others are in front of it
and behind it. There is one exception: the names of the next declaration, behind the
comma, go on with names that a quantifier at the end of the type declares.
-/

namespace RelLang

open Grammar
open RelLang.Tree (kinds)

/-! ### Places of declarations -/

/-- Where declarations stand in a list. -/
inductive DeclarationPlace where
  | field | parameter | quantified
  deriving DecidableEq, Repr

namespace DeclarationPlace

/-- The node of a declaration. -/
def node : DeclarationPlace → NodeKind
  | .field => .fieldDecl
  | .parameter => .paraDecl
  | .quantified => .quantDecl

/-- The word that a declaration can begin with. -/
def word : DeclarationPlace → TokenKind
  | .field => .keyword .varKw
  | .parameter | .quantified => .keyword .disjKw

/-- The multiplicities that can stand in front of the type. -/
def multiplicities : DeclarationPlace → List TokenKind
  | .field => Operator.fieldMultiplicities
  | .parameter | .quantified => Operator.typeMultiplicities

/-- The level of the type. -/
def level : DeclarationPlace → Nat
  | .field => Operator.arrowLevel
  | .parameter | .quantified => 0

/-- What is read. -/
def entry : DeclarationPlace → Entry
  | .field | .parameter => .wholeModule
  | .quantified => .oneExpression

/-- The text in front of the list. -/
def front : DeclarationPlace → String
  | .field => "sig S \x7b "
  | .parameter => "pred p[ "
  | .quantified => "all "

/-- The text behind the list. -/
def back : DeclarationPlace → String
  | .field => " \x7d"
  | .parameter => " ] \x7b\x7d"
  | .quantified => " | some none"

/-- The tokens in front of the list. -/
def frontWords : DeclarationPlace → List (TokenKind × String)
  | .field => [(.keyword .sigKw, "sig"), (.ident, "S"), (.punct .lbrace, "\x7b")]
  | .parameter => [(.keyword .predKw, "pred"), (.ident, "p"), (.punct .lbracket, "[")]
  | .quantified => [(.keyword .allKw, "all")]

/-- The tokens behind the list. -/
def backWords : DeclarationPlace → List (TokenKind × String)
  | .field => [(.punct .rbrace, "\x7d")]
  | .parameter => [(.punct .rbracket, "]"), (.punct .lbrace, "\x7b"), (.punct .rbrace, "\x7d")]
  | .quantified => [(.punct .bar, "|"), (.keyword .someKw, "some"), (.keyword .noneKw, "none")]

/-- How many levels are left for the list. -/
def depth : DeclarationPlace → Nat
  | .field | .parameter => nestingLimit
  | .quantified => nestingLimit - 1

/-- The parse of a text in the place of the list. -/
def parse (place : DeclarationPlace) (text : String) : Parse :=
  .ofText {} place.entry (place.front ++ text ++ place.back)

/-- The declarations of the list, without trivia. -/
def trees? (place : DeclarationPlace) (p : Parse) : Option (List Tree) :=
  match place with
  | .field => match p.paragraphs with
    | [v] => (v.node.as? (.only .sigDecl)).map fun w : SigDecl => w.fields.map View.bare
    | _ => none
  | .parameter => match p.paragraphs with
    | [v] => (v.node.as? (.only .predDecl)).bind fun w : PredDecl =>
      w.params.map fun l => l.decls.map View.bare
    | _ => none
  | .quantified => p.expression?.bind fun v =>
    (v.node.as? (.only .quantExpr)).map fun w : QuantExpr => w.quantDecls.map View.bare

end DeclarationPlace

namespace Form

variable {n : Nat} {place : DeclarationPlace} {f g : Form} {t : Tree} {ts : List Tree}
  {behind before after : List TokenKind}

/-! ### One declaration -/

/-- `Word? NameList ':' Mult? Expr`, in a node. -/
def declarationAt (place : DeclarationPlace) : Form :=
  .node place.node <| row [optional place.word, nameList, token [.punct .colon],
    optionalMult place.multiplicities, exprAt place.level]

theorem declarationAt_field : declarationAt .field = fieldDecl := rfl

theorem declarationAt_parameter : declarationAt .parameter = paraDecl := rfl

theorem declarationAt_quantified : declarationAt .quantified = quantDecl := rfl

/-- What is behind the colon and the multiplicity of a declaration. -/
def typeOf (place : DeclarationPlace) (ks : List TokenKind) : List TokenKind :=
  let behind := (ks.dropWhile (· != .punct .colon)).tail
  if atAny place.multiplicities behind then behind.tail else behind

/-- The tokens end with a quantifier and a name. -/
def EndsQuantified (ks : List TokenKind) : Prop := ∃ k ∈ Operator.quantifiers, [k, .ident] <:+ ks

instance (ks : List TokenKind) : Decidable (EndsQuantified ks) :=
  inferInstanceAs (Decidable (∃ k ∈ Operator.quantifiers, [k, .ident] <:+ ks))

theorem lacks_nameList {kind : TokenKind} (hident : kind ≠ .ident) (hcomma : kind ≠ .punct .comma) :
    Lacks kind nameList := by
  have hname : Lacks kind name := (lacks_token (by simpa using hident)).node _
  exact (hname.append (.whileAhead ((lacks_token (by simpa using hcomma)).append hname))).node _

/-- The parts of a declaration: a type, and what is in front of it. -/
theorem parts_of_declaration (h : (declarationAt place).Derives n [t] behind) :
    ∃ word names colon mult type, t = .node place.node (word ++ (names ++ (colon ++ (mult ++ type)))) ∧
      (optional place.word).Derives n word (kinds names ++ (kinds colon ++ (kinds mult ++ kinds type)) ++ behind) ∧
      nameList.Derives n names (kinds colon ++ (kinds mult ++ kinds type) ++ behind) ∧
      (token [.punct .colon]).Derives n colon (kinds mult ++ kinds type ++ behind) ∧
      (optionalMult place.multiplicities).Derives n mult (kinds type ++ behind) ∧
      (exprAt place.level).Derives n type behind := by
  obtain ⟨parts, heq, hparts⟩ := derives_node.mp h
  obtain ⟨word, us, rfl, hword, hus⟩ := derives_row_cons.mp hparts
  obtain ⟨names, us, rfl, hnames, hus⟩ := derives_row_cons.mp hus
  obtain ⟨colon, us, rfl, hcolon, hus⟩ := derives_row_cons.mp hus
  obtain ⟨mult, type, rfl, hmult, htype⟩ := derives_row_cons.mp hus
  simp only [Tree.kinds_append] at hword hnames hcolon
  exact ⟨word, names, colon, mult, type, (List.cons.inj heq).1, hword, hnames, hcolon, hmult, htype⟩

/-- The type is behind the colon and the multiplicity. -/
theorem typeOf_parts {word names colon mult type : List Tree} {ks ls ms : List TokenKind}
    (hword : (optional place.word).Derives n word ks) (hnames : nameList.Derives n names ls)
    (hcolon : (token [.punct .colon]).Derives n colon ms)
    (hmult : (optionalMult place.multiplicities).Derives n mult (kinds type ++ behind))
    (hne : kinds type ≠ []) :
    typeOf place (kinds (word ++ (names ++ (colon ++ (mult ++ type))))) = kinds type := by
  have hfront : ∀ k ∈ kinds word ++ kinds names, (k != .punct .colon) = true := by
    have hlacks : Lacks (.punct .colon) (optional place.word) :=
      .given (lacks_token (by cases place <;> decide)) lacks_nothing
    have hlacksNames : Lacks (.punct .colon) nameList := lacks_nameList (by decide) (by decide)
    intro k hk
    refine bne_iff_ne.mpr fun heq => ?_
    rw [heq, List.mem_append] at hk
    exact hk.elim (hlacks _ _ _ hword) (hlacksNames _ _ _ hnames)
  obtain ⟨k, text, hk, rfl⟩ := derives_token.mp hcolon
  obtain rfl := List.mem_singleton.mp hk
  have hbehind : ((kinds (word ++ (names ++ ([Tree.token (.punct .colon) text] ++
      (mult ++ type))))).dropWhile (· != .punct .colon)).tail = kinds mult ++ kinds type := by
    simp only [Tree.kinds_append, ← List.append_assoc (kinds word)]
    rw [List.dropWhile_append_of_pos hfront]
    rfl
  obtain ⟨k, ks, hkinds⟩ := List.exists_cons_of_ne_nil hne
  rw [typeOf, hbehind]
  rw [optionalMult, ifAhead, derives_given, hkinds] at hmult
  split at hmult
  · next hyes =>
    obtain ⟨us, rfl, hus⟩ := derives_node.mp hmult
    obtain ⟨k, text, hk, rfl⟩ := derives_token.mp hus
    exact if_pos hyes
  · next hno =>
    obtain rfl := derives_nothing.mp hmult
    rw [Tree.kinds_nil, List.nil_append, hkinds]
    exact if_neg hno

/-- A declaration in front of some tokens is one in front of others, if no quantifier at its end
takes the names among these for its own. -/
theorem declaration_beside (hbefore : Outside before) (hafter : Beyond after)
    (hnames : namesEndInColon after = true → ¬ EndsQuantified (typeOf place (kinds [t])))
    (h : (declarationAt place).Derives n [t] before) : (declarationAt place).Derives n [t] after := by
  obtain ⟨word, names, colon, mult, type, rfl, hword, hnameList, hcolon, hmult, htype⟩ :=
    parts_of_declaration h
  have hfollowed : Followed (kinds type ++ []) :=
    (settles_exprAt place.level).turns_followed (begins_anyExpr _) type [] before settled_nil htype
  rw [List.append_nil] at hfollowed
  rw [Tree.kinds_node_cons, Tree.kinds_nil, List.append_nil,
    typeOf_parts hword hnameList hcolon hmult hfollowed.1] at hnames
  have hends : Endings (Parted after) (kinds type ++ []) := by
    rw [List.append_nil]
    rintro ls hls hcolon k hk rfl
    exact hnames hcolon ⟨k, hk, hls⟩
  have hinside : Inside (kinds colon ++ (kinds mult ++ kinds type)) := by
    obtain ⟨k, text, hk, rfl⟩ := derives_token.mp hcolon
    obtain rfl := List.mem_singleton.mp hk
    exact ⟨((hfollowed.append _).append _).2, .append ⟨.punct .colon, List.mem_cons_self, by decide⟩ _⟩
  have hanything : ∀ ks, Endings (fun _ => True) ks := fun _ _ _ => trivial
  refine .node (derives_row_cons.mpr ⟨word, _, rfl, ?_, derives_row_cons.mpr ⟨names, _, rfl, ?_,
    derives_row_cons.mpr ⟨colon, _, rfl, ?_, derives_row_cons.mpr ⟨mult, type, rfl, ?_, ?_⟩⟩⟩⟩)
  · simp only [Tree.kinds_append]
    exact stays_optional _ _ (turns_inside names _ _ hinside hnameList) (hanything _) hword
  · simp only [Tree.kinds_append]
    exact stays_nameList _ _ hinside (hanything _) hnameList
  · exact derives_token.mpr (derives_token.mp hcolon)
  · exact stays_optionalMult _ _ hfollowed (hanything _) hmult
  · exact stays_exprAt hbefore hafter _ _ [] atEnd_nil hends htype

/-! ### Declarations one behind the other -/

theorem begins_declarationAt : Begins (fun _ => True) (declarationAt place) :=
  (((beginsWith_nameList.mono fun _ _ => trivial).append _).appendRight _).node _

/-- Behind a comma, names up to a colon are those of the declaration. -/
theorem namesEndInColon_comma {ks : List TokenKind}
    (h : namesEndInColon (.punct .comma :: ks) = true) : at? .ident ks = true := by
  unfold namesEndInColon at h
  split at h
  · next heq =>
    obtain ⟨-, rfl⟩ := List.cons.inj heq
    rfl
  · next heq => cases (List.cons.inj heq).1
  · cases h

/-- Names of the second declaration do not go on with the type of the first. -/
def Beside (place : DeclarationPlace) (ks ls : List TokenKind) : Prop :=
  ls[0]? = some .ident → ¬ EndsQuantified (typeOf place ks)

theorem beyond_comma (ks : List TokenKind) : Beyond (.punct .comma :: ks) := ⟨rfl, rfl, rfl⟩

/-- Each declaration in its place among the others. -/
inductive InPlace (place : DeclarationPlace) (n : Nat) (closer : List TokenKind) :
    List Tree → Prop where
  | nil : InPlace place n closer []
  | cons {t : Tree} {ts : List Tree}
      (first : (declarationAt place).Derives n [t] (kinds (commaTrees ts) ++ closer))
      (rest : InPlace place n closer ts) : InPlace place n closer (t :: ts)

/-- Declarations that are ones somewhere are ones beside each other. -/
theorem inPlace_of_isChain {closer : List TokenKind} (hcloser : Outside closer)
    (hts : ∀ t ∈ ts, ∃ before, Outside before ∧ (declarationAt place).Derives n [t] before)
    (hchain : ts.IsChain fun t u => Beside place (kinds [t]) (kinds [u])) :
    InPlace place n closer ts := by
  induction ts with
  | nil => exact .nil
  | cons t ts ih =>
    obtain ⟨⟨before, hbefore, ht⟩, hrest⟩ := List.forall_mem_cons.mp hts
    refine .cons ?_ (ih hrest hchain.tail)
    cases ts with
    | nil => exact declaration_beside hbefore hcloser.toBeyond (fun hnames => by
        rw [commaTrees, List.flatMap_nil, Tree.kinds_nil, List.nil_append, hcloser.names] at hnames
        cases hnames) ht
    | cons u ts =>
      rw [kinds_commaTrees_cons, List.cons_append, List.append_assoc]
      refine declaration_beside hbefore (beyond_comma _) (fun hnames => ?_) ht
      obtain ⟨⟨_, -, hu⟩, -⟩ := List.forall_mem_cons.mp hrest
      obtain ⟨k, ks, hkinds, -⟩ := begins_declarationAt _ _ _ hu
      have hident := namesEndInColon_comma hnames
      rw [hkinds] at hident
      exact (List.isChain_cons_cons.mp hchain).1 (by rw [hkinds]; exact eq_of_beq hident)

theorem InPlace.commaList {closer : List TokenKind} (h : InPlace place n closer ts) :
    (commaList (declarationAt place)).Derives n (argumentTrees ts) closer := by
  induction h with
  | nil => exact derives_append.mpr ⟨[], [], rfl, .stop, .right .nothing⟩
  | @cons t ts first rest ih =>
    cases ts with
    | nil => exact derives_append.mpr ⟨[], [t], rfl, .stop, .left first⟩
    | cons u ts =>
      obtain ⟨items, last, heq, hitems, hlast⟩ := derives_append.mp ih
      have hsplit : argumentTrees (t :: u :: ts)
          = ([t] ++ [.token (.punct .comma) ","]) ++ items ++ last := by
        rw [List.append_assoc _ items, ← heq]
        rfl
      have hkinds : kinds (commaTrees (u :: ts)) ++ closer
          = .punct .comma :: (kinds items ++ (kinds last ++ closer)) := by
        have harguments : kinds (argumentTrees (u :: ts)) = kinds [u] ++ kinds (commaTrees ts) :=
          Tree.kinds_append [u] _
        rw [kinds_commaTrees_cons, ← harguments, heq, Tree.kinds_append, List.cons_append,
          List.append_assoc]
      rw [hkinds] at first
      refine derives_append.mpr ⟨_, last, hsplit, .round ?_ hitems, hlast⟩
      exact derives_append.mpr ⟨[t], [_], rfl, first, .one⟩

/-- Behind a quantifier, there is a comma only if a declaration is behind it. -/
theorem InPlace.quantDecls {closer : List TokenKind} (h : InPlace .quantified n closer (t :: ts))
    (hcloser : at? (.punct .comma) closer = false) :
    quantDecls.Derives n (argumentTrees (t :: ts)) closer := by
  have hmany : ∀ {ts}, InPlace .quantified n closer ts →
      (many (look commaDeclaration ++ (token [.punct .comma] ++ quantDecl))).Derives n
        (commaTrees ts) closer := by
    intro ts h
    induction h with
    | nil => exact .stop
    | @cons t ts first _ ih =>
      have hitem : (token [.punct .comma] ++ quantDecl).Derives n [.token (.punct .comma) ",", t]
          (kinds (commaTrees ts) ++ closer) := first.one_append
      exact .round (derives_look_append.mpr ⟨shows_commaDeclaration _ _ _ _ hitem, hitem⟩) ih
  cases h with
  | cons first rest =>
    refine derives_append.mpr ⟨[t], commaTrees ts, rfl, first, (hmany rest).then_stop ?_⟩
    rw [commaDeclaration, hcloser, Bool.false_and]

/-! ### The only one of a list -/

section

variable {c : Category} {kind : NodeKind} {us : List Tree}

/-- None of the trees that the form stands for is a node of the category. -/
def HasNone (c : Category) (f : Form) : Prop :=
  ∀ n ts behind, Derives n f ts behind → ts.filter (Tree.isOf c) = []

theorem hasNone_nothing : HasNone c .nothing := by
  intro n ts behind hts
  obtain rfl := derives_nothing.mp hts
  rfl

theorem hasNone_token {allowed : List TokenKind} : HasNone c (.token allowed) := by
  intro n ts behind hts
  obtain ⟨k, text, -, rfl⟩ := derives_token.mp hts
  rfl

theorem hasNone_node (h : c.admits kind = false) : HasNone c (.node kind f) := by
  intro n ts behind hts
  obtain ⟨us, rfl, -⟩ := derives_node.mp hts
  simp [Tree.isOf, h]

theorem HasNone.either (hf : HasNone c f) (hg : HasNone c g) : HasNone c (.either f g) := by
  intro n ts behind hts
  obtain hts | hts := derives_either.mp hts
  · exact hf _ _ _ hts
  · exact hg _ _ _ hts

theorem HasNone.ifAhead {test : List TokenKind → Bool} (hf : HasNone c f) :
    HasNone c (ifAhead test f) := by
  intro n ts behind hts
  rw [Form.ifAhead, derives_given] at hts
  split at hts
  · exact hf _ _ _ hts
  · exact hasNone_nothing _ _ _ hts

theorem HasNone.many (hf : HasNone c f) : HasNone c (.many f) := by
  intro n ts behind hts
  refine hts.many_induction (p := fun ts => ts.filter (Tree.isOf c) = []) rfl ?_
  intro us vs hus ih
  rw [List.filter_append, hf _ _ _ hus, ih, List.nil_append]

/-- What is in front does not count. -/
theorem HasNone.skip (hf : HasNone c f) (h : (f ++ g).Derives n ts behind) :
    ∃ us, us.filter (Tree.isOf c) = ts.filter (Tree.isOf c) ∧ g.Derives n us behind := by
  obtain ⟨us, vs, rfl, hus, hvs⟩ := derives_append.mp h
  exact ⟨vs, by rw [List.filter_append, hf _ _ _ hus, List.nil_append], hvs⟩

theorem IsNode.isOf {test : NodeKind → Prop} (hf : IsNode test f)
    (htest : ∀ kind, test kind → c.admits kind = true) (h : f.Derives n ts behind) :
    ∃ t, ts = [t] ∧ t.isOf c = true := by
  obtain ⟨kind, us, rfl, hkind⟩ := hf _ _ _ h
  exact ⟨_, rfl, htest kind hkind⟩

/-- The node that is in front is the first. -/
theorem IsNode.first {test : NodeKind → Prop} (hf : IsNode test f)
    (htest : ∀ kind, test kind → c.admits kind = true) (h : (f ++ g).Derives n ts behind) :
    ∃ t us, ts.filter (Tree.isOf c) = t :: us.filter (Tree.isOf c) ∧
      f.Derives n [t] (kinds us ++ behind) ∧ g.Derives n us behind := by
  obtain ⟨us, vs, rfl, hus, hvs⟩ := derives_append.mp h
  obtain ⟨t, rfl, ht⟩ := hf.isOf htest hus
  exact ⟨t, vs, List.filter_cons_of_pos ht, hus, hvs⟩

/-- Where no node of the category is left, there are no more items. -/
theorem eq_nil_of_many (hf : ∀ us behind, Derives n f us behind → us.filter (Tree.isOf c) ≠ [])
    (h : Derives n (.many f) ts behind) (hnone : ts.filter (Tree.isOf c) = []) : ts = [] := by
  obtain rfl | ⟨us, vs, rfl, hus, -⟩ := derives_many.mp h
  · rfl
  · rw [List.filter_append] at hnone
    exact absurd (List.append_eq_nil_iff.mp hnone).1 (hf _ _ hus)

theorem admits_only (kind : NodeKind) :
    ∀ k, k = kind → (Category.only kind).admits k = true :=
  fun _ hkind => beq_iff_eq.mpr hkind.symm

theorem isNode_declarationAt : IsNode (· = place.node) (declarationAt place) := isNode_node rfl

/-- The only declaration of a list can have a comma behind it. -/
theorem only_of_commaList (h : (commaList (declarationAt place)).Derives n ts behind)
    (hone : ts.filter (Tree.isOf (.only place.node)) = [t]) :
    (declarationAt place).Derives n [t] behind ∨
      (declarationAt place).Derives n [t] (.punct .comma :: behind) := by
  have hnode : IsNode (· = place.node) (declarationAt place) := isNode_declarationAt
  have hadmits := admits_only place.node
  obtain ⟨items, last, rfl, hitems, hlast⟩ := derives_append.mp h
  rw [List.filter_append] at hone
  obtain rfl | ⟨first, more, rfl, hfirst, hmore⟩ := derives_many.mp hitems
  · obtain hlast | hnothing := derives_either.mp hlast
    · obtain ⟨u, rfl, hu⟩ := hnode.isOf hadmits hlast
      rw [List.filter_nil, List.nil_append, List.filter_cons_of_pos hu] at hone
      obtain rfl := (List.cons.inj hone).1
      exact .inl hlast
    · obtain rfl := derives_nothing.mp hnothing
      cases hone
  · obtain ⟨u, comma, hfilter, hu, hcomma⟩ := hnode.first hadmits hfirst
    rw [List.filter_append, hfilter, hasNone_token _ _ _ hcomma] at hone
    obtain ⟨rfl, hrest⟩ := List.cons.inj hone
    obtain ⟨hnoMore, hnoLast⟩ := List.append_eq_nil_iff.mp hrest
    have hitem : ∀ us behind, Derives n (declarationAt place ++ token [.punct .comma]) us behind →
        us.filter (Tree.isOf (.only place.node)) ≠ [] := by
      intro us behind hus
      obtain ⟨t, vs, hfilter, -⟩ := hnode.first hadmits hus
      rw [hfilter]
      exact List.cons_ne_nil _ _
    obtain rfl := eq_nil_of_many hitem hmore hnoMore
    obtain hlast | hnothing := derives_either.mp hlast
    · obtain ⟨l, rfl, hl⟩ := hnode.isOf hadmits hlast
      rw [List.filter_cons_of_pos hl] at hnoLast
      cases hnoLast
    · obtain rfl := derives_nothing.mp hnothing
      obtain ⟨k, text, hk, rfl⟩ := derives_token.mp hcomma
      obtain rfl := List.mem_singleton.mp hk
      exact .inr hu

/-- The only declaration in brackets has a bracket behind it, or a comma and a bracket. -/
theorem outside_of_brackets {opener closer : TokenKind}
    (hcloser : closer ∈ [.punct .rparen, .punct .rbracket, .punct .rbrace])
    (h : (row [token [opener], commaList (declarationAt place), token [closer]]).Derives n us behind)
    (hone : us.filter (Tree.isOf (.only place.node)) = [t]) :
    ∃ before, Outside before ∧ (declarationAt place).Derives n [t] before := by
  obtain ⟨us₁, hfilter, h⟩ := HasNone.skip hasNone_token h
  obtain ⟨list, last, rfl, hlist, hlast⟩ := derives_append.mp h
  rw [← hfilter, List.filter_append, hasNone_token _ _ _ hlast, List.append_nil] at hone
  obtain ⟨k, text, hk, rfl⟩ := derives_token.mp hlast
  obtain rfl := List.mem_singleton.mp hk
  obtain ht | ht := only_of_commaList hlist hone
  · exact ⟨_, .closer hcloser behind, ht⟩
  · refine ⟨_, ⟨beyond_comma _, ?_⟩, ht⟩
    simp only [List.mem_cons, List.not_mem_nil, or_false] at hcloser
    rcases hcloser with rfl | rfl | rfl
    all_goals rfl

/-- The only field of a signature. -/
theorem field_of_sigDecl {parts : List Tree} (h : sigDecl.Derives n [.node .sigDecl parts] behind)
    (hlist : (parts.filter (Tree.isOf (.only .fieldList))).head? = some (.node .fieldList us))
    (hone : us.filter (Tree.isOf (.only .fieldDecl)) = [t]) :
    ∃ before, Outside before ∧ (declarationAt .field).Derives n [t] before := by
  obtain ⟨parts, heq, hparts⟩ := derives_node.mp h
  obtain rfl := (Tree.node.inj (List.cons.inj heq).1).2
  have hmodifier : HasNone (.only .fieldList) sigModifier := hasNone_token.either (hasNone_node rfl)
  have hnode : IsNode (· = .fieldList) fieldList := isNode_node rfl
  have hother : ∀ {kind f}, kind ≠ .fieldList → HasNone (.only .fieldList) (.node kind f) :=
    fun hkind => hasNone_node (beq_false_of_ne hkind.symm)
  obtain ⟨parts₁, hparts₁, h⟩ := HasNone.skip hmodifier.many hparts
  obtain ⟨parts₂, hparts₂, h⟩ := HasNone.skip hasNone_token h
  obtain ⟨parts₃, hparts₃, h⟩ := HasNone.skip (hother (by decide)) h
  obtain ⟨parts₄, hparts₄, h⟩ := HasNone.skip (hother (by decide)).ifAhead h
  obtain ⟨list, rest, hfilter, hfields, -⟩ := hnode.first (admits_only .fieldList) h
  rw [← hparts₁, ← hparts₂, ← hparts₃, ← hparts₄, hfilter] at hlist
  obtain rfl := Option.some.inj hlist
  obtain ⟨us, heq, hus⟩ := derives_node.mp hfields
  obtain rfl := (Tree.node.inj (List.cons.inj heq).1).2
  exact outside_of_brackets (by decide) hus hone

/-- The only parameter of a predicate. -/
theorem parameter_of_predDecl {parts : List Tree}
    (h : predDecl.Derives n [.node .predDecl parts] behind)
    (hlist : (parts.filter (Tree.isOf (.only .paraDecls))).head? = some (.node .paraDecls us))
    (hone : us.filter (Tree.isOf (.only .paraDecl)) = [t]) :
    ∃ before, Outside before ∧ (declarationAt .parameter).Derives n [t] before := by
  obtain ⟨parts, heq, hparts⟩ := derives_node.mp h
  obtain rfl := (Tree.node.inj (List.cons.inj heq).1).2
  have hnode : IsNode (· = .paraDecls) paraDecls := isNode_node rfl
  have hother : ∀ {kind f}, kind ≠ .paraDecls → HasNone (.only .paraDecls) (.node kind f) :=
    fun hkind => hasNone_node (beq_false_of_ne hkind.symm)
  obtain ⟨parts₁, hparts₁, h⟩ := HasNone.skip hasNone_token hparts
  obtain ⟨parts₂, hparts₂, h⟩ := HasNone.skip (hother (by decide)).ifAhead h
  obtain ⟨parts₃, hparts₃, h⟩ := HasNone.skip (hother (by decide)).ifAhead h
  obtain ⟨parts₄, hparts₄, h⟩ := HasNone.skip (hother (by decide)) h
  rw [← hparts₁, ← hparts₂, ← hparts₃, ← hparts₄] at hlist
  have h : (optionalParaDecls ++ block).Derives n parts₄ behind := h
  rw [optionalParaDecls, ifAhead, derives_given_append] at h
  split at h
  · obtain ⟨list, rest, hfilter, hparams, -⟩ :=
      hnode.first (admits_only .paraDecls) h
    rw [hfilter] at hlist
    obtain rfl := Option.some.inj hlist
    obtain ⟨us, heq, hus⟩ := derives_node.mp hparams
    obtain rfl := (Tree.node.inj (List.cons.inj heq).1).2
    rw [derives_given] at hus
    split at hus
    · exact outside_of_brackets (by decide) hus hone
    · exact outside_of_brackets (by decide) hus hone
  · have hblock : HasNone (.only .paraDecls) block := hother (by decide)
    rw [hblock _ _ _ (derives_nothing_append.mp h)] at hlist
    cases hlist

/-- The only declaration behind a quantifier. -/
theorem quantified_of_universal (h : universal.Derives n us behind)
    (hone : us.filter (Tree.isOf (.only .quantDecl)) = [t]) :
    ∃ before, Outside before ∧ (declarationAt .quantified).Derives n [t] before := by
  have hnode : IsNode (· = .quantDecl) quantDecl := isNode_node rfl
  have hadmits := admits_only .quantDecl
  have hround : ∀ us behind,
      Derives n (look commaDeclaration ++ (token [.punct .comma] ++ quantDecl)) us behind →
        us.filter (Tree.isOf (.only .quantDecl)) ≠ [] := by
    intro us behind hus
    obtain ⟨us, hfilter, hus⟩ := HasNone.skip hasNone_token (derives_look_append.mp hus).2
    obtain ⟨u, rfl, hu⟩ := hnode.isOf hadmits hus
    rw [← hfilter, List.filter_cons_of_pos hu]
    exact List.cons_ne_nil _ _
  obtain ⟨us, hfilter, h⟩ := HasNone.skip hasNone_token h
  obtain ⟨decls, body, rfl, hdecls, hbody⟩ := derives_append.mp h
  obtain ⟨u, more, hfirst, hu, hmore⟩ := hnode.first hadmits hdecls
  rw [← hfilter, List.filter_append, hfirst] at hone
  obtain ⟨rfl, hrest⟩ := List.cons.inj hone
  obtain ⟨hrounds, -⟩ := derives_append_look.mp hmore
  obtain rfl := eq_nil_of_many hround hrounds (List.append_eq_nil_iff.mp hrest).1
  refine ⟨_, ?_, hu⟩
  obtain ⟨k, ks, hkinds, hk⟩ := begins_binderBody _ _ _ hbody
  obtain ⟨rfl⟩ | ⟨rfl⟩ := by simpa using hk
  all_goals
    rw [Tree.kinds_nil, List.nil_append, hkinds]
    exact ⟨⟨rfl, rfl, rfl⟩, rfl⟩

end

/-! ### Texts around declarations -/

/-- `sig S { Field , ... , Field }` -/
def sigTree (ts : List Tree) : Tree :=
  .node .sigDecl [.token (.keyword .sigKw) "sig",
    .node .nameList [.node .name [.token .ident "S"]],
    .node .fieldList ([.token (.punct .lbrace) "\x7b"] ++ argumentTrees ts
      ++ [.token (.punct .rbrace) "\x7d"])]

theorem derives_sigTree (h : InPlace .field n [.punct .rbrace] ts) :
    (ofEntry .wholeModule).Derives n [sigTree ts] [] := by
  have hfields : fieldList.Derives n [.node .fieldList ([.token (.punct .lbrace) "\x7b"]
      ++ argumentTrees ts ++ [.token (.punct .rbrace) "\x7d"])] [] := by
    refine .node (.one_row (derives_row_cons.mpr ⟨argumentTrees ts, [_], rfl, ?_, .one⟩))
    exact h.commaList
  have hsig : sigDecl.Derives n [sigTree ts] [] := by
    refine .node (derives_row_cons.mpr ⟨[], _, rfl, .stop, .one_row ?_⟩)
    refine derives_row_cons.mpr ⟨[_], [_], rfl, ?_, ?_⟩
    · exact .node (derives_append.mpr ⟨[_], [], rfl, .node .one, Derives.then_stop .stop rfl⟩)
    refine derives_row_cons.mpr ⟨[], [_], rfl, derives_given.mpr .nothing, ?_⟩
    exact derives_row_cons.mpr ⟨[_], [], rfl, hfields, derives_given.mpr .nothing⟩
  have hparagraph : paragraph.Derives n [sigTree ts] [] := derives_ahead.mpr hsig
  have hdeclarations : (declarations {}).Derives n [sigTree ts] [] :=
    derives_append.mpr ⟨[], [_], rfl, .stop, .left (.round hparagraph .stop)⟩
  exact derives_row_cons.mpr ⟨[], [_], rfl, derives_given.mpr .nothing,
    hdeclarations.then_look rfl⟩

/-- `pred p [ Parameter , ... , Parameter ] { }` -/
def paramTree (ts : List Tree) : Tree :=
  .node .predDecl [.token (.keyword .predKw) "pred", .node .name [.token .ident "p"],
    .node .paraDecls ([.token (.punct .lbracket) "["] ++ argumentTrees ts
      ++ [.token (.punct .rbracket) "]"]),
    .node .block [.token (.punct .lbrace) "\x7b", .token (.punct .rbrace) "\x7d"]]

theorem derives_paramTree (h : InPlace .parameter n [.punct .rbracket, .punct .lbrace, .punct .rbrace] ts) :
    (ofEntry .wholeModule).Derives n [paramTree ts] [] := by
  have hblock : block.Derives n
      [.node .block [.token (.punct .lbrace) "\x7b", .token (.punct .rbrace) "\x7d"]] [] :=
    .node (.one_row (derives_row_cons.mpr ⟨[], [_], rfl, .stop, .one⟩))
  have hparams : paraDecls.Derives n [.node .paraDecls ([.token (.punct .lbracket) "["]
      ++ argumentTrees ts ++ [.token (.punct .rbracket) "]"])] [.punct .lbrace, .punct .rbrace] := by
    refine .node (derives_given.mpr (.one_row (derives_row_cons.mpr ⟨argumentTrees ts, [_], rfl, ?_,
      .one⟩)))
    exact h.commaList
  have hpred : predDecl.Derives n [paramTree ts] [] := by
    refine .node (.one_row (derives_row_cons.mpr ⟨[], _, rfl, derives_given.mpr .nothing, ?_⟩))
    refine derives_row_cons.mpr ⟨[], _, rfl, derives_given.mpr .nothing, ?_⟩
    refine derives_row_cons.mpr ⟨[_], _, rfl, .node .one, ?_⟩
    exact derives_row_cons.mpr ⟨[_], [_], rfl, derives_given.mpr hparams, hblock⟩
  have hparagraph : paragraph.Derives n [paramTree ts] [] := derives_ahead.mpr hpred
  have hdeclarations : (declarations {}).Derives n [paramTree ts] [] :=
    derives_append.mpr ⟨[], [_], rfl, .stop, .left (.round hparagraph .stop)⟩
  exact derives_row_cons.mpr ⟨[], [_], rfl, derives_given.mpr .nothing,
    hdeclarations.then_look rfl⟩

/-- `some none` -/
def someNone : Tree :=
  .node .multExpr [.token (.keyword .someKw) "some", .node .constExpr [.token (.keyword .noneKw) "none"]]

theorem derives_someNone (hn : 2 ≤ n) : expr.Derives n [someNone] [] := by
  have hnone : ∀ level, (exprAt level).Derives 1 [.node .constExpr [.token (.keyword .noneKw) "none"]] [] :=
    fun level => .part (.then_look (.head (derives_ahead.mpr (.node .one))) rfl)
  have hsome : operandHead.Derives 1 [someNone] [] :=
    derives_ahead.mpr (.node (hnone _).one_append)
  exact Derives.mono (.part (.then_look (.head hsome) rfl)) hn

/-- `all Declaration , ... , Declaration | some none` -/
def allTree (ts : List Tree) : Tree :=
  .node .quantExpr ([.token (.keyword .allKw) "all"] ++ argumentTrees ts
    ++ [.token (.punct .bar) "|", someNone])

theorem derives_allTree (hn : 2 ≤ n)
    (h : InPlace .quantified n [.punct .bar, .keyword .someKw, .keyword .noneKw] (t :: ts)) :
    (ofEntry .oneExpression).Derives (n + 1) [allTree (t :: ts)] [] := by
  have hdecls := h.quantDecls rfl
  have hbody : binderBody.Derives n [.token (.punct .bar) "|", someNone] [] :=
    derives_given.mpr (derives_someNone hn).one_append
  have hahead := shows_quantDecls _ _ _ hdecls
  have hquantified : (quantified (.keyword .allKw)).Derives n [allTree (t :: ts)] [] := by
    refine .node (.one_row (derives_row_cons.mpr ⟨argumentTrees (t :: ts), _, rfl, ?_, hbody⟩))
    exact derives_given.mpr ((if_pos hahead).mpr hdecls)
  have hhead : operandHead.Derives n [allTree (t :: ts)] [] := by
    have hbinder := shows_quantifierAhead rfl _ _ _ hquantified
    obtain ⟨k, ks, hkinds, rfl⟩ := beginsWith_quantified _ _ _ _ hquantified
    refine derives_ahead.mpr ?_
    rw [hkinds, List.append_nil] at hbinder ⊢
    have hyes : binderAhead (.keyword .allKw :: ks) = true := Bool.or_eq_true_iff.mpr (.inr hbinder)
    simp only [List.getElem?_cons_zero, if_pos hyes]
    exact hquantified
  exact .then_look (.part (.then_look (.head hhead) rfl)) rfl

/-- The list with what is around it. -/
def listTree : DeclarationPlace → List Tree → Tree
  | .field => sigTree
  | .parameter => paramTree
  | .quantified => allTree

theorem derives_listTree (h : InPlace place place.depth (place.backWords.map (·.1)) ts)
    (hne : place = .quantified → ts ≠ []) :
    (ofEntry place.entry).Derives nestingLimit [listTree place ts] [] := by
  cases place with
  | field => exact derives_sigTree h
  | parameter => exact derives_paramTree h
  | quantified =>
    obtain ⟨t, ts, rfl⟩ := List.exists_cons_of_ne_nil (hne rfl)
    exact derives_allTree (by decide) h

theorem leaves_listTree (place : DeclarationPlace) (ts : List Tree) :
    (listTree place ts).leaves
      = place.frontWords ++ (Tree.leavesAll (argumentTrees ts) ++ place.backWords) := by
  cases place
  all_goals simp [listTree, sigTree, paramTree, allTree, someNone, DeclarationPlace.frontWords,
    DeclarationPlace.backWords, Tree.leaves, Tree.leavesAll]

end Form

/-! ### The texts -/

namespace Lexer

theorem words_front (place : DeclarationPlace) (cs : List Char) :
    words (place.front.toList ++ cs) = place.frontWords ++ words cs := by
  have hsig : lexemes "sig".toList = [⟨.keyword .sigKw, "sig".toList, []⟩] := by rw [lexemes_eq]; rfl
  have hS : lexemes ['S'] = [⟨.ident, ['S'], []⟩] := by rw [lexemes_eq]; rfl
  have hbrace : lexemes ['\x7b'] = [⟨.punct .lbrace, ['\x7b'], []⟩] := by rw [lexemes_eq]; rfl
  have hpred : lexemes "pred".toList = [⟨.keyword .predKw, "pred".toList, []⟩] := by
    rw [lexemes_eq]; rfl
  have hbracket : lexemes ['['] = [⟨.punct .lbracket, ['['], []⟩] := by rw [lexemes_eq]; rfl
  have hp : ∀ cs, words ('p' :: (['['] ++ cs)) = (.ident, "p") :: words (['['] ++ cs) := by
    intro cs
    rw [words_cons]
    rfl
  have hall : lexemes "all".toList = [⟨.keyword .allKw, "all".toList, []⟩] := by rw [lexemes_eq]; rfl
  cases place with
  | field =>
    have htext : DeclarationPlace.field.front.toList ++ cs
        = "sig".toList ++ ' ' :: (['S'] ++ ' ' :: (['\x7b'] ++ ' ' :: cs)) := by
      simp [DeclarationPlace.front]
    rw [htext, words_append_blank hsig rfl, words_append_blank hS rfl, words_append_blank hbrace rfl]
    rfl
  | parameter =>
    have htext : DeclarationPlace.parameter.front.toList ++ cs
        = "pred".toList ++ ' ' :: ('p' :: (['['] ++ ' ' :: cs)) := by
      simp [DeclarationPlace.front]
    rw [htext, words_append_blank hpred rfl, hp, words_append_blank hbracket rfl]
    rfl
  | quantified =>
    have htext : DeclarationPlace.quantified.front.toList ++ cs = "all".toList ++ ' ' :: cs := by
      simp [DeclarationPlace.front]
    rw [htext, words_append_blank hall rfl]
    rfl

theorem words_back (place : DeclarationPlace) : words place.back.toList = place.backWords := by
  rw [words, lexemes_eq]
  cases place
  all_goals rfl

theorem words_list (place : DeclarationPlace) {Ds : List String} (hDs : ∀ D ∈ Ds, Closed D) :
    words (place.front ++ ", ".intercalate (Ds.map (· ++ "\n")) ++ place.back).toList
      = place.frontWords ++ (commaWords Ds ++ place.backWords) := by
  rw [String.toList_append, String.toList_append, List.append_assoc, words_front,
    words_commaLines hDs, words_back]

end Lexer

namespace Parse

open Lexer (Closed words)
open Form (Beside listTree)

/-- The text is one declaration in the place, which is all that is there. -/
structure OneDeclaration (place : DeclarationPlace) (D : String) (t : Tree) : Prop where
  ok : (place.parse D).ok = true
  tree : place.trees? (place.parse D) = some [t]
  whole : t.leaves = (significantTokens D).map Token.toPair

/-- What is known of a text that is one declaration. -/
structure StandsAt (place : DeclarationPlace) (D : String) (t : Tree) : Prop where
  closed : Closed D
  derives : ∃ before, Outside before ∧ (Form.declarationAt place).Derives place.depth [t] before
  leaves : t.leaves = words D.toList

/-- What is read begins with the tokens in front of the list. -/
theorem kinds_of_parse (place : DeclarationPlace) {D : String} {ts : List Tree}
    (htree : (place.parse D).tree.bare = .node place.entry.rootKind ts) :
    ∃ ks, kinds ts = place.frontWords.map (·.1) ++ ks := by
  have hleaves := leaves_of_bare htree
  rw [map_toPair_significantTokens, String.toList_append, String.toList_append, List.append_assoc,
    Lexer.words_front] at hleaves
  exact ⟨_, by rw [kinds, hleaves, List.map_append]⟩

section

variable {D : String} {t : Tree}

/-- The only field of a signature that is all of a module. -/
theorem field_of_ok (hok : (DeclarationPlace.field.parse D).ok = true)
    (ht : DeclarationPlace.field.trees? (DeclarationPlace.field.parse D) = some [t]) :
    ∃ before, Outside before ∧ (Form.declarationAt .field).Derives nestingLimit [t] before := by
  obtain ⟨ts, htree, hts⟩ := derives_of_ok rfl hok
  obtain ⟨ks, hkinds⟩ := kinds_of_parse .field htree
  unfold DeclarationPlace.trees? at ht
  dsimp only at ht
  split at ht
  · next v hv =>
    obtain ⟨w, hw, hfields⟩ := Option.map_eq_some_iff.mp ht
    obtain ⟨rfl, hparagraph⟩ := Form.only_paragraph (k := .keyword .sigKw) (by decide) hts
      (by rw [hkinds]; rfl) (paragraph_of_bare htree hv hw)
    have hsig := Form.derives_ahead.mp hparagraph
    rw [List.append_nil, hkinds] at hsig
    unfold SigDecl.fields at hfields
    cases hlist : w.fieldList with
    | none =>
      rw [hlist] at hfields
      cases hfields
    | some l =>
      rw [hlist, Option.map_some, Option.getD_some, FieldList.fields, View.map_bare_all] at hfields
      refine Form.field_of_sigDecl hsig ?_ hfields
      rw [← w.map_bare_first (.only .fieldList), ← l.bare_only]
      exact Option.map_eq_some_iff.mpr ⟨l, hlist, rfl⟩
  · cases ht

/-- The only parameter of a predicate that is all of a module. -/
theorem parameter_of_ok (hok : (DeclarationPlace.parameter.parse D).ok = true)
    (ht : DeclarationPlace.parameter.trees? (DeclarationPlace.parameter.parse D) = some [t]) :
    ∃ before, Outside before ∧ (Form.declarationAt .parameter).Derives nestingLimit [t] before := by
  obtain ⟨ts, htree, hts⟩ := derives_of_ok rfl hok
  obtain ⟨ks, hkinds⟩ := kinds_of_parse .parameter htree
  unfold DeclarationPlace.trees? at ht
  dsimp only at ht
  split at ht
  · next v hv =>
    obtain ⟨w, hw, hdecls⟩ := Option.bind_eq_some_iff.mp ht
    obtain ⟨l, hlist, hdecls⟩ := Option.map_eq_some_iff.mp hdecls
    obtain ⟨rfl, hparagraph⟩ := Form.only_paragraph (k := .keyword .predKw) (by decide) hts
      (by rw [hkinds]; rfl) (paragraph_of_bare htree hv hw)
    have hpred := Form.derives_ahead.mp hparagraph
    rw [List.append_nil, hkinds] at hpred
    rw [ParaDecls.decls, View.map_bare_all] at hdecls
    refine Form.parameter_of_predDecl hpred ?_ hdecls
    rw [← w.map_bare_first (.only .paraDecls), ← l.bare_only]
    exact Option.map_eq_some_iff.mpr ⟨l, hlist, rfl⟩
  · cases ht

/-- The only declaration of a quantification that is all of an expression. -/
theorem quantified_of_ok (hok : (DeclarationPlace.quantified.parse D).ok = true)
    (ht : DeclarationPlace.quantified.trees? (DeclarationPlace.quantified.parse D) = some [t]) :
    ∃ before, Outside before ∧
      (Form.declarationAt .quantified).Derives (nestingLimit - 1) [t] before := by
  obtain ⟨ts, htree, hts, -⟩ := expression_of_ok hok
  obtain ⟨ks, hkinds⟩ := kinds_of_parse .quantified htree
  obtain ⟨kind, us, rfl, hkind⟩ := Form.isExpr_exprAt 0 _ _ _ hts
  obtain ⟨v, hv, hbare⟩ := expression?_of_bare htree hkind
  unfold DeclarationPlace.trees? at ht
  obtain ⟨v', hv', hquantified⟩ := Option.bind_eq_some_iff.mp ht
  obtain rfl : v = v' := Option.some.inj (hv.symm.trans hv')
  obtain ⟨w, hw, hdecls⟩ := Option.map_eq_some_iff.mp hquantified
  have hnode : Tree.node kind us = .node .quantExpr w.parts := by
    rw [← hbare, ← w.bare_only, View.bare_of_as? hw]
  obtain ⟨rfl, rfl⟩ := Tree.node.inj hnode
  rw [View.quantDecls, View.map_bare_all] at hdecls
  obtain ⟨m, hlevel, hm⟩ := Form.derives_part.mp hts
  obtain ⟨hextended, -⟩ := Form.derives_append_look.mp hm
  obtain ⟨-, us, hus, huniversal⟩ :=
    Form.universal_of_operandHead (hextended.head_of_quantExpr rfl) (by rw [hkinds]; rfl)
  obtain rfl := (Tree.node.inj (List.cons.inj hus).1).2
  obtain rfl : m = nestingLimit - 1 := by rw [hlevel, Nat.add_sub_cancel]
  exact Form.quantified_of_universal huniversal hdecls

end

/-- The declarations consist of tokens of the text. -/
theorem leaves_of_trees? {place : DeclarationPlace} {p : Parse} {us ts : List Tree}
    (htree : p.tree.bare = .node place.entry.rootKind us) (h : place.trees? p = some ts) :
    ∀ t ∈ ts, t.leaves ⊆ Tree.leavesAll us := by
  intro t ht
  unfold DeclarationPlace.trees? at h
  cases place with
  | field =>
    have hparagraphs := map_bare_paragraphs htree
    dsimp only at h
    split at h
    · next v hv =>
      obtain ⟨w, hw, rfl⟩ := Option.map_eq_some_iff.mp h
      obtain ⟨d, hd, rfl⟩ := List.mem_map.mp ht
      rw [hv, List.map_singleton] at hparagraphs
      have hmem : v.bare ∈ us := List.mem_of_mem_filter (hparagraphs ▸ List.mem_singleton_self _)
      unfold SigDecl.fields at hd
      cases hlist : w.fieldList with
      | none =>
        rw [hlist] at hd
        cases hd
      | some l =>
        rw [hlist] at hd
        calc d.bare.leaves
          _ ⊆ l.bare.leaves := View.leaves_subset_of_all hd
          _ ⊆ w.bare.leaves := View.leaves_subset_of_first hlist
          _ ⊆ Tree.leavesAll us := View.bare_of_as? hw ▸ Tree.leaves_subset_of_mem hmem
    · cases h
  | parameter =>
    have hparagraphs := map_bare_paragraphs htree
    dsimp only at h
    split at h
    · next v hv =>
      obtain ⟨w, hw, hdecls⟩ := Option.bind_eq_some_iff.mp h
      obtain ⟨l, hlist, rfl⟩ := Option.map_eq_some_iff.mp hdecls
      obtain ⟨d, hd, rfl⟩ := List.mem_map.mp ht
      rw [hv, List.map_singleton] at hparagraphs
      have hmem : v.bare ∈ us := List.mem_of_mem_filter (hparagraphs ▸ List.mem_singleton_self _)
      calc d.bare.leaves
        _ ⊆ l.bare.leaves := View.leaves_subset_of_all hd
        _ ⊆ w.bare.leaves := View.leaves_subset_of_first hlist
        _ ⊆ Tree.leavesAll us := View.bare_of_as? hw ▸ Tree.leaves_subset_of_mem hmem
    · cases h
  | quantified =>
    have hexpression := map_bare_expression? htree
    obtain ⟨v, hv, hquantified⟩ := Option.bind_eq_some_iff.mp h
    obtain ⟨w, hw, rfl⟩ := Option.map_eq_some_iff.mp hquantified
    obtain ⟨d, hd, rfl⟩ := List.mem_map.mp ht
    rw [hv, Option.map_some] at hexpression
    have hmem : v.bare ∈ us := List.mem_of_mem_filter (List.mem_of_head? hexpression.symm)
    calc d.bare.leaves
      _ ⊆ w.bare.leaves := View.leaves_subset_of_all hd
      _ ⊆ Tree.leavesAll us := View.bare_of_as? hw ▸ Tree.leaves_subset_of_mem hmem

theorem standsAt_of_one {place : DeclarationPlace} {D : String} {t : Tree}
    (h : OneDeclaration place D t) : StandsAt place D t := by
  have hleaves : t.leaves = words D.toList := by
    rw [h.whole, map_toPair_significantTokens]
  refine ⟨?_, ?_, hleaves⟩
  · intro l hl hinvalid
    have hword : (l.kind, String.ofList l.text) ∈ t.leaves := by
      rw [hleaves]
      exact List.mem_map_of_mem (List.mem_filter.mpr ⟨hl, by rw [hinvalid]; rfl⟩)
    obtain ⟨ts, htree, -⟩ := derives_of_ok rfl h.ok
    have hmem := leaves_of_trees? htree h.tree t (List.mem_singleton_self t) hword
    rw [leaves_of_bare htree] at hmem
    obtain ⟨token, htoken, heq⟩ := List.mem_map.mp hmem
    exact whole_of_ok rfl h.ok token (List.mem_filter.mp htoken).1
      ((congrArg Prod.fst heq).trans hinvalid)
  · cases place with
    | field => exact field_of_ok h.ok h.tree
    | parameter => exact parameter_of_ok h.ok h.tree
    | quantified => exact quantified_of_ok h.ok h.tree

section

variable {place : DeclarationPlace} {Ds : List String} {ts : List Tree}
  (h : List.Forall₂ (StandsAt place) Ds ts)

include h

theorem closed_of_standsAt : ∀ D ∈ Ds, Closed D := by
  induction h with
  | nil => nofun
  | cons hD _ ih => exact List.forall_mem_cons.mpr ⟨hD.closed, ih⟩

theorem derives_of_standsAt : ∀ t ∈ ts, ∃ before, Outside before ∧
    (Form.declarationAt place).Derives place.depth [t] before := by
  induction h with
  | nil => nofun
  | cons hD _ ih => exact List.forall_mem_cons.mpr ⟨hD.derives, ih⟩

theorem isOf_of_standsAt : ∀ t ∈ ts, t.isOf (.only place.node) = true := by
  intro t ht
  obtain ⟨before, -, hderives⟩ := derives_of_standsAt h t ht
  obtain ⟨u, hu, hnode⟩ := Form.isNode_declarationAt.isOf (Form.admits_only place.node) hderives
  rwa [(List.cons.inj hu).1]

/-- The trees have the tokens of the texts. -/
theorem map_kinds_of_standsAt : ts.map (fun t => kinds [t]) = Ds.map kindsOf := by
  induction h with
  | nil => rfl
  | cons hD _ ih =>
    rw [List.map_cons, List.map_cons, ih, kindsOf_eq, kinds, Tree.leavesAll_singleton, hD.leaves]

theorem beside_of_standsAt (hbeside : Ds.IsChain fun D E => Beside place (kindsOf D) (kindsOf E)) :
    ts.IsChain fun t u => Beside place (kinds [t]) (kinds [u]) := by
  rw [← List.isChain_map (R := Beside place) kindsOf, ← map_kinds_of_standsAt h, List.isChain_map] at hbeside
  exact hbeside

end

/-- Of a list and the tokens around it, the declarations are the nodes of their kind. -/
theorem filter_list {d : Category} {ts back : List Tree} (k : TokenKind) (text : String)
    (hts : ∀ t ∈ ts, t.isOf d = true) (hback : back.filter (Tree.isOf d) = []) :
    ([Tree.token k text] ++ Form.argumentTrees ts ++ back).filter (Tree.isOf d) = ts := by
  rw [List.filter_append, hback, List.append_nil, List.filter_append, Form.filter_argumentTrees,
    List.filter_eq_self.mpr hts]
  rfl

/-- The declarations of a list that has been read. -/
theorem trees?_of_listTree {place : DeclarationPlace} {p : Parse} {ts : List Tree}
    (htree : p.tree.bare = .node place.entry.rootKind [listTree place ts])
    (hts : ∀ t ∈ ts, t.isOf (.only place.node) = true) : place.trees? p = some ts := by
  unfold DeclarationPlace.trees?
  cases place with
  | field =>
    obtain ⟨v, hv, hbare⟩ := paragraphs_of_bare htree rfl
    obtain ⟨w, hw, hbare⟩ := View.as?_of_bare (d := .only .sigDecl) hbare rfl
    have hlist : w.parts.filter (Tree.isOf (.only .fieldList)) = [.node .fieldList
        ([.token (.punct .lbrace) "\x7b"] ++ Form.argumentTrees ts
          ++ [.token (.punct .rbrace) "\x7d"])] := by
      rw [(View.kind_of_bare hbare).2]
      rfl
    obtain ⟨l, hl, hlist⟩ := View.first_of_parts hlist
    have hall : (FieldList.fields l).map View.bare = ts := by
      rw [FieldList.fields, View.map_bare_all, (View.kind_of_bare hlist).2]
      exact filter_list _ _ hts rfl
    have hfieldList : SigDecl.fieldList w = some l := hl
    simp only [hv, hw, Option.map_some, SigDecl.fields, hfieldList, Option.getD_some, hall]
  | parameter =>
    obtain ⟨v, hv, hbare⟩ := paragraphs_of_bare htree rfl
    obtain ⟨w, hw, hbare⟩ := View.as?_of_bare (d := .only .predDecl) hbare rfl
    have hlist : w.parts.filter (Tree.isOf (.only .paraDecls)) = [.node .paraDecls
        ([.token (.punct .lbracket) "["] ++ Form.argumentTrees ts
          ++ [.token (.punct .rbracket) "]"])] := by
      rw [(View.kind_of_bare hbare).2]
      rfl
    obtain ⟨l, hl, hlist⟩ := View.first_of_parts hlist
    have hall : (ParaDecls.decls l).map View.bare = ts := by
      rw [ParaDecls.decls, View.map_bare_all, (View.kind_of_bare hlist).2]
      exact filter_list _ _ hts rfl
    have hparams : View.params w = some l := hl
    simp only [hv, hw, Option.bind_some, hparams, Option.map_some, hall]
  | quantified =>
    obtain ⟨v, hv, hbare⟩ := expression?_of_bare htree rfl
    obtain ⟨w, hw, hbare⟩ := View.as?_of_bare (d := .only .quantExpr) hbare rfl
    have hall : w.quantDecls.map View.bare = ts := by
      rw [View.quantDecls, View.map_bare_all, (View.kind_of_bare hbare).2]
      exact filter_list _ _ hts rfl
    simp only [hv, hw, Option.bind_some, Option.map_some, hall]

/-- Texts that are one declaration each, when they are by themselves in a list, are the same
declarations when they are there one behind the other, with commas between them. The type of none
ends with a quantifier and a name that the names of the next one would go on with. -/
theorem declarations_compose {place : DeclarationPlace} {Ds : List String} {ts : List Tree}
    (h : List.Forall₂ (OneDeclaration place) Ds ts) (hne : place = .quantified → Ds ≠ [])
    (hbeside : Ds.IsChain fun D E => Beside place (kindsOf D) (kindsOf E)) :
    let p := place.parse (", ".intercalate (Ds.map (· ++ "\n")))
    p.ok = true ∧ place.trees? p = some ts := by
  intro p
  have hstands : List.Forall₂ (StandsAt place) Ds ts := h.imp fun _ _ => standsAt_of_one
  have hclosed := closed_of_standsAt hstands
  have hleaves : (listTree place ts).leaves
      = place.frontWords ++ (Lexer.commaWords Ds ++ place.backWords) := by
    rw [Form.leaves_listTree, leavesAll_argumentTrees (hstands.imp fun _ _ hD => hD.leaves)]
  have hwords : Tree.leavesAll [listTree place ts]
      = words (place.front ++ ", ".intercalate (Ds.map (· ++ "\n")) ++ place.back).toList := by
    rw [Lexer.words_list place hclosed, Tree.leavesAll_singleton, hleaves]
  have hvalid : ∀ w ∈ Tree.leavesAll [listTree place ts], w.1 ≠ .invalid := by
    have haround : (∀ w ∈ place.frontWords, w.1 ≠ .invalid) ∧
        ∀ w ∈ place.backWords, w.1 ≠ .invalid := by
      cases place <;> decide
    rw [Tree.leavesAll_singleton, hleaves]
    intro w hw
    rw [List.mem_append, List.mem_append] at hw
    exact hw.elim (haround.1 w) fun hw => hw.elim (valid_commaWords hclosed w) (haround.2 w)
  have hcloser : Outside (place.backWords.map (·.1)) := by
    cases place <;> exact ⟨⟨rfl, rfl, rfl⟩, rfl⟩
  have hplaced : Form.InPlace place place.depth (place.backWords.map (·.1)) ts :=
    Form.inPlace_of_isChain hcloser (derives_of_standsAt hstands)
      (beside_of_standsAt hstands hbeside)
  have hderives := Form.derives_listTree hplaced fun hquantified hnil =>
    hne hquantified (List.length_eq_zero_iff.mp (h.length_eq.trans (by rw [hnil]; rfl)))
  obtain ⟨hok, htree⟩ := ok_of_leaves ((map_toPair_significantTokens _).trans hwords.symm) hvalid
    hderives (.inl (Nat.le_refl _))
  exact ⟨hok, trees?_of_listTree htree (isOf_of_standsAt hstands)⟩

/-- The second type ends with a quantifier and a name. Behind the comma is a word, not a name. -/
theorem declarations_compose_field :
    ∃ ts, List.Forall₂ (OneDeclaration .field)
        ["f, g: B -> set C", "h: B -> lone C /* at most one */", "var i: D"] ts ∧
      (["f, g: B -> set C", "h: B -> lone C /* at most one */", "var i: D"].IsChain
        fun D E => Beside .field (kindsOf D) (kindsOf E)) ∧
      (let p := DeclarationPlace.field.parse (", ".intercalate
        (["f, g: B -> set C", "h: B -> lone C /* at most one */", "var i: D"].map (· ++ "\n")))
       p.ok = true ∧ DeclarationPlace.field.trees? p = some ts) := by
  have hone : ∀ D, (DeclarationPlace.field.parse D).ok = true →
      (DeclarationPlace.field.trees? (DeclarationPlace.field.parse D)).map (List.map Tree.leaves)
        = some [(significantTokens D).map Token.toPair] →
      ∃ t, OneDeclaration .field D t := by
    intro D hok htrees
    obtain ⟨ts, hts, hleaves⟩ := Option.map_eq_some_iff.mp htrees
    obtain ⟨t, rfl, ht⟩ := List.map_eq_singleton_iff.mp hleaves
    exact ⟨t, hok, hts, ht⟩
  obtain ⟨t, ht⟩ := hone "f, g: B -> set C" (by rw [DeclarationPlace.parse, ofText_eq]; rfl)
    (by rw [DeclarationPlace.parse, ofText_eq, significantTokens, tokenize_eq]; decide +kernel)
  obtain ⟨u, hu⟩ := hone "h: B -> lone C /* at most one */"
    (by rw [DeclarationPlace.parse, ofText_eq]; decide +kernel)
    (by rw [DeclarationPlace.parse, ofText_eq, significantTokens, tokenize_eq]; decide +kernel)
  obtain ⟨v, hv⟩ := hone "var i: D" (by rw [DeclarationPlace.parse, ofText_eq]; rfl)
    (by rw [DeclarationPlace.parse, ofText_eq, significantTokens, tokenize_eq]; decide +kernel)
  have h : List.Forall₂ (OneDeclaration .field)
      ["f, g: B -> set C", "h: B -> lone C /* at most one */", "var i: D"] [t, u, v] :=
    .cons ht (.cons hu (.cons hv .nil))
  have hbeside : ["f, g: B -> set C", "h: B -> lone C /* at most one */", "var i: D"].IsChain
      fun D E => Beside .field (kindsOf D) (kindsOf E) := by
    have hfirst : ¬ Form.EndsQuantified (Form.typeOf .field (kindsOf "f, g: B -> set C")) := by
      rw [kindsOf, significantTokens, tokenize_eq]
      decide
    have hlast : (kindsOf "var i: D")[0]? ≠ some .ident := by
      rw [kindsOf, significantTokens, tokenize_eq]
      decide
    exact .cons_cons (fun _ => hfirst) (.cons_cons (fun hident => absurd hident hlast) (.singleton _))
  exact ⟨_, h, hbeside, declarations_compose h (fun hplace => absurd hplace (by decide)) hbeside⟩

/-- Of two fields, the type of the first ends with a quantifier and a name, which is read with the
name of the second. -/
theorem fields_quantified :
    let f := DeclarationPlace.field.parse "f: B -> lone C"
    let g := DeclarationPlace.field.parse "g: D"
    (f.ok = true ∧ (DeclarationPlace.field.trees? f).map List.length = some 1) ∧
    (g.ok = true ∧ (DeclarationPlace.field.trees? g).map List.length = some 1) ∧
    (DeclarationPlace.field.parse "f: B -> lone C, g: D").ok = false := by
  refine ⟨⟨?_, ?_⟩, ⟨?_, ?_⟩, ?_⟩ <;> rw [DeclarationPlace.parse, ofText_eq] <;> rfl

end Parse
end RelLang
