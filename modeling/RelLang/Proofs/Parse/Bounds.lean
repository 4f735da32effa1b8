import Mathlib
import RelLang.Proofs.Parse.Context
import RelLang.Proofs.Parse.Sequence
import RelLang.Proofs.Syntax.Apart
import RelLang.Proofs.Token.Brace
import RelLang.View.Declaration

/-!
# Bounds are the same beside others

A text that is a bound by itself, between the braces of an instance, is the same bound
when other bounds are in front of it and behind it. It has to be all that is between
these braces: a text may close them itself and hide the last one in a comment.
-/

namespace RelLang

open Grammar
open RelLang.Tree (kinds)

namespace Form

variable {n : Nat} {f g : Form} {ts : List Tree} {behind : List TokenKind}

/-! ### Bounds one behind the other -/

theorem apart_brace : Apart [.punct .rbrace] := ⟨_, [], rfl, .inr rfl⟩

/-- Bounds, each of which is one in front of the brace. -/
theorem derives_bounds (hts : ∀ t ∈ ts, bound.Derives n [t] [.punct .rbrace]) :
    (many bound).Derives n ts [.punct .rbrace] ∧ Apart (kinds ts ++ [.punct .rbrace]) := by
  induction ts with
  | nil => exact ⟨.stop, apart_brace⟩
  | cons t ts ih =>
    obtain ⟨ht, hrest⟩ := List.forall_mem_cons.mp hts
    obtain ⟨hmany, hapart⟩ := ih hrest
    have hfirst : bound.Derives n [t] (kinds ts ++ [.punct .rbrace]) :=
      stays_bound (C := fun _ => True) apart_brace hapart [t] [] settled_nil (fun _ _ => trivial) ht
    refine ⟨.round hfirst hmany, ?_⟩
    obtain ⟨k, ks, hkinds, hk⟩ := begins_bound _ _ _ ht
    have hsplit : kinds (t :: ts) = kinds [t] ++ kinds ts := Tree.kinds_append [t] ts
    exact ⟨k, ks ++ kinds ts ++ [.punct .rbrace], by rw [hsplit, hkinds]; rfl, .inl hk⟩

/-- `inst i { Bound ... Bound }` -/
def instTree (ts : List Tree) : Tree :=
  .node .instDecl [.token (.keyword .instKw) "inst", .node .name [.token .ident "i"],
    .node .bounds (.token (.punct .lbrace) "\x7b" :: (ts ++ [.token (.punct .rbrace) "\x7d"]))]

theorem derives_instTree (hts : (many bound).Derives n ts [.punct .rbrace]) :
    (ofEntry .wholeModule).Derives n [instTree ts] [] := by
  have hbounds : bounds.Derives n
      [.node .bounds (.token (.punct .lbrace) "\x7b" :: (ts ++ [.token (.punct .rbrace) "\x7d"]))]
      [] := by
    refine .node (derives_append.mpr ⟨[], _, rfl, derives_given.mpr .nothing, ?_⟩)
    exact derives_given.mpr (.one_row (derives_row_cons.mpr ⟨ts, [_], rfl, hts, .one⟩))
  have hinst : instDecl.Derives n [instTree ts] [] := by
    refine .node (.one_row (derives_row_cons.mpr ⟨[_], _, rfl, .node .one, ?_⟩))
    exact derives_row_cons.mpr ⟨[_], [], rfl, hbounds, derives_given.mpr .nothing⟩
  have hparagraph : paragraph.Derives n [instTree ts] [] := derives_ahead.mpr hinst
  have hdeclarations : (declarations {}).Derives n [instTree ts] [] :=
    derives_append.mpr ⟨[], [_], rfl, .stop, .left (.round hparagraph .stop)⟩
  exact derives_row_cons.mpr ⟨[], [_], rfl, derives_given.mpr .nothing,
    hdeclarations.then_look rfl⟩

/-! ### Tokens that a form does not have -/

/-- Nothing that the form derives has a token of the kind. -/
def Lacks (kind : TokenKind) (f : Form) : Prop :=
  ∀ n ts behind, Derives n f ts behind → kind ∉ kinds ts

section Lacks

variable {kind : TokenKind}

theorem lacks_nothing : Lacks kind .nothing := by
  intro n ts behind hts
  obtain rfl := derives_nothing.mp hts
  exact List.not_mem_nil

theorem lacks_token {allowed : List TokenKind} (h : kind ∉ allowed) :
    Lacks kind (.token allowed) := by
  intro n ts behind hts
  obtain ⟨k, text, hk, rfl⟩ := derives_token.mp hts
  exact fun hmem => h (List.mem_singleton.mp hmem ▸ hk)

theorem Lacks.append (hf : Lacks kind f) (hg : Lacks kind g) : Lacks kind (f ++ g) := by
  intro n ts behind hts
  obtain ⟨us, vs, rfl, hus, hvs⟩ := derives_append.mp hts
  rw [Tree.kinds_append, List.mem_append]
  exact not_or.mpr ⟨hf _ _ _ hus, hg _ _ _ hvs⟩

theorem Lacks.node (hf : Lacks kind f) (k : NodeKind) : Lacks kind (.node k f) := by
  intro n ts behind hts
  obtain ⟨us, rfl, hus⟩ := derives_node.mp hts
  simpa using hf _ _ _ hus

theorem Lacks.given {test : List TokenKind → Bool} (hf : Lacks kind f) (hg : Lacks kind g) :
    Lacks kind (given test f g) := by
  intro n ts behind hts
  rw [derives_given] at hts
  split at hts
  · exact hf _ _ _ hts
  · exact hg _ _ _ hts

theorem Lacks.whileAhead {test : List TokenKind → Bool} (hf : Lacks kind f) :
    Lacks kind (whileAhead test f) := by
  have hlook : ∀ test : List TokenKind → Bool, Lacks kind (look test) := fun _ =>
    .given lacks_nothing (lacks_token List.not_mem_nil)
  have hmany : Lacks kind (many (look test ++ f)) := by
    intro n ts behind hts
    refine hts.many_induction (p := fun ts => kind ∉ kinds ts) List.not_mem_nil ?_
    intro us vs hus hvs
    rw [Tree.kinds_append, List.mem_append]
    exact not_or.mpr ⟨((hlook test).append hf) _ _ _ hus, hvs⟩
  exact hmany.append (hlook _)

theorem lacks_scope : Lacks (.punct .rbrace) scope := by
  have hname : Lacks (.punct .rbrace) qualName :=
    (Lacks.append (.given ((lacks_token (by decide)).append (lacks_token (by decide))) lacks_nothing)
      ((lacks_token (by decide)).append
        (.whileAhead ((lacks_token (by decide)).append (lacks_token (by decide)))))).node _
  have hitem : Lacks (.punct .rbrace) typescope :=
    (Lacks.append (.given (lacks_token (by decide)) lacks_nothing)
      ((lacks_token (by decide)).append hname)).node _
  have hitems : Lacks (.punct .rbrace) typescopes :=
    hitem.append (.whileAhead ((lacks_token (by decide)).append hitem))
  exact ((lacks_token (by decide)).append (.given hitems ((lacks_token (by decide)).append
    (.given ((lacks_token (by decide)).append hitems) lacks_nothing)))).node _

end Lacks

/-! ### What an instance consists of -/

/-- If nodes are items that can be told by their kind, one of them is all there are. -/
theorem IsNode.single {test : NodeKind → Prop} {c : Category} (hf : IsNode test f)
    (htest : ∀ kind, test kind → c.admits kind = true) {t : Tree}
    (hts : Derives n (.many f) ts behind) (h : ts.filter (Tree.isOf c) = [t]) :
    ts = [t] ∧ Derives n f [t] behind := by
  have hall : ∀ u ∈ ts, u.isOf c = true := by
    refine hts.many_induction (p := fun ts => ∀ u ∈ ts, u.isOf c = true) nofun ?_
    intro us vs hus ih
    obtain ⟨kind, us, rfl, hkind⟩ := hf _ _ _ hus
    exact List.forall_mem_cons.mpr ⟨htest kind hkind, ih⟩
  obtain rfl : ts = [t] := (List.filter_eq_self.mpr hall).symm.trans h
  refine ⟨rfl, ?_⟩
  obtain hnil | ⟨us, vs, hsplit, hus, hvs⟩ := derives_many.mp hts
  · cases hnil
  obtain ⟨kind, us, rfl, -⟩ := hf _ _ _ hus
  obtain ⟨rfl, rfl⟩ := List.cons.inj hsplit
  exact hus

/-- A module that begins with a paragraph and has one has nothing else. -/
theorem only_paragraph {k : TokenKind} {t : Tree}
    (hk : k ∉ [.keyword .moduleKw, .keyword .openKw, .keyword .evalKw])
    (hts : sourceFile.Derives n ts []) (hfirst : (kinds ts)[0]? = some k)
    (hone : ts.filter (Tree.isOf .paragraph) = [t]) : ts = [t] ∧ paragraph.Derives n [t] [] :=
  isNode_paragraph.single (fun _ hkind => (Bool.and_eq_true_iff.mp hkind).1)
    (paragraphs_of_first hk hts hfirst) hone

/-- An instance with a brace behind its name and a brace at its end has bounds in these braces. -/
theorem parts_of_inst {ks : List TokenKind} (hts : instDecl.Derives n ts [])
    (hkinds : kinds ts = .keyword .instKw :: .ident :: .punct .lbrace :: ks)
    (hlast : ks.getLast? = some (.punct .rbrace)) :
    ∃ a b c d us, ts = [.node .instDecl [.token (.keyword .instKw) a,
        .node .name [.token .ident b],
        .node .bounds (.token (.punct .lbrace) c :: (us ++ [.token (.punct .rbrace) d]))]] ∧
      (many bound).Derives n us [.punct .rbrace] := by
  obtain ⟨parts, rfl, hparts⟩ := derives_node.mp hts
  obtain ⟨word, named, rfl, hword, hnamed⟩ := derives_row_cons.mp hparts
  obtain ⟨_, a, hmem, rfl⟩ := derives_token.mp hword
  obtain rfl := List.mem_singleton.mp hmem
  obtain ⟨name, rest, rfl, hname, hrest⟩ := derives_row_cons.mp hnamed
  obtain ⟨name, rfl, hident⟩ := derives_node.mp hname
  obtain ⟨_, b, hmem, rfl⟩ := derives_token.mp hident
  obtain rfl := List.mem_singleton.mp hmem
  obtain ⟨bounds, scope, rfl, hbounds, hscope⟩ := derives_row_cons.mp hrest
  obtain ⟨bounds, rfl, hinside⟩ := derives_node.mp hbounds
  have hopen : kinds bounds ++ kinds scope = .punct .lbrace :: ks := by simpa using hkinds
  -- no scope ends with a brace
  obtain rfl : scope = [] := by
    have hend : (kinds bounds ++ kinds scope).getLast? = some (.punct .rbrace) := by
      rw [hopen, List.getLast?_cons, hlast, Option.getD_some]
    rw [row, ifAhead, derives_given] at hscope
    split at hscope
    · have hlacks := lacks_scope _ _ _ hscope
      have hfirst : BeginsWith (.keyword .forKw) Form.scope :=
        ((beginsWith_token _).append _).node _
      rw [List.getLast?_append_of_ne_nil _ (hfirst.kinds_ne_nil hscope)] at hend
      exact absurd (List.mem_of_getLast? hend) hlacks
    · exact derives_nothing.mp hscope
  -- what begins with a brace has no `exactly` in front of it, and is no name
  rw [Tree.kinds_nil, List.append_nil] at hopen
  obtain ⟨front, body, rfl, hexactly, hbody⟩ := derives_append.mp hinside
  have hnothing : at? (.keyword .exactlyKw) (kinds (front ++ body)) = false := by
    rw [hopen]
    rfl
  rw [optional, ifAhead, derives_given, Tree.kinds_nil, List.append_nil, ← List.append_assoc,
    ← Tree.kinds_append, List.append_nil, hnothing] at hexactly
  obtain rfl := derives_nothing.mp hexactly
  rw [List.nil_append] at hopen ⊢
  rw [derives_given, Tree.kinds_nil, List.append_nil, List.append_nil, hopen] at hbody
  obtain ⟨opener, closed, rfl, hopener, hclosed⟩ := derives_row_cons.mp hbody
  obtain ⟨_, c, hmem, rfl⟩ := derives_token.mp hopener
  obtain rfl := List.mem_singleton.mp hmem
  obtain ⟨items, closer, rfl, hitems, hcloser⟩ := derives_row_cons.mp hclosed
  obtain ⟨_, d, hmem, rfl⟩ := derives_token.mp hcloser
  obtain rfl := List.mem_singleton.mp hmem
  exact ⟨a, b, c, d, items, rfl, hitems⟩

end Form

/-! ### The texts -/

namespace Lexer

theorem lexemes_inst : lexemes "inst".toList = [⟨.keyword .instKw, "inst".toList, []⟩] ∧
    lexemes ['i'] = [⟨.ident, ['i'], []⟩] ∧
    lexemes ['\x7b'] = [⟨.punct .lbrace, ['\x7b'], []⟩] := by
  refine ⟨?_, ?_, ?_⟩ <;> rw [lexemes_eq] <;> rfl

/-- The words of an instance with some text in its braces. -/
theorem words_inst (cs : List Char) :
    words ("inst".toList ++ ' ' :: (['i'] ++ ' ' :: (['\x7b'] ++ ' ' :: cs)))
      = (.keyword .instKw, "inst") :: (.ident, "i") :: (.punct .lbrace, "\x7b") :: words cs := by
  obtain ⟨hword, hname, hopen⟩ := lexemes_inst
  rw [words_append_blank hword rfl, words_append_blank hname rfl, words_append_blank hopen rfl]
  rfl

theorem words_instLines {Bs : List String} (hBs : ∀ B ∈ Bs, Closed B) :
    words ("inst i \x7b " ++ String.join (Bs.map (· ++ "\n")) ++ "\x7d").toList
      = (.keyword .instKw, "inst") :: (.ident, "i") :: (.punct .lbrace, "\x7b") ::
        (Bs.flatMap (fun B => words B.toList) ++ [(.punct .rbrace, "\x7d")]) := by
  have hclose : words ['\x7d'] = [(.punct .rbrace, "\x7d")] := by rw [words, lexemes_eq]; rfl
  have htext : ("inst i \x7b " ++ String.join (Bs.map (· ++ "\n")) ++ "\x7d").toList
      = "inst".toList ++ ' ' :: (['i'] ++ ' ' :: (['\x7b'] ++ ' ' ::
        ((String.join (Bs.map (· ++ "\n"))).toList ++ ['\x7d']))) := by
    simp
  rw [htext, words_inst, words_lines hBs, hclose]

/-- The tokens of a text in braces, if the last brace is a token. -/
theorem words_instSingle {B : String} (h : EndsInBrace ("inst i \x7b " ++ B ++ " \x7d").toList) :
    Closed B ∧ words ("inst i \x7b " ++ B ++ " \x7d").toList
      = (.keyword .instKw, "inst") :: (.ident, "i") :: (.punct .lbrace, "\x7b") ::
        (words B.toList ++ [(.punct .rbrace, "\x7d")]) := by
  obtain ⟨hword, hname, hopen⟩ := lexemes_inst
  have htext : ("inst i \x7b " ++ B ++ " \x7d").toList
      = "inst".toList ++ ' ' :: (['i'] ++ ' ' :: (['\x7b'] ++ ' ' :: (B.toList ++ [' ', '\x7d']))) := by
    simp
  rw [htext] at h ⊢
  obtain ⟨hclosed, hwords⟩ :=
    (((h.of_word hword rfl).of_word hname rfl).of_word hopen rfl).words_eq
  exact ⟨hclosed, by rw [words_inst, hwords]⟩

end Lexer

namespace Parse

open Lexer (Closed EndsInBrace words)

/-- The bounds of an instance that is the only paragraph of a module, without trivia. -/
def boundTrees? (p : Parse) : Option (List Tree) :=
  match p.paragraphs with
  | [v] => (v.node.as? (.only .instDecl)).bind fun w : InstDecl =>
    w.bounds.map fun b => b.bounds.map View.bare
  | _ => none

/-- In the braces of an instance the text is one bound, and the last brace is that of the
instance. -/
structure OneBound (B : String) (t : Tree) : Prop where
  ok : (ofText {} .wholeModule ("inst i \x7b " ++ B ++ " \x7d")).ok = true
  bound : (ofText {} .wholeModule ("inst i \x7b " ++ B ++ " \x7d")).boundTrees? = some [t]
  closed : (tokenize ("inst i \x7b " ++ B ++ " \x7d")).getLast?.map (·.kind)
    = some (.punct .rbrace)

/-- What is known of a text that is a bound by itself. -/
structure Stands (B : String) (t : Tree) : Prop where
  closed : Closed B
  derives : Form.bound.Derives nestingLimit [t] [.punct .rbrace]
  isBound : t.isOf (.only .bound) = true
  leaves : t.leaves = words B.toList
  valid : ∀ w ∈ words B.toList, w.1 ≠ .invalid

/-- The last token of a text is the last one that is scanned. -/
theorem endsInBrace_of_tokens {text : String} (hvalid : ∀ t ∈ tokenize text, t.kind ≠ .invalid)
    (hlast : (tokenize text).getLast?.map (·.kind) = some (.punct .rbrace)) :
    EndsInBrace text.toList := by
  refine ⟨Lexer.ne_invalid_of_tokenize hvalid, ?_⟩
  rw [← List.getLast?_map, ← Lexer.map_kind_place 0, List.getLast?_map]
  exact hlast

/-- The bounds of the only instance of a module are those of its tree. -/
theorem bounds_of_boundTrees? {p : Parse} {ts us : List Tree}
    (hbare : p.tree.bare = .node .sourceFile ts) (h : p.boundTrees? = some us) :
    ∃ parts bounds, ts.filter (Tree.isOf .paragraph) = [.node .instDecl parts] ∧
      (parts.filter (Tree.isOf (.only .bounds))).head? = some (.node .bounds bounds) ∧
      bounds.filter (Tree.isOf (.only .bound)) = us := by
  unfold boundTrees? at h
  split at h
  · next v hv =>
    obtain ⟨w, hw, hbounds⟩ := Option.bind_eq_some_iff.mp h
    obtain ⟨b, hb, rfl⟩ := Option.map_eq_some_iff.mp hbounds
    refine ⟨w.parts, b.parts, paragraph_of_bare hbare hv hw, ?_,
      (b.map_bare_all (.only .bound)).symm⟩
    rw [← w.map_bare_first (.only .bounds), ← b.bare_only]
    exact Option.map_eq_some_iff.mpr ⟨b, hb, rfl⟩
  · cases h

theorem stands_of_oneBound {B : String} {t : Tree} (h : OneBound B t) : Stands B t := by
  have hvalid := whole_of_ok rfl h.ok
  obtain ⟨hclosed, hwords⟩ := Lexer.words_instSingle (endsInBrace_of_tokens hvalid h.closed)
  obtain ⟨ts, htree, hts⟩ := derives_of_ok rfl h.ok
  obtain ⟨parts, bounds, hparagraph, hbounds, hone⟩ := bounds_of_boundTrees? htree h.bound
  have hleaves := leaves_of_bare htree
  rw [map_toPair_significantTokens, hwords] at hleaves
  have hkinds : kinds ts = .keyword .instKw :: .ident :: .punct .lbrace ::
      ((words B.toList).map (·.1) ++ [.punct .rbrace]) := by
    rw [kinds, hleaves]
    simp
  have hfirst : (kinds ts)[0]? = some (.keyword .instKw) := by rw [hkinds]; rfl
  obtain ⟨rfl, hinst⟩ := Form.only_paragraph (by decide) hts hfirst hparagraph
  have hstart := Form.derives_ahead.mp hinst
  rw [hkinds] at hstart
  obtain ⟨a, b, c, d, us, heq, hus⟩ := Form.parts_of_inst hstart hkinds (by simp)
  obtain rfl := (Tree.node.inj (List.cons.inj heq).1).2
  obtain ⟨-, rfl⟩ := Tree.node.inj (Option.some.inj hbounds)
  have hnode : Form.IsNode (· = .bound) Form.bound := Form.isNode_node rfl
  have hfilter : us.filter (Tree.isOf (.only .bound)) = [t] := by
    simpa [Tree.isOf] using hone
  have hadmits : ∀ kind, kind = .bound → (Category.only .bound).admits kind = true :=
    fun _ hkind => beq_iff_eq.mpr hkind.symm
  obtain ⟨rfl, ht⟩ := hnode.single hadmits hus hfilter
  refine ⟨hclosed, ht, ?_, ?_, valid_of_closed hclosed⟩
  · obtain ⟨kind, children, heq, hkind⟩ := hnode _ _ _ ht
    obtain rfl := (List.cons.inj heq).1
    exact beq_iff_eq.mpr hkind.symm
  · have hcut : (Tree.leaves t) ++ [(.punct .rbrace, d)]
        = words B.toList ++ [(.punct .rbrace, "\x7d")] := by
      simpa [Tree.leavesAll, Tree.leaves] using (List.cons.inj (List.cons.inj
        (List.cons.inj hleaves).2).2).2
    exact (List.append_inj' hcut rfl).1

section Stands

variable {Bs : List String} {ts : List Tree} (h : List.Forall₂ Stands Bs ts)

include h

theorem closed_of_stands : ∀ B ∈ Bs, Closed B := by
  induction h with
  | nil => nofun
  | cons hB _ ih => exact List.forall_mem_cons.mpr ⟨hB.closed, ih⟩

theorem derives_of_stands : ∀ t ∈ ts, Form.bound.Derives nestingLimit [t] [.punct .rbrace] := by
  induction h with
  | nil => nofun
  | cons hB _ ih => exact List.forall_mem_cons.mpr ⟨hB.derives, ih⟩

theorem filter_of_stands : ts.filter (Tree.isOf (.only .bound)) = ts := by
  induction h with
  | nil => rfl
  | cons hB _ ih => rw [List.filter_cons_of_pos hB.isBound, ih]

theorem leavesAll_of_stands : Tree.leavesAll ts = Bs.flatMap fun B => words B.toList := by
  induction h with
  | nil => rfl
  | cons hB _ ih => rw [Tree.leavesAll, hB.leaves, ih, List.flatMap_cons]

theorem valid_of_stands : ∀ w ∈ Tree.leavesAll ts, w.1 ≠ .invalid := by
  rw [leavesAll_of_stands h]
  exact valid_words (closed_of_stands h)

end Stands

/-- Texts that are one bound each, when they are by themselves in the braces of an instance, are
the same bounds when they are there one behind the other, each on its line. The braces have to be
those of the instance. -/
theorem bounds_compose {Bs : List String} {ts : List Tree} (h : List.Forall₂ OneBound Bs ts) :
    let p := ofText {} .wholeModule ("inst i \x7b " ++ String.join (Bs.map (· ++ "\n")) ++ "\x7d")
    p.ok = true ∧ p.boundTrees? = some ts := by
  intro p
  have hstands : List.Forall₂ Stands Bs ts := h.imp fun _ _ => stands_of_oneBound
  have hwords : Tree.leavesAll [Form.instTree ts]
      = words ("inst i \x7b " ++ String.join (Bs.map (· ++ "\n")) ++ "\x7d").toList := by
    rw [Lexer.words_instLines (closed_of_stands hstands), ← leavesAll_of_stands hstands]
    simp [Form.instTree, Tree.leaves, Tree.leavesAll]
  have hvalid : ∀ w ∈ Tree.leavesAll [Form.instTree ts], w.1 ≠ .invalid := by
    simpa [Form.instTree, Tree.leaves, Tree.leavesAll, or_imp, forall_and]
      using valid_of_stands hstands
  obtain ⟨hmany, -⟩ := Form.derives_bounds (derives_of_stands hstands)
  obtain ⟨hok, hbare⟩ := ok_of_leaves ((map_toPair_significantTokens _).trans hwords.symm) hvalid
    (Form.derives_instTree hmany) (.inl (Nat.le_refl _))
  refine ⟨hok, ?_⟩
  obtain ⟨v, hv, hbare⟩ := paragraphs_of_bare hbare rfl
  obtain ⟨w, hw, hbare⟩ := View.as?_of_bare (d := .only .instDecl) hbare rfl
  have hparts : w.parts.filter (Tree.isOf (.only .bounds)) = [.node .bounds
      (.token (.punct .lbrace) "\x7b" :: (ts ++ [.token (.punct .rbrace) "\x7d"]))] := by
    rw [(View.kind_of_bare hbare).2]
    rfl
  obtain ⟨b, hb, hbare⟩ := View.first_of_parts hparts
  have hall : (Bounds.bounds b).map View.bare = ts := by
    rw [Bounds.bounds, View.map_bare_all, (View.kind_of_bare hbare).2]
    simpa [Tree.isOf] using filter_of_stands hstands
  rw [boundTrees?, hv]
  simp only [hw, Option.bind_some]
  rw [View.bounds, hb, Option.map_some, hall]

/-- The product that ends with `c` does not take `d` in, which is a bound of its own. -/
theorem bounds_compose_names :
    ∃ ts, List.Forall₂ OneBound ["r = a->b + c", "d", "#s = 3 /* at most */"] ts ∧
      (let p := ofText {} .wholeModule ("inst i \x7b " ++
        String.join (["r = a->b + c", "d", "#s = 3 /* at most */"].map (· ++ "\n")) ++ "\x7d")
       p.ok = true ∧ p.boundTrees? = some ts) := by
  have hone : ∀ B, (ofText {} .wholeModule ("inst i \x7b " ++ B ++ " \x7d")).ok = true →
      (ofText {} .wholeModule ("inst i \x7b " ++ B ++ " \x7d")).boundTrees?.map List.length
        = some 1 →
      (tokenize ("inst i \x7b " ++ B ++ " \x7d")).getLast?.map (·.kind) = some (.punct .rbrace) →
      ∃ t, OneBound B t := by
    intro B hok hbound hlast
    obtain ⟨ts, hts, hlength⟩ := Option.map_eq_some_iff.mp hbound
    obtain ⟨t, rfl⟩ := List.length_eq_one_iff.mp hlength
    exact ⟨t, hok, hts, hlast⟩
  obtain ⟨t, ht⟩ := hone "r = a->b + c" (by rw [ofText_eq]; rfl) (by rw [ofText_eq]; rfl)
    (by rw [tokenize_eq]; rfl)
  obtain ⟨u, hu⟩ := hone "d" (by rw [ofText_eq]; rfl) (by rw [ofText_eq]; rfl)
    (by rw [tokenize_eq]; rfl)
  obtain ⟨v, hv⟩ := hone "#s = 3 /* at most */" (by rw [ofText_eq]; rfl) (by rw [ofText_eq]; rfl)
    (by rw [tokenize_eq]; rfl)
  have h : List.Forall₂ OneBound ["r = a->b + c", "d", "#s = 3 /* at most */"] [t, u, v] :=
    .cons ht (.cons hu (.cons hv .nil))
  exact ⟨_, h, bounds_compose h⟩

/-- In the braces of an instance the text is accepted with one bound, but closes these braces
itself and hides the last one. With it nothing is accepted. -/
theorem brace_in_comment :
    let p := ofText {} .wholeModule ("inst i \x7b " ++ "a \x7d --" ++ " \x7d")
    (p.ok = true ∧ p.boundTrees?.map List.length = some 1) ∧
    (ofText {} .wholeModule
      ("inst i \x7b " ++ String.join (["a \x7d --"].map (· ++ "\n")) ++ "\x7d")).ok = false := by
  refine ⟨⟨?_, ?_⟩, ?_⟩ <;> rw [ofText_eq] <;> rfl

end Parse
end RelLang
