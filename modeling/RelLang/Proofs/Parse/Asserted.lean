import Mathlib
import RelLang.Proofs.Parse.Context
import RelLang.Proofs.Parse.Sequence
import RelLang.Proofs.Parse.Unique

/-!
# Expressions are the same in assertions

An assertion does not read its expression as others are read: a block and a quantification with
`all` are read by rules of their own. They make the same tree of an expression, unless it begins
with such a quantification and goes on behind it: then there is no assertion.
-/

namespace RelLang

open Grammar
open RelLang.Tree (kinds)

namespace Form

variable {n level : Nat} {f g : Form} {ts us : List Tree} {t : Tree} {behind ks : List TokenKind}

/-! ### The beginning of an expression -/

/-- What is extended is extended in the same way if it is derived from another form. -/
theorem Derives.withHead (h : Derives n (.extended level f) ts behind)
    (hhead : ∀ us ks, kinds us ++ ks = kinds ts ++ behind → Derives n f us ks → Derives n g us ks) :
    Derives n (.extended level g) ts behind := by
  generalize hform : Form.extended level f = form at h
  induction h with
  | head h =>
    obtain ⟨rfl, rfl⟩ := Form.extended.inj hform
    exact .head (hhead _ _ rfl h)
  | extend front asked tight back ih _ =>
    obtain ⟨rfl, rfl⟩ := Form.extended.inj hform
    refine .extend (ih (fun us ks heq hus => hhead us ks ?_ hus) rfl) asked tight back
    rw [heq, Tree.kinds_node_cons, Tree.kinds_nil, List.append_nil, Tree.kinds_append,
      List.append_assoc]
  | _ => cases hform

/-- There is nothing behind the beginning, or there is an operator. -/
theorem Derives.head_or_operator (h : Derives n (.extended level f) ts behind) :
    Derives n f ts behind ∨ ∃ us vs, Tree.leavesAll ts = Tree.leavesAll us ++ Tree.leavesAll vs ∧
      Derives n f us (kinds vs ++ behind) ∧
      (Operator.extensionOf (kinds vs ++ behind)).isSome = true := by
  generalize hform : Form.extended level f = form at h
  induction h with
  | head h =>
    obtain ⟨rfl, rfl⟩ := Form.extended.inj hform
    exact .inl h
  | @extend _ _ _ ts us _ _ behind _ asked _ _ ih _ =>
    have hleaves : ∀ kind, Tree.leavesAll [.node kind (ts ++ us)]
        = Tree.leavesAll ts ++ Tree.leavesAll us := fun kind => by
      rw [Tree.leavesAll_singleton, Tree.leaves, Tree.leavesAll_append]
    obtain hhead | ⟨us', vs, hsplit, hhead, hnext⟩ := ih hform
    · refine .inr ⟨ts, us, hleaves _, ?_, by rw [asked]; rfl⟩
      obtain ⟨rfl, rfl⟩ := Form.extended.inj hform
      exact hhead
    · refine .inr ⟨us', vs ++ us, ?_, ?_, ?_⟩
      · rw [hleaves, hsplit, Tree.leavesAll_append, List.append_assoc]
      · rwa [Tree.kinds_append, List.append_assoc]
      · rwa [Tree.kinds_append, List.append_assoc]
  | _ => cases hform

/-- No operator is behind a quantification. -/
theorem Derives.head_of_quantExpr (h : Derives n (.extended level f) [t] behind)
    (ht : t.isOf (.only .quantExpr) = true) : Derives n f [t] behind := by
  cases h with
  | head hhead => exact hhead
  | extend _ asked _ _ =>
    obtain ⟨row, hrow, -, rfl, -⟩ := row_of_extensionOf asked
    have hnode : ∀ row ∈ Operator.table, row.node ≠ .quantExpr := by decide
    exact absurd (eq_of_beq ht).symm (hnode row hrow)

/-- No block stands behind a name that begins an expression. -/
theorem not_namedBlockAhead (h : Derives n (.extended level operandHead) ts behind)
    (hbehind : at? (.punct .lbrace) behind = false) : namedBlockAhead (kinds ts ++ behind) = false := by
  obtain ⟨us, vs, hleaves, hhead, hnext⟩ := h.extended_head
  obtain ⟨k, ks, hkinds, -⟩ := begins_operandHead _ _ _ hhead
  have hts : kinds ts ++ behind = k :: (ks ++ (kinds vs ++ behind)) := by
    rw [kinds, hleaves, List.map_append, ← kinds, ← kinds, hkinds, List.cons_append, List.cons_append,
      List.append_assoc]
  refine Bool.eq_false_iff.mpr fun hnamed => ?_
  rw [hts, namedBlockAhead, at?, Bool.and_eq_true, beq_iff_eq, beq_iff_eq] at hnamed
  obtain ⟨hident, hbrace⟩ := hnamed
  obtain rfl : k = .ident := Option.some.inj hident
  rw [List.getElem?_cons_succ] at hbrace
  obtain rfl | hslash := kinds_operandHead_ident hhead hkinds
  · rw [List.nil_append] at hbrace
    obtain hnil | hsome := hnext
    · rw [hnil, List.nil_append] at hbrace
      rw [at?, hbrace] at hbehind
      cases hbehind
    · rw [Operator.extensionOf, hbrace, Option.bind_some,
        Operator.extension?_of_decidedAlone rfl] at hsome
      cases hsome
  · rw [List.getElem?_append_left (List.length_pos_of_ne_nil (by rintro rfl; cases hslash)),
      hslash] at hbrace
    cases hbrace

/-- An expression that begins with a brace, and is no comprehension there, begins with a block. -/
theorem block_of_operandHead (h : Derives n operandHead us ks)
    (hblock : blockAhead (kinds us ++ ks) = true) : Derives n block us ks := by
  have hahead := derives_ahead.mp h
  obtain ⟨hbrace, hdeclaration⟩ := Bool.and_eq_true_iff.mp hblock
  rw [Bool.not_eq_true'] at hdeclaration
  obtain ⟨k, rest, heq, hk, -⟩ := front_of_at? hbrace
  obtain rfl := List.mem_singleton.mp hk
  have hbraced : Derives n (given declarationBehind comprehension block) us ks := by
    rw [heq] at hahead
    exact hahead
  rwa [derives_given, hdeclaration, if_neg Bool.false_ne_true] at hbraced

/-- An expression that begins with `all` begins with declarations and a body. -/
theorem universal_of_operandHead (h : Derives n operandHead us ks)
    (hall : at? (.keyword .allKw) (kinds us ++ ks) = true) :
    universalAhead (kinds us ++ ks) = true ∧
      ∃ vs, us = [.node .quantExpr vs] ∧ Derives n universal vs ks := by
  have hahead := derives_ahead.mp h
  obtain ⟨k, rest, heq, hk, -⟩ := front_of_at? hall
  obtain rfl := List.mem_singleton.mp hk
  have hquantified : Derives n (quantified (.keyword .allKw)) us ks := by
    rw [heq] at hahead
    exact hahead
  obtain ⟨vs, rfl, hvs⟩ := derives_node.mp hquantified
  obtain ⟨word, rest', rfl, hword, hrest⟩ := derives_row_cons.mp hvs
  obtain ⟨decls, body, rfl, hdecls, hbody⟩ := derives_row_cons.mp hrest
  rw [derives_given] at hdecls
  split at hdecls
  · next hdeclaration =>
    refine ⟨?_, _, rfl, derives_row_cons.mpr ⟨word, decls ++ body, rfl, hword,
      derives_row_cons.mpr ⟨decls, body, rfl, hdecls, hbody⟩⟩⟩
    obtain ⟨k, text, -, rfl⟩ := derives_token.mp hword
    rw [universalAhead, hall, Bool.true_and, declarationBehind]
    simpa using hdeclaration
  · exact absurd hdecls not_derives_never

/-! ### Assertions with an expression -/

/-- The tokens `is sat`. -/
def isSatTokens : List Tree := [.token (.keyword .isKw) "is", .token (.keyword .satKw) "sat"]

/-- Their kinds. -/
def isSat : List TokenKind := [.keyword .isKw, .keyword .satKw]

theorem kinds_isSatTokens : kinds isSatTokens = isSat := rfl

/-- What is an expression by itself is one that can be asserted, unless it begins with `all` and is
more than a quantification. -/
theorem derives_asserted (ht : expr.Derives n [t] [])
    (hall : at? (.keyword .allKw) (kinds [t]) = true → t.isOf (.only .quantExpr) = true) :
    (asserted .expression).Derives n [t] isSat := by
  have houtside : Outside isSat := ⟨⟨rfl, rfl, rfl⟩, rfl⟩
  have hexpr : expr.Derives n [t] isSat := ht.outside houtside
  obtain ⟨m, rfl, hm⟩ := derives_part.mp hexpr
  obtain ⟨hus, hstops⟩ := derives_append_look.mp hm
  rw [asserted, derives_given, not_namedBlockAhead hus rfl, if_neg Bool.false_ne_true,
    derives_given]
  split
  · next hblock =>
    have hextended : (Form.extended 0 block).Derives m [t] isSat :=
      hus.withHead fun us ks heq hhead => block_of_operandHead hhead (heq ▸ hblock)
    exact derives_append.mpr ⟨[t], [], rfl, (hextended.then_look hstops).mono (Nat.le_succ m),
      derives_ahead.mpr (derives_yields.mpr ⟨rfl, .nothing⟩)⟩
  rw [derives_given]
  split
  · next hahead =>
    have hfirst : at? (.keyword .allKw) (kinds [t]) = true := by
      obtain ⟨k, ks, hkinds, -⟩ := begins_exprAt 0 _ _ _ ht
      have hall := (Bool.and_eq_true_iff.mp hahead).1
      rwa [hkinds] at hall ⊢
    have hquantified := hall hfirst
    obtain ⟨-, vs, heq, hvs⟩ := universal_of_operandHead (hus.head_of_quantExpr hquantified)
      (Bool.and_eq_true_iff.mp hahead).1
    rw [heq]
    exact ((Derives.node hvs).then_look rfl).mono (Nat.le_succ m)
  · exact derives_yields.mpr ⟨rfl, hexpr⟩

/-- `assert Expr is sat` -/
def satisfiableTree (t : Tree) : Tree :=
  .node .satisfiabilityDecl ([.token (.keyword .assertKw) "assert", t] ++ isSatTokens)

/-- The words are those around the expression. -/
theorem words_satisfiableTree (ht : t.isOf .expr = true) :
    Tree.words ([.token (.keyword .assertKw) "assert", t] ++ isSatTokens)
      = [(.keyword .assertKw, "assert"), (.keyword .isKw, "is"), (.keyword .satKw, "sat")] := by
  cases t with
  | token => cases ht
  | node => rfl

/-- It is the only expression. -/
theorem filter_satisfiableTree (ht : t.isOf .expr = true) :
    ([.token (.keyword .assertKw) "assert", t] ++ isSatTokens).filter (Tree.isOf .expr) = [t] := by
  simp [isSatTokens, Tree.isOf, List.filter_cons_of_pos ht]

theorem derives_satisfiableTree (ht : (asserted .expression).Derives n [t] isSat) :
    (ofEntry .wholeModule).Derives n [satisfiableTree t] [] := by
  have htail : Derives n (token [.keyword .isKw] ++ ofAssertion .satisfiability) isSatTokens [] := by
    refine .one_append (derives_append.mpr ⟨[_], [], rfl, ?_, ?_⟩)
    · exact derives_given.mpr (.token (by decide))
    · exact derives_append.mpr ⟨[], [], rfl, derives_given.mpr .nothing, derives_given.mpr .nothing⟩
  have hassertion : (assertion true).Derives n [satisfiableTree t] [] := by
    refine derives_anyOf.mpr ⟨tagged .expression .satisfiability, by simp, .node ?_⟩
    exact derives_append.mpr ⟨[_, t], [_, _], rfl, ht.one_append, derives_given.mpr htail⟩
  have hparagraph : paragraph.Derives n [satisfiableTree t] [] :=
    derives_ahead.mpr (.left hassertion)
  have hdeclarations : (declarations {}).Derives n [satisfiableTree t] [] :=
    derives_append.mpr ⟨[], [_], rfl, .stop, .left (.round hparagraph .stop)⟩
  exact derives_row_cons.mpr ⟨[], [_], rfl, derives_given.mpr .nothing,
    hdeclarations.then_look rfl⟩

/-! ### Assertions that begin with `all` -/

/-- The word that tells the form of an assertion ends the expression in front of it. -/
theorem extensionOf_of_tagAhead {quantified : Bool} {form : AssertionForm}
    (h : tagAhead quantified form ks = true) : Operator.extensionOf ks = none := by
  obtain ⟨k, rest, rfl, hk, k', rest', rfl, hk', -⟩ := front_of_tagAhead h
  obtain rfl := List.mem_singleton.mp hk
  have hresult : ∀ form, ∀ k ∈ tagKinds form, k ∈ Operator.testResults := by
    intro form
    cases form <;> decide
  simp [Operator.extensionOf, Operator.extension?, Operator.isNegation, Operator.arrowMultiplicities,
    hresult form k' hk']

/-- With declarations behind an `all`, these and their body are what is asserted. -/
theorem universal_of_assertionHead {body : Asserted} (h : (assertionHead body).Derives n ts ks)
    (hahead : universalAhead (kinds ts ++ ks).tail = true) :
    body ≠ .plain ∧ ∃ text us,
      Tree.leavesAll ts = (.keyword .assertKw, text) :: Tree.leavesAll us ∧
      universal.Derives n us ks := by
  obtain ⟨word, vs, rfl, hword, hvs⟩ := derives_append.mp h
  obtain ⟨k, text, hk, rfl⟩ := derives_token.mp hword
  obtain rfl := List.mem_singleton.mp hk
  have hahead : universalAhead (kinds vs ++ ks) = true := by simpa using hahead
  obtain ⟨k, rest, heq, hk, -⟩ := front_of_at? (Bool.and_eq_true_iff.mp hahead).1
  obtain rfl := List.mem_singleton.mp hk
  have hnone : namedBlockAhead (kinds vs ++ ks) = false ∧ blockAhead (kinds vs ++ ks) = false := by
    rw [heq]
    exact ⟨rfl, rfl⟩
  rw [asserted, derives_given, hnone.1, if_neg Bool.false_ne_true, derives_given, hnone.2,
    if_neg Bool.false_ne_true, derives_given, if_pos hahead] at hvs
  cases body with
  | plain => exact absurd hvs not_derives_never
  | expression =>
    obtain ⟨us, rfl, hus⟩ := derives_node.mp (derives_append_look.mp hvs).1
    exact ⟨Asserted.noConfusion, text, us, by simp [Tree.leavesAll, Tree.leaves], hus⟩
  | quantified =>
    exact ⟨Asserted.noConfusion, text, vs, by simp [Tree.leavesAll, Tree.leaves], (derives_append_look.mp hvs).1⟩

/-- Behind these is the word `is`, which is no operator. -/
theorem universal_of_assertion {admitted : Bool} (h : (assertion admitted).Derives n ts ks)
    (hahead : universalAhead (kinds ts ++ ks).tail = true) :
    ∃ text us vs, Tree.leavesAll ts
        = (.keyword .assertKw, text) :: (Tree.leavesAll us ++ Tree.leavesAll vs) ∧
      universal.Derives n us (kinds vs ++ ks) ∧ Operator.extensionOf (kinds vs ++ ks) = none := by
  cases admitted with
  | true =>
    obtain ⟨f, hf, htagged⟩ := derives_anyOf.mp h
    obtain ⟨body, form, rfl⟩ : ∃ body form, f = tagged body form := by
      simp only [List.mem_cons, List.not_mem_nil, or_false] at hf
      rcases hf with rfl | rfl | rfl | rfl
      all_goals exact ⟨_, _, rfl⟩
    obtain ⟨parts, rfl, hparts⟩ := derives_node.mp htagged
    obtain ⟨head, vs, rfl, hhead, hvs⟩ := derives_append.mp hparts
    have hahead : universalAhead (kinds head ++ (kinds vs ++ ks)).tail = true := by
      simpa using hahead
    obtain ⟨-, text, us, hleaves, hus⟩ := universal_of_assertionHead hhead hahead
    refine ⟨text, us, vs, ?_, hus, ?_⟩
    · rw [Tree.leavesAll_singleton, Tree.leaves, Tree.leavesAll_append, hleaves, List.cons_append]
    · rw [derives_given] at hvs
      split at hvs
      · next htag => exact extensionOf_of_tagAhead htag
      · exact absurd hvs not_derives_never
  | false =>
    obtain ⟨parts, rfl, hparts⟩ := derives_node.mp h
    have hahead : universalAhead (kinds parts ++ ks).tail = true := by simpa using hahead
    exact absurd rfl (universal_of_assertionHead hparts hahead).1

/-- An expression that begins with `all` and is no quantification has an operator behind the one that
it begins with. -/
theorem universal_of_goesOn (ht : expr.Derives n [t] [])
    (hall : at? (.keyword .allKw) (kinds [t]) = true) (hnot : t.isOf (.only .quantExpr) = false) :
    universalAhead (kinds [t] ++ isSat) = true ∧
      ∃ us vs, Tree.leavesAll [t] = Tree.leavesAll us ++ Tree.leavesAll vs ∧
        universal.Derives n us (kinds vs ++ isSat) ∧
        (Operator.extensionOf (kinds vs ++ isSat)).isSome = true := by
  have hexpr : expr.Derives n [t] isSat :=
    ht.outside ⟨⟨rfl, rfl, rfl⟩, rfl⟩
  obtain ⟨m, rfl, hm⟩ := derives_part.mp hexpr
  obtain ⟨hus, -⟩ := derives_append_look.mp hm
  have hfirst : at? (.keyword .allKw) (kinds [t] ++ isSat) = true := by
    obtain ⟨k, ks, hkinds, -⟩ := begins_exprAt 0 _ _ _ ht
    rwa [hkinds] at hall ⊢
  obtain hhead | ⟨us, vs, hleaves, hhead, hnext⟩ := hus.head_or_operator
  · obtain ⟨-, parts, hparts, -⟩ := universal_of_operandHead hhead hfirst
    rw [(List.cons.inj hparts).1] at hnot
    cases hnot
  have hkinds : kinds us ++ (kinds vs ++ isSat) = kinds [t] ++ isSat := by
    have hsplit : kinds [t] = kinds us ++ kinds vs := by
      rw [kinds, hleaves, List.map_append, kinds, kinds]
    rw [hsplit, List.append_assoc]
  obtain ⟨hahead, parts, rfl, hparts⟩ := universal_of_operandHead hhead (hkinds ▸ hfirst)
  refine ⟨hkinds ▸ hahead, parts, vs, ?_, hparts.mono (Nat.le_succ m), hnext⟩
  rw [hleaves, Tree.leavesAll_singleton, Tree.leaves]

/-- A module that begins with `assert` begins with an assertion. -/
theorem assertion_of_first (hts : sourceFile.Derives n ts [])
    (hfirst : (kinds ts)[0]? = some (.keyword .assertKw)) :
    ∃ admitted us vs, ts = us ++ vs ∧ (assertion admitted).Derives n us (kinds vs) := by
  have hmany := paragraphs_of_first (by decide) hts hfirst
  obtain rfl | ⟨us, vs, rfl, hparagraph, -⟩ := derives_many.mp hmany
  · cases hfirst
  rw [List.append_nil] at hparagraph
  have hhead := derives_ahead.mp hparagraph
  rw [Tree.kinds_append] at hfirst
  obtain ⟨k, rest, heq, hk, -⟩ := front_of_at? (beq_iff_eq.mpr hfirst)
  obtain rfl := List.mem_singleton.mp hk
  rw [heq] at hhead
  obtain h | h := derives_either.mp hhead
  · exact ⟨true, us, vs, rfl, h⟩
  · exact ⟨false, us, vs, rfl, h⟩

end Form

/-! ### The texts -/

namespace Lexer

theorem words_assert {E : String} (hE : Closed E) : words ("assert " ++ E ++ "\nis sat").toList
    = (.keyword .assertKw, "assert") ::
      (words E.toList ++ [(.keyword .isKw, "is"), (.keyword .satKw, "sat")]) := by
  have hassert : lexemes "assert".toList = [⟨.keyword .assertKw, "assert".toList, []⟩] := by
    rw [lexemes_eq]; rfl
  have hend : words "is sat".toList = [(.keyword .isKw, "is"), (.keyword .satKw, "sat")] := by
    rw [words, lexemes_eq]; rfl
  have htext : ("assert " ++ E ++ "\nis sat").toList
      = "assert".toList ++ ' ' :: (E.toList ++ '\n' :: "is sat".toList) := by
    simp
  rw [htext, words_append_blank hassert rfl, words_append_line hE, hend, String.ofList_toList]

end Lexer

namespace Parse

open Lexer (Closed words)

theorem Alone.kinds {E : String} (hE : Alone E) : kinds [treeOf E] = kindsOf E := by
  rw [kindsOf_eq, Tree.kinds, Tree.leavesAll_singleton, hE.leaves]

/-- The grammar sees every token of the text. -/
theorem Alone.seen {E : String} (hE : Alone E) :
    ∀ k ∈ Tree.kinds [treeOf E], k.isSignificant = true := by
  rw [hE.kinds, kindsOf]
  intro k hk
  obtain ⟨t, ht, rfl⟩ := List.mem_map.mp hk
  have hvalid : t.kind ≠ .invalid := by
    refine hE.valid t.toPair ?_
    rw [← map_toPair_significantTokens]
    exact List.mem_map_of_mem ht
  rw [TokenKind.isSignificant, (List.mem_filter.mp ht).2, Bool.true_and, bne_iff_ne]
  exact hvalid

/-- The text begins with `all`, and is more than a quantification. -/
def GoesOnBehindAll (E : String) : Prop :=
  (kindsOf E)[0]? = some (.keyword .allKw) ∧
    (standAlone? E).any (Tree.isOf (.only .quantExpr)) = false

/-- The tokens of the text, behind `assert` and in front of `is sat`. -/
theorem Alone.words_assert {E : String} (hE : Alone E) :
    words ("assert " ++ E ++ "\nis sat").toList = Tree.leavesAll
      (.token (.keyword .assertKw) "assert" :: ([treeOf E] ++ Form.isSatTokens)) := by
  rw [Lexer.words_assert hE.closed, ← hE.leaves]
  simp [Form.isSatTokens, Tree.leaves, Tree.leavesAll]

/-- No assertion is read of an expression that goes on behind a quantification with `all`. -/
theorem not_ok_of_goesOn {E : String} (hE : Alone E) (hgoes : GoesOnBehindAll E) :
    (ofText {} .wholeModule ("assert " ++ E ++ "\nis sat")).ok ≠ true := by
  intro hok
  obtain ⟨hall, hnot⟩ := hgoes
  rw [hE.stands, Option.any_some] at hnot
  obtain ⟨hahead, us, vs, hleaves, hus, hnext⟩ :=
    Form.universal_of_goesOn hE.derives (by rw [Form.at?, hE.kinds, hall]; rfl) hnot
  obtain ⟨ts, htree, hts⟩ := derives_of_ok rfl hok
  have htokens := leaves_of_bare htree
  rw [map_toPair_significantTokens, hE.words_assert] at htokens
  have hkinds : kinds ts = .keyword .assertKw :: (kinds [treeOf E] ++ Form.isSat) := by
    rw [kinds, htokens, ← kinds, Tree.kinds_token_cons, Tree.kinds_append, Form.kinds_isSatTokens]
  obtain ⟨admitted, first, rest, rfl, hfirst⟩ := Form.assertion_of_first hts (by rw [hkinds]; rfl)
  obtain ⟨text, body, tail, hbody, hbodyDerives, hnone⟩ :=
    Form.universal_of_assertion hfirst (by rw [← Tree.kinds_append, hkinds]; exact hahead)
  -- two quantifications that begin with the same token
  have hsame : Tree.leavesAll (us ++ (vs ++ Form.isSatTokens))
      = Tree.leavesAll (body ++ (tail ++ rest)) := by
    rw [Tree.leavesAll_append, hbody, Tree.leavesAll, Tree.leavesAll_append, hleaves,
      List.cons_append] at htokens
    simpa using (List.cons.inj htokens).2.symm
  have hahead' : kinds (us ++ (vs ++ Form.isSatTokens)) = kinds [treeOf E] ++ Form.isSat := by
    have hsplit : kinds [treeOf E] = kinds us ++ kinds vs := by
      rw [kinds, hleaves, List.map_append, kinds, kinds]
    rw [Tree.kinds_append, Tree.kinds_append, hsplit, List.append_assoc, Form.kinds_isSatTokens]
  have hseen : ∀ k ∈ kinds [treeOf E] ++ Form.isSat, k.isSignificant = true := by
    intro k hk
    obtain hk | hk := List.mem_append.mp hk
    · exact hE.seen k hk
    · obtain rfl | rfl := by simpa [Form.isSat] using hk
      all_goals rfl
  obtain ⟨-, hbehind⟩ := Form.unique_of_reads (fun hr => reads_universal hr) hsame
    (by rwa [hahead']) (by rw [hahead']; exact (Bool.and_eq_true_iff.mp hahead).1)
    (by rwa [Tree.kinds_append]) (by rwa [Tree.kinds_append])
  have hkinds' : kinds vs ++ Form.isSat = kinds tail ++ kinds rest := by
    rw [← Form.kinds_isSatTokens, ← Tree.kinds_append, ← Tree.kinds_append, kinds, hbehind, ← kinds]
  rw [hkinds', hnone] at hnext
  cases hnext

theorem result_of_isTrivia (k : TokenKind) (h : k.isTrivia = true) : TestResult.ofToken? k = none := by
  cases k with
  | keyword => cases h
  | _ => rfl

/-- The assertion of any other expression, and what is asserted is the expression. -/
theorem read_assert {E : String} (hE : Alone E) (hgoes : ¬ GoesOnBehindAll E) :
    let p := ofText {} .wholeModule ("assert " ++ E ++ "\nis sat")
    p.ok = true ∧ ∃ (v : Paragraph) (w : SatisfiabilityDecl), p.paragraphs = [v] ∧
      v.node.as? (.only .satisfiabilityDecl) = some w ∧ w.expected = some .sat ∧
      AsStandAlone w.expr.toList [E] := by
  intro p
  have hwords : Tree.leavesAll [Form.satisfiableTree (treeOf E)]
      = words ("assert " ++ E ++ "\nis sat").toList := by
    rw [hE.words_assert]
    simp [Form.satisfiableTree, Tree.leaves, Tree.leavesAll]
  have hvalid : ∀ w ∈ Tree.leavesAll [Form.satisfiableTree (treeOf E)], w.1 ≠ .invalid := by
    rw [hwords, Lexer.words_assert hE.closed]
    simpa [or_imp, forall_and] using hE.valid
  have hall : Form.at? (.keyword .allKw) (kinds [treeOf E]) = true →
      (treeOf E).isOf (.only .quantExpr) = true := by
    intro hat
    rw [hE.kinds, Form.at?, beq_iff_eq] at hat
    rw [GoesOnBehindAll, hE.stands, Option.any_some, not_and, Bool.not_eq_false] at hgoes
    exact hgoes hat
  obtain ⟨hok, hbare⟩ := ok_of_leaves ((map_toPair_significantTokens _).trans hwords.symm) hvalid
    (Form.derives_satisfiableTree (Form.derives_asserted hE.derives hall)) (.inl (Nat.le_refl _))
  obtain ⟨v, hv, hbare⟩ := paragraphs_of_bare hbare rfl
  obtain ⟨w, hw, hbare⟩ := View.as?_of_bare (d := .only .satisfiabilityDecl) hbare rfl
  have hparts : w.parts.filter (Tree.isOf .expr) = [treeOf E] := by
    rw [(View.kind_of_bare hbare).2, Form.filter_satisfiableTree hE.isExpr]
  obtain ⟨x, hx, htree⟩ := View.first_of_parts hparts
  have hexpected : w.words =
      [(.keyword .assertKw, "assert"), (.keyword .isKw, "is"), (.keyword .satKw, "sat")] := by
    rw [View.words, (View.kind_of_bare hbare).2, Form.words_satisfiableTree hE.isExpr]
  refine ⟨hok, v, w, hv, hw, ?_, ?_⟩
  · rw [View.expected, View.firstMeaning_eq w result_of_isTrivia, hexpected]
    rfl
  · rw [View.expr, hx, AsStandAlone, List.map_singleton, hE.stands, ← htree]
    rfl

/-- A text that is accepted as an expression is accepted where it is asserted to be satisfiable, and
is the same expression there, unless it begins with `all` and is more than the quantification that
begins there: then it is not accepted. -/
theorem asserted_expressions {E : String} (hok : (ofText {} .oneExpression E).ok = true) :
    let p := ofText {} .wholeModule ("assert " ++ E ++ "\nis sat")
    (p.ok = true ↔ ¬ GoesOnBehindAll E) ∧
      (p.ok = true → ∃ (v : Paragraph) (w : SatisfiabilityDecl), p.paragraphs = [v] ∧
        v.node.as? (.only .satisfiabilityDecl) = some w ∧ w.expected = some .sat ∧
        AsStandAlone w.expr.toList [E]) := by
  intro p
  have hE := alone_of_ok hok
  have hiff : p.ok = true ↔ ¬ GoesOnBehindAll E :=
    ⟨fun h hgoes => not_ok_of_goesOn hE hgoes h, fun hgoes => (read_assert hE hgoes).1⟩
  exact ⟨hiff, fun h => (read_assert hE (hiff.mp h)).2⟩

/-- The block is the body of the quantification, and nothing is behind it. -/
theorem asserted_expressions_all :
    (ofText {} .oneExpression "all x: A \x7b some x \x7d").ok = true ∧
    (let p := ofText {} .wholeModule ("assert " ++ "all x: A \x7b some x \x7d" ++ "\nis sat")
     p.ok = true ∧ ∃ (v : Paragraph) (w : SatisfiabilityDecl), p.paragraphs = [v] ∧
        v.node.as? (.only .satisfiabilityDecl) = some w ∧ w.expected = some .sat ∧
        AsStandAlone w.expr.toList ["all x: A \x7b some x \x7d"]) := by
  have hok : (ofText {} .oneExpression "all x: A \x7b some x \x7d").ok = true := by
    rw [ofText_eq]; rfl
  obtain ⟨-, hsame⟩ := asserted_expressions hok
  have haccepted : (ofText {} .wholeModule
      ("assert " ++ "all x: A \x7b some x \x7d" ++ "\nis sat")).ok = true := by
    rw [ofText_eq]; rfl
  exact ⟨hok, haccepted, hsame haccepted⟩

/-- Behind the block the operator is not read: the expression is accepted, and its assertion is not. -/
theorem asserted_all_cut_off :
    ¬ ∀ E : String, (ofText {} .oneExpression E).ok = true →
      (ofText {} .wholeModule ("assert " ++ E ++ "\nis sat")).ok = true := by
  intro h
  have hok : (ofText {} .oneExpression "all x: A \x7b some x \x7d and b").ok = true := by
    rw [ofText_eq]; rfl
  have hnot : (ofText {} .wholeModule
      ("assert " ++ "all x: A \x7b some x \x7d and b" ++ "\nis sat")).ok = false := by
    rw [ofText_eq]; rfl
  rw [h _ hok] at hnot
  cases hnot

end Parse
end RelLang
