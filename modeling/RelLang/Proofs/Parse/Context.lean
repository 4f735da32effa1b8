import Mathlib
import RelLang.Proofs.Parse.Chain
import RelLang.Proofs.Syntax.Whole
import RelLang.Proofs.Token.Spacing
import RelLang.Proofs.View.Bare
import RelLang.View.Declaration

/-!
# Expressions are the same in every context

A text that is an expression by itself is the same expression in parentheses, among
the arguments in brackets, behind `eval` and in the block of a predicate.
-/

namespace RelLang

open Grammar
open RelLang.Tree (kinds)

namespace Form

variable {n : Nat}

/-! ### Expressions with others behind them -/

/-- Expressions one behind the other, none of which begins with a minus, except for the first. -/
theorem derives_exprs {ts : List Tree} (hts : ∀ t ∈ ts, expr.Derives n [t] [])
    (hminus : ∀ t ∈ ts.tail, at? (.punct .minus) (kinds [t]) = false) (behind : List TokenKind) :
    (many expr).Derives n ts (.punct .rbrace :: behind) ∧
      ((∀ t ∈ ts, at? (.punct .minus) (kinds [t]) = false) →
        Outside (kinds ts ++ .punct .rbrace :: behind)) := by
  induction ts with
  | nil => exact ⟨.stop, fun _ => .closer (by decide) behind⟩
  | cons t ts ih =>
    obtain ⟨ht, hrest⟩ := List.forall_mem_cons.mp hts
    have hinner : ∀ u ∈ ts.tail, at? (.punct .minus) (kinds [u]) = false := fun u hu =>
      hminus u (List.mem_of_mem_tail hu)
    obtain ⟨hmany, houtside⟩ := ih hrest hinner
    have hfirst : expr.Derives n [t] (kinds ts ++ .punct .rbrace :: behind) :=
      ht.outside (houtside hminus)
    refine ⟨.round hfirst hmany, fun hall => ?_⟩
    have hnot := hall t List.mem_cons_self
    obtain ⟨k, ks, hkinds, -⟩ := begins_exprAt 0 _ _ _ ht
    have hsplit : kinds (t :: ts) = kinds [t] ++ kinds ts := Tree.kinds_append [t] ts
    rw [hsplit, List.append_assoc]
    refine .expression hfirst ?_
    rw [hkinds] at hnot ⊢
    exact hnot

/-- Trees with commas in front of them. -/
def commaTrees (ts : List Tree) : List Tree :=
  ts.flatMap fun t => [.token (.punct .comma) ",", t]

theorem kinds_commaTrees_cons (t : Tree) (ts : List Tree) :
    kinds (commaTrees (t :: ts)) = .punct .comma :: (kinds [t] ++ kinds (commaTrees ts)) := by
  have hsplit : commaTrees (t :: ts) = [.token (.punct .comma) ",", t] ++ commaTrees ts := rfl
  rw [hsplit, Tree.kinds_append, Tree.kinds_token_cons, List.cons_append]

/-- Expressions behind commas. -/
theorem derives_commaExprs {ts : List Tree} (hts : ∀ t ∈ ts, expr.Derives n [t] [])
    (behind : List TokenKind) :
    (many (look (at? (.punct .comma)) ++ (token [.punct .comma] ++ expr))).Derives n
        (commaTrees ts) (.punct .rbracket :: behind) ∧
      Outside (kinds (commaTrees ts) ++ .punct .rbracket :: behind) := by
  induction ts with
  | nil => exact ⟨.stop, .closer (by decide) behind⟩
  | cons t ts ih =>
    obtain ⟨ht, hrest⟩ := List.forall_mem_cons.mp hts
    obtain ⟨hmany, houtside⟩ := ih hrest
    have hfirst : expr.Derives n [t] (kinds (commaTrees ts) ++ .punct .rbracket :: behind) :=
      ht.outside houtside
    have hsplit : commaTrees (t :: ts) = [.token (.punct .comma) ",", t] ++ commaTrees ts := rfl
    constructor
    · rw [hsplit]
      refine .round (derives_look_append.mpr ⟨rfl, ?_⟩) hmany
      exact hfirst.one_append
    · rw [kinds_commaTrees_cons, List.cons_append, List.append_assoc]
      exact .comma hfirst houtside

/-- Expressions with commas between them. -/
def argumentTrees : List Tree → List Tree
  | [] => []
  | t :: ts => t :: commaTrees ts

/-- The commas are no nodes. -/
theorem filter_argumentTrees (d : Category) (ts : List Tree) :
    (argumentTrees ts).filter (Tree.isOf d) = ts.filter (Tree.isOf d) := by
  have hcommas : ∀ ts : List Tree,
      (commaTrees ts).filter (Tree.isOf d) = ts.filter (Tree.isOf d) := by
    intro ts
    induction ts with
    | nil => rfl
    | cons t ts ih =>
      have hsplit : commaTrees (t :: ts) = [.token (.punct .comma) ",", t] ++ commaTrees ts := rfl
      rw [hsplit, List.filter_append, ih, List.filter_cons_of_neg (by simp [Tree.isOf]),
        ← List.filter_append, List.singleton_append]
  cases ts with
  | nil => rfl
  | cons t ts => rw [argumentTrees, List.filter_cons, hcommas, ← List.filter_cons]

theorem derives_arguments {ts : List Tree} (hts : ∀ t ∈ ts, expr.Derives n [t] [])
    (behind : List TokenKind) :
    arguments.Derives n [.node .exprList (argumentTrees ts)] (.punct .rbracket :: behind) := by
  refine .node ?_
  cases ts with
  | nil => exact .left .nothing
  | cons t ts =>
    obtain ⟨ht, hrest⟩ := List.forall_mem_cons.mp hts
    obtain ⟨hmany, houtside⟩ := derives_commaExprs hrest behind
    refine .right (derives_append.mpr ⟨[t], commaTrees ts, rfl, ?_, ?_⟩)
    · exact ht.outside houtside
    · exact hmany.then_stop rfl

/-! ### Texts around expressions -/

/-- `( Expr )` -/
def parenTree (t : Tree) : Tree :=
  .node .parenExpr [.token (.punct .lparen) "(", t, .token (.punct .rparen) ")"]

/-- What is an expression by itself is an operand in parentheses. -/
theorem derives_parenHead {t : Tree} (ht : expr.Derives n [t] []) (ks : List TokenKind) :
    operandHead.Derives n [parenTree t] ks := by
  have hinner : expr.Derives n [t] (.punct .rparen :: ks) :=
    ht.outside (.closer (by decide) ks)
  exact derives_ahead.mpr (.node (.one_row (derives_row_cons.mpr ⟨[t], [_], rfl, hinner, .one⟩)))

theorem derives_parenTree {t : Tree} (ht : expr.Derives n [t] []) :
    (ofEntry .oneExpression).Derives (n + 1) [parenTree t] [] := by
  have hexpr : (expression 0).Derives n [parenTree t] [] :=
    .then_look (.head (derives_parenHead ht [])) rfl
  exact .then_look (.part hexpr) rfl

/-- `f [ Expr , ... , Expr ]` -/
def boxTree (ts : List Tree) : Tree :=
  .node .boxJoinExpr [.node .nameRef [.node .qualName [.token .ident "f"]],
    .token (.punct .lbracket) "[", .node .exprList (argumentTrees ts),
    .token (.punct .rbracket) "]"]

theorem derives_boxTree {ts : List Tree} (hts : ∀ t ∈ ts, expr.Derives n [t] []) :
    (ofEntry .oneExpression).Derives (n + 1) [boxTree ts] [] := by
  have hname : operandHead.Derives n [.node .nameRef [.node .qualName [.token .ident "f"]]]
      (kinds [.token (.punct .lbracket) "[", .node .exprList (argumentTrees ts),
        .token (.punct .rbracket) "]"] ++ []) :=
    derives_ahead.mpr (.node (Chain.derives_name fun k hk => Option.some.inj hk ▸ rfl))
  have htail : (tail (.punct .lbracket) ⟨.boxJoinExpr, 16, none, false⟩).Derives n
      [.token (.punct .lbracket) "[", .node .exprList (argumentTrees ts),
        .token (.punct .rbracket) "]"] [] :=
    .one_row (derives_row_cons.mpr ⟨[_], [_], rfl, derives_arguments hts [], .one⟩)
  have hextended : (extended 0 operandHead).Derives n [boxTree ts] [] :=
    .extend (.head hname) rfl (Nat.zero_le _) htail
  have hexpr : (expression 0).Derives n [boxTree ts] [] :=
    hextended.then_look rfl
  exact .then_look (.part hexpr) rfl

/-- `eval Expr` -/
def evalTree (t : Tree) : Tree := .node .evalDecl [.token (.keyword .evalKw) "eval", t]

theorem derives_evalTree {t : Tree} (ht : expr.Derives n [t] []) :
    (ofEntry .wholeModule).Derives n [evalTree t] [] := by
  have heval : evalDecl.Derives n [evalTree t] [] :=
    .node ht.one_append
  have hdeclarations : (declarations {}).Derives n [evalTree t] [] :=
    derives_append.mpr ⟨[], [_], rfl, .stop,
      .right (derives_append.mpr ⟨[_], [], rfl, heval, .stop⟩)⟩
  exact derives_row_cons.mpr ⟨[], [_], rfl, derives_given.mpr .nothing,
    hdeclarations.then_look rfl⟩

/-- `pred p { Expr ... Expr }` -/
def predTree (ts : List Tree) : Tree :=
  .node .predDecl [.token (.keyword .predKw) "pred", .node .name [.token .ident "p"],
    .node .block ([.token (.punct .lbrace) "\x7b"] ++ ts ++ [.token (.punct .rbrace) "\x7d"])]

theorem derives_predTree {ts : List Tree} (hts : ∀ t ∈ ts, expr.Derives n [t] [])
    (hminus : ∀ t ∈ ts.tail, at? (.punct .minus) (kinds [t]) = false) :
    (ofEntry .wholeModule).Derives n [predTree ts] [] := by
  have hblock : block.Derives n
      [.node .block ([.token (.punct .lbrace) "\x7b"] ++ ts ++ [.token (.punct .rbrace) "\x7d"])] [] := by
    refine .node (.one_row (derives_row_cons.mpr ⟨ts, [_], rfl, ?_, .one⟩))
    exact (derives_exprs hts hminus []).1
  have hpred : predDecl.Derives n [predTree ts] [] := by
    refine .node (.one_row (derives_row_cons.mpr ⟨[], _, rfl, derives_given.mpr .nothing, ?_⟩))
    refine derives_row_cons.mpr ⟨[], _, rfl, derives_given.mpr .nothing, ?_⟩
    refine derives_row_cons.mpr ⟨[_], _, rfl, .node .one, ?_⟩
    exact derives_row_cons.mpr ⟨[], [_], rfl, derives_given.mpr .nothing, hblock⟩
  have hparagraph : paragraph.Derives n [predTree ts] [] := derives_ahead.mpr hpred
  have hdeclarations : (declarations {}).Derives n [predTree ts] [] :=
    derives_append.mpr ⟨[], [_], rfl, .stop, .left (.round hparagraph .stop)⟩
  exact derives_row_cons.mpr ⟨[], [_], rfl, derives_given.mpr .nothing,
    hdeclarations.then_look rfl⟩

end Form

/-! ### The texts -/

namespace Lexer

/-- A text is read up to its last token. -/
def Closed (E : String) : Prop := ∀ l ∈ lexemes E.toList, l.kind ≠ .invalid

theorem words_paren {E : String} (hE : Closed E) : words ("( " ++ E ++ "\n)").toList
    = (.punct .lparen, "(") :: (words E.toList ++ [(.punct .rparen, ")")]) := by
  have hopen : lexemes ['('] = [⟨.punct .lparen, ['('], []⟩] := by rw [lexemes_eq]; rfl
  have hclose : words [')'] = [(.punct .rparen, ")")] := by rw [words, lexemes_eq]; rfl
  have htext : ("( " ++ E ++ "\n)").toList = ['('] ++ ' ' :: (E.toList ++ '\n' :: [')']) := by simp
  rw [htext, words_append_blank hopen rfl, words_append_line hE, hclose]

/-- Texts, each with a new line behind it. -/
theorem words_lines {Es : List String} (hEs : ∀ E ∈ Es, Closed E) (ds : List Char) :
    words ((String.join (Es.map (· ++ "\n"))).toList ++ ds)
      = Es.flatMap (fun E => words E.toList) ++ words ds := by
  induction Es with
  | nil => rfl
  | cons E Es ih =>
    obtain ⟨hE, hrest⟩ := List.forall_mem_cons.mp hEs
    have htext : (String.join ((E :: Es).map (· ++ "\n"))).toList ++ ds
        = E.toList ++ '\n' :: ((String.join (Es.map (· ++ "\n"))).toList ++ ds) := by
      simp [String.join_cons]
    rw [htext, words_append_line hE, ih hrest, List.flatMap_cons, List.append_assoc]

/-- The words of texts with commas between them. -/
def commaWords : List String → List (TokenKind × String)
  | [] => []
  | E :: Es => words E.toList ++ Es.flatMap fun F => (.punct .comma, ",") :: words F.toList

theorem words_commaLines {Es : List String} (hEs : ∀ E ∈ Es, Closed E) (ds : List Char) :
    words ((", ".intercalate (Es.map (· ++ "\n"))).toList ++ ds) = commaWords Es ++ words ds := by
  have hcomma : lexemes [','] = [⟨.punct .comma, [','], []⟩] := by rw [lexemes_eq]; rfl
  induction Es with
  | nil => rfl
  | cons E Es ih =>
    obtain ⟨hE, hrest⟩ := List.forall_mem_cons.mp hEs
    cases Es with
    | nil =>
      have htext : (", ".intercalate ([E].map (· ++ "\n"))).toList ++ ds
          = E.toList ++ '\n' :: ds := by
        simp
      rw [htext, words_append_line hE, commaWords, List.flatMap_nil, List.append_nil]
    | cons F Es =>
      have htext : (", ".intercalate ((E :: F :: Es).map (· ++ "\n"))).toList ++ ds
          = E.toList ++ '\n' :: ([','] ++ ' ' ::
            ((", ".intercalate ((F :: Es).map (· ++ "\n"))).toList ++ ds)) := by
        simp [String.intercalate_cons_cons]
      rw [htext, words_append_line hE, words_append_blank hcomma rfl, ih hrest, commaWords,
        commaWords, List.flatMap_cons]
      simp

theorem words_box {Es : List String} (hEs : ∀ E ∈ Es, Closed E) :
    words ("f[ " ++ ", ".intercalate (Es.map (· ++ "\n")) ++ "]").toList
      = (.ident, "f") :: (.punct .lbracket, "[") :: (commaWords Es ++ [(.punct .rbracket, "]")]) := by
  have hopen : lexemes ['['] = [⟨.punct .lbracket, ['['], []⟩] := by rw [lexemes_eq]; rfl
  have hclose : words [']'] = [(.punct .rbracket, "]")] := by rw [words, lexemes_eq]; rfl
  have hname : ∀ cs, words ('f' :: (['['] ++ cs)) = (.ident, "f") :: words (['['] ++ cs) := by
    intro cs
    rw [words_cons]
    rfl
  have htext : ("f[ " ++ ", ".intercalate (Es.map (· ++ "\n")) ++ "]").toList
      = 'f' :: (['['] ++ ' ' :: ((", ".intercalate (Es.map (· ++ "\n"))).toList ++ [']'])) := by
    simp
  rw [htext, hname, words_append_blank hopen rfl, words_commaLines hEs, hclose]

theorem words_eval {E : String} (hE : Closed E) :
    words ("eval " ++ E ++ "\n").toList = (.keyword .evalKw, "eval") :: words E.toList := by
  have hopen : lexemes "eval".toList = [⟨.keyword .evalKw, "eval".toList, []⟩] := by rw [lexemes_eq]; rfl
  have htext : ("eval " ++ E ++ "\n").toList
      = "eval".toList ++ ' ' :: (E.toList ++ '\n' :: []) := by
    simp
  rw [htext, words_append_blank hopen rfl, words_append_line hE, words_nil, List.append_nil,
    String.ofList_toList]

theorem words_pred {Es : List String} (hEs : ∀ E ∈ Es, Closed E) :
    words ("pred p \x7b " ++ String.join (Es.map (· ++ "\n")) ++ "\x7d").toList
      = (.keyword .predKw, "pred") :: (.ident, "p") :: (.punct .lbrace, "\x7b") ::
        (Es.flatMap (fun E => words E.toList) ++ [(.punct .rbrace, "\x7d")]) := by
  have hword : lexemes "pred".toList = [⟨.keyword .predKw, "pred".toList, []⟩] := by rw [lexemes_eq]; rfl
  have hname : lexemes ['p'] = [⟨.ident, ['p'], []⟩] := by rw [lexemes_eq]; rfl
  have hopen : lexemes ['\x7b'] = [⟨.punct .lbrace, ['\x7b'], []⟩] := by rw [lexemes_eq]; rfl
  have hclose : words ['\x7d'] = [(.punct .rbrace, "\x7d")] := by rw [words, lexemes_eq]; rfl
  have htext : ("pred p \x7b " ++ String.join (Es.map (· ++ "\n")) ++ "\x7d").toList
      = "pred".toList ++ ' ' :: (['p'] ++ ' ' :: (['\x7b'] ++ ' ' ::
        ((String.join (Es.map (· ++ "\n"))).toList ++ ['\x7d']))) := by
    simp
  rw [htext, words_append_blank hword rfl, words_append_blank hname rfl,
    words_append_blank hopen rfl, words_lines hEs, hclose]
  rfl

end Lexer

namespace Parse

open Lexer (Closed words)

/-! ### Expressions in trees -/

/-- The expression at the root, if an expression has been read. -/
def expression? (p : Parse) : Option Expr :=
  ((Located.root? p.tree).bind (·.as? (.only .exprRoot))).bind fun root : ExprRoot => root.expr

/-- The paragraphs, if a module has been read. -/
def paragraphs (p : Parse) : List Paragraph :=
  (((Located.root? p.tree).bind (·.as? (.only .sourceFile))).map SourceFile.paragraphs).getD []

/-- The tree of a text that is an expression by itself, without trivia. -/
def standAlone? (E : String) : Option Tree :=
  (ofText {} .oneExpression E).expression?.map View.bare

/-- The expressions are those that texts are by themselves, one for each text and in order. -/
def AsStandAlone (vs : List Expr) (Es : List String) : Prop :=
  vs.map (fun v => some v.bare) = Es.map standAlone?

theorem root_of_bare {p : Parse} {c : Category} {kind : NodeKind} {ts : List Tree}
    (h : p.tree.bare = .node kind ts) (hc : c.admits kind = true) :
    ∃ v : View c, (Located.root? p.tree).bind (·.as? c) = some v ∧ v.parts = ts := by
  cases htree : p.tree with
  | token k text =>
    rw [htree] at h
    cases h
  | node k children =>
    rw [htree, Tree.bare] at h
    obtain ⟨rfl, rfl⟩ := Tree.node.inj h
    exact ⟨⟨⟨k, children, 0, []⟩, hc⟩, dif_pos hc, rfl⟩

theorem map_bare_expression? {p : Parse} {ts : List Tree} (h : p.tree.bare = .node .exprRoot ts) :
    p.expression?.map View.bare = (ts.filter (Tree.isOf .expr)).head? := by
  obtain ⟨root, hroot, rfl⟩ := root_of_bare h (c := .only .exprRoot) rfl
  rw [expression?, hroot, Option.bind_some]
  exact root.map_bare_first .expr

theorem map_bare_paragraphs {p : Parse} {ts : List Tree} (h : p.tree.bare = .node .sourceFile ts) :
    p.paragraphs.map View.bare = ts.filter (Tree.isOf .paragraph) := by
  obtain ⟨root, hroot, rfl⟩ := root_of_bare h (c := .only .sourceFile) rfl
  rw [paragraphs, hroot, Option.map_some, Option.getD_some]
  exact root.map_bare_all .paragraph

theorem expression?_of_bare {p : Parse} {t : Tree} (h : p.tree.bare = .node .exprRoot [t])
    (ht : t.isOf .expr = true) : ∃ v, p.expression? = some v ∧ v.bare = t := by
  have hfirst := map_bare_expression? h
  rw [List.filter_cons_of_pos ht, List.head?_cons] at hfirst
  exact Option.map_eq_some_iff.mp hfirst

theorem paragraphs_of_bare {p : Parse} {t : Tree} (h : p.tree.bare = .node .sourceFile [t])
    (ht : t.isOf .paragraph = true) : ∃ v, p.paragraphs = [v] ∧ v.bare = t := by
  have hall := map_bare_paragraphs h
  rw [List.filter_cons_of_pos ht] at hall
  exact List.map_eq_singleton_iff.mp hall

/-- The only paragraph of a module, seen as what it is. -/
theorem paragraph_of_bare {p : Parse} {ts : List Tree} {kind : NodeKind} {v : Paragraph}
    {w : View (.only kind)} (hbare : p.tree.bare = .node .sourceFile ts) (hv : p.paragraphs = [v])
    (hw : v.node.as? (.only kind) = some w) :
    ts.filter (Tree.isOf .paragraph) = [.node kind w.parts] := by
  rw [← map_bare_paragraphs hbare, hv, List.map_singleton, ← w.bare_only, View.bare_of_as? hw]

/-! ### Texts without invalid tokens -/

theorem valid_of_closed {E : String} (h : Closed E) : ∀ w ∈ words E.toList, w.1 ≠ .invalid := by
  intro w hw
  obtain ⟨l, hl, rfl⟩ := List.mem_map.mp hw
  exact h l (List.mem_filter.mp hl).1

theorem valid_words {Es : List String} (hEs : ∀ E ∈ Es, Closed E) :
    ∀ w ∈ Es.flatMap (fun E => words E.toList), w.1 ≠ .invalid := by
  intro w hw
  obtain ⟨E, hE, hw⟩ := List.mem_flatMap.mp hw
  exact valid_of_closed (hEs E hE) w hw

theorem valid_commaWords {Es : List String} (hEs : ∀ E ∈ Es, Closed E) :
    ∀ w ∈ Lexer.commaWords Es, w.1 ≠ .invalid := by
  cases Es with
  | nil => exact nofun
  | cons E Es =>
    obtain ⟨hE, hrest⟩ := List.forall_mem_cons.mp hEs
    intro w hw
    obtain hw | hw := List.mem_append.mp hw
    · exact valid_of_closed hE w hw
    obtain ⟨F, hF, hw⟩ := List.mem_flatMap.mp hw
    obtain rfl | hw := List.mem_cons.mp hw
    · exact nofun
    · exact valid_of_closed (hrest F hF) w hw

/-! ### Texts that are expressions by themselves -/

/-- The tree of a text by itself, if there is one. -/
def treeOf (E : String) : Tree := (standAlone? E).getD (.node .exprRoot [])

/-- What is known of a text that is accepted as an expression. -/
structure Alone (E : String) : Prop where
  closed : Closed E
  stands : standAlone? E = some (treeOf E)
  isExpr : (treeOf E).isOf .expr = true
  derives : Form.expr.Derives nestingLimit [treeOf E] []
  leaves : (treeOf E).leaves = words E.toList
  valid : ∀ w ∈ words E.toList, w.1 ≠ .invalid

theorem alone_of_ok {E : String} (hok : (ofText {} .oneExpression E).ok = true) : Alone E := by
  have hvalid : ∀ t ∈ tokenize E, t.kind ≠ .invalid := whole_of_ok rfl hok
  obtain ⟨ts, htree, hts, hleaves⟩ := expression_of_ok hok
  obtain ⟨kind, us, rfl, hkind⟩ := Form.isExpr_exprAt 0 _ _ _ hts
  rw [Tree.leavesAll_singleton, map_toPair_significantTokens] at hleaves
  obtain ⟨v, hv, hbare⟩ := expression?_of_bare htree hkind
  have hstands : standAlone? E = some (.node kind us) := by
    rw [standAlone?, hv, Option.map_some, hbare]
  have htreeOf : treeOf E = .node kind us := by
    rw [treeOf, hstands, Option.getD_some]
  refine ⟨Lexer.ne_invalid_of_tokenize hvalid, htreeOf ▸ hstands, htreeOf ▸ hkind, htreeOf ▸ hts,
    htreeOf ▸ hleaves, valid_of_closed (Lexer.ne_invalid_of_tokenize hvalid)⟩

/-- The kinds of the significant tokens of a text. -/
def kindsOf (text : String) : List TokenKind := (significantTokens text).map (·.kind)

theorem kindsOf_eq (text : String) : kindsOf text = (words text.toList).map (·.1) := by
  rw [← map_toPair_significantTokens, List.map_map]
  rfl

/-- The first token of the text is a minus. -/
def beginsWithMinus (E : String) : Bool := (significantTokens E)[0]?.any (·.kind == .punct .minus)

theorem Alone.not_minus {E : String} (hE : Alone E) (hminus : beginsWithMinus E = false) :
    Form.at? (.punct .minus) (kinds [treeOf E]) = false := by
  rw [kinds, Tree.leavesAll_singleton, hE.leaves, ← map_toPair_significantTokens, List.map_map]
  cases htokens : significantTokens E with
  | nil => rfl
  | cons t ts =>
    rw [beginsWithMinus, htokens] at hminus
    exact hminus

/-- The tokens of trees with commas between them. -/
theorem leavesAll_commaTrees {Es : List String} {ts : List Tree}
    (h : List.Forall₂ (fun E t => t.leaves = words E.toList) Es ts) :
    Tree.leavesAll (Form.commaTrees ts)
      = Es.flatMap fun E => (.punct .comma, ",") :: words E.toList := by
  induction h with
  | nil => rfl
  | @cons E t Es ts ht _ ih =>
    rw [Form.commaTrees] at ih ⊢
    rw [List.flatMap_cons, Tree.leavesAll_append, ih, Tree.leavesAll, Tree.leavesAll_singleton, ht,
      List.flatMap_cons]
    rfl

theorem leavesAll_argumentTrees {Es : List String} {ts : List Tree}
    (h : List.Forall₂ (fun E t => t.leaves = words E.toList) Es ts) :
    Tree.leavesAll (Form.argumentTrees ts) = Lexer.commaWords Es := by
  cases h with
  | nil => rfl
  | cons ht hrest =>
    rw [Form.argumentTrees, Tree.leavesAll, ht, leavesAll_commaTrees hrest, Lexer.commaWords]

section

variable {Es : List String} (hEs : ∀ E ∈ Es, Alone E)

include hEs

theorem map_standAlone : (Es.map treeOf).map some = Es.map standAlone? := by
  rw [List.map_map]
  exact List.map_congr_left fun E hE => (hEs E hE).stands.symm

theorem derives_trees : ∀ t ∈ Es.map treeOf, Form.expr.Derives nestingLimit [t] [] := by
  intro t ht
  obtain ⟨E, hE, rfl⟩ := List.mem_map.mp ht
  exact (hEs E hE).derives

theorem filter_trees : (Es.map treeOf).filter (Tree.isOf .expr) = Es.map treeOf := by
  refine List.filter_eq_self.mpr fun t ht => ?_
  obtain ⟨E, hE, rfl⟩ := List.mem_map.mp ht
  exact (hEs E hE).isExpr

theorem leavesAll_trees : Tree.leavesAll (Es.map treeOf) = Es.flatMap fun E => words E.toList := by
  induction Es with
  | nil => rfl
  | cons E Es ih =>
    obtain ⟨hE, hrest⟩ := List.forall_mem_cons.mp hEs
    rw [List.map_cons, Tree.leavesAll, hE.leaves, ih hrest, List.flatMap_cons]

theorem leaves_trees : List.Forall₂ (fun E t => t.leaves = words E.toList) Es (Es.map treeOf) :=
  List.forall₂_map_right_iff.mpr (List.forall₂_same.mpr fun E hE => (hEs E hE).leaves)

theorem filter_argumentTrees :
    (Form.argumentTrees (Es.map treeOf)).filter (Tree.isOf .expr) = Es.map treeOf :=
  (Form.filter_argumentTrees .expr _).trans (filter_trees hEs)

end

/-! ### Contexts -/

/-- An expression is nested more deeply in the text than expressions are read. -/
def TooDeep (p : Parse) : Prop := ∃ d ∈ p.errors, d.code = .tooDeep

theorem shallow_of_not_tooDeep {p : Parse} (h : ¬ p.TooDeep) : ∀ d ∈ p.errors, d.code ≠ .tooDeep :=
  fun d hd hdeep => h ⟨d, hd, hdeep⟩

/-- An expression in parentheses. -/
theorem read_paren {E : String} (hE : Alone E) :
    let p := ofText {} .oneExpression ("( " ++ E ++ "\n)")
    p.TooDeep ∨ p.ok = true ∧ ∃ (v : Expr) (w : ParenExpr), p.expression? = some v ∧
      v.node.as? (.only .parenExpr) = some w ∧ AsStandAlone w.inner.toList [E] := by
  intro p
  refine or_iff_not_imp_left.mpr fun hdeep => ?_
  have hwords : Tree.leavesAll [Form.parenTree (treeOf E)] = words ("( " ++ E ++ "\n)").toList := by
    rw [Lexer.words_paren hE.closed, ← hE.leaves]
    simp [Form.parenTree, Tree.leaves, Tree.leavesAll]
  have hvalid : ∀ w ∈ Tree.leavesAll [Form.parenTree (treeOf E)], w.1 ≠ .invalid := by
    rw [hwords, Lexer.words_paren hE.closed]
    simpa [or_imp, forall_and] using hE.valid
  obtain ⟨hok, hbare⟩ := ok_of_leaves ((map_toPair_significantTokens _).trans hwords.symm) hvalid
    (Form.derives_parenTree hE.derives) (.inr (shallow_of_not_tooDeep hdeep))
  obtain ⟨v, hv, hbare⟩ := expression?_of_bare hbare rfl
  obtain ⟨w, hw, hbare⟩ := View.as?_of_bare (d := .only .parenExpr) hbare rfl
  have hparts : w.parts.filter (Tree.isOf .expr) = [treeOf E] := by
    rw [(View.kind_of_bare hbare).2, List.filter_cons_of_neg (by simp [Tree.isOf]),
      List.filter_cons_of_pos hE.isExpr, List.filter_cons_of_neg (by simp [Tree.isOf]),
      List.filter_nil]
  obtain ⟨x, hx, htree⟩ := View.first_of_parts hparts
  refine ⟨hok, v, w, hv, hw, ?_⟩
  rw [ParenExpr.inner, View.expr, hx, AsStandAlone, List.map_singleton, hE.stands, ← htree]
  rfl

/-- Expressions as arguments. -/
theorem read_box {Es : List String} (hEs : ∀ E ∈ Es, Alone E) :
    let p := ofText {} .oneExpression ("f[ " ++ ", ".intercalate (Es.map (· ++ "\n")) ++ "]")
    p.TooDeep ∨ p.ok = true ∧ ∃ (v : Expr) (w : BoxJoinExpr), p.expression? = some v ∧
      v.node.as? (.only .boxJoinExpr) = some w ∧ AsStandAlone w.arguments Es := by
  intro p
  refine or_iff_not_imp_left.mpr fun hdeep => ?_
  have hwords : Tree.leavesAll [Form.boxTree (Es.map treeOf)]
      = words ("f[ " ++ ", ".intercalate (Es.map (· ++ "\n")) ++ "]").toList := by
    rw [Lexer.words_box fun E hE => (hEs E hE).closed, ← leavesAll_argumentTrees (leaves_trees hEs)]
    simp [Form.boxTree, Tree.leaves, Tree.leavesAll]
  have hvalid : ∀ w ∈ Tree.leavesAll [Form.boxTree (Es.map treeOf)], w.1 ≠ .invalid := by
    rw [hwords, Lexer.words_box fun E hE => (hEs E hE).closed]
    simpa [or_imp, forall_and] using valid_commaWords fun E hE => (hEs E hE).closed
  obtain ⟨hok, hbare⟩ := ok_of_leaves ((map_toPair_significantTokens _).trans hwords.symm) hvalid
    (Form.derives_boxTree (derives_trees hEs)) (.inr (shallow_of_not_tooDeep hdeep))
  obtain ⟨v, hv, hbare⟩ := expression?_of_bare hbare rfl
  obtain ⟨w, hw, hbare⟩ := View.as?_of_bare (d := .only .boxJoinExpr) hbare rfl
  have hlist : w.parts.filter (Tree.isOf (.only .exprList))
      = [.node .exprList (Form.argumentTrees (Es.map treeOf))] := by
    rw [(View.kind_of_bare hbare).2]
    rfl
  obtain ⟨list, hfirst, hlistTree⟩ := View.first_of_parts hlist
  refine ⟨hok, v, w, hv, hw, ?_⟩
  have hargs : w.arguments.map View.bare = Es.map treeOf := by
    rw [View.arguments, hfirst, Option.map_some, Option.getD_some, View.exprs, View.map_bare_all,
      (View.kind_of_bare hlistTree).2, filter_argumentTrees hEs]
  rw [AsStandAlone, ← map_standAlone hEs, ← hargs, List.map_map]
  rfl

/-- An expression that is evaluated. -/
theorem read_eval {E : String} (hE : Alone E) :
    let p := ofText {} .wholeModule ("eval " ++ E ++ "\n")
    p.ok = true ∧ ∃ (v : Paragraph) (w : EvalDecl), p.paragraphs = [v] ∧
      v.node.as? (.only .evalDecl) = some w ∧ AsStandAlone w.expr.toList [E] := by
  intro p
  have hwords : Tree.leavesAll [Form.evalTree (treeOf E)] = words ("eval " ++ E ++ "\n").toList := by
    rw [Lexer.words_eval hE.closed, ← hE.leaves]
    simp [Form.evalTree, Tree.leaves, Tree.leavesAll]
  have hvalid : ∀ w ∈ Tree.leavesAll [Form.evalTree (treeOf E)], w.1 ≠ .invalid := by
    rw [hwords, Lexer.words_eval hE.closed]
    simpa using hE.valid
  obtain ⟨hok, hbare⟩ := ok_of_leaves ((map_toPair_significantTokens _).trans hwords.symm) hvalid
    (Form.derives_evalTree hE.derives) (.inl (Nat.le_refl _))
  obtain ⟨v, hv, hbare⟩ := paragraphs_of_bare hbare rfl
  obtain ⟨w, hw, hbare⟩ := View.as?_of_bare (d := .only .evalDecl) hbare rfl
  have hparts : w.parts.filter (Tree.isOf .expr) = [treeOf E] := by
    rw [(View.kind_of_bare hbare).2, List.filter_cons_of_neg (by simp [Tree.isOf]),
      List.filter_cons_of_pos hE.isExpr, List.filter_nil]
  obtain ⟨x, hx, htree⟩ := View.first_of_parts hparts
  refine ⟨hok, v, w, hv, hw, ?_⟩
  rw [View.expr, hx, AsStandAlone, List.map_singleton, hE.stands, ← htree]
  rfl

/-- Expressions in a block. -/
theorem read_pred {Es : List String} (hEs : ∀ E ∈ Es, Alone E)
    (hminus : ∀ E ∈ Es.tail, beginsWithMinus E = false) :
    let p := ofText {} .wholeModule ("pred p \x7b " ++ String.join (Es.map (· ++ "\n")) ++ "\x7d")
    p.ok = true ∧ ∃ (v : Paragraph) (w : PredDecl) (b : Block), p.paragraphs = [v] ∧
      v.node.as? (.only .predDecl) = some w ∧ w.block = some b ∧ AsStandAlone b.exprs Es := by
  intro p
  have hwords : Tree.leavesAll [Form.predTree (Es.map treeOf)]
      = words ("pred p \x7b " ++ String.join (Es.map (· ++ "\n")) ++ "\x7d").toList := by
    rw [Lexer.words_pred fun E hE => (hEs E hE).closed, ← leavesAll_trees hEs]
    simp [Form.predTree, Tree.leaves, Tree.leavesAll]
  have hvalid : ∀ w ∈ Tree.leavesAll [Form.predTree (Es.map treeOf)], w.1 ≠ .invalid := by
    rw [hwords, Lexer.words_pred fun E hE => (hEs E hE).closed]
    simpa [or_imp, forall_and] using valid_words fun E hE => (hEs E hE).closed
  have hnot : ∀ t ∈ (Es.map treeOf).tail, Form.at? (.punct .minus) (kinds [t]) = false := by
    rw [← List.map_tail]
    intro t ht
    obtain ⟨E, hE, rfl⟩ := List.mem_map.mp ht
    exact (hEs E (List.mem_of_mem_tail hE)).not_minus (hminus E hE)
  obtain ⟨hok, hbare⟩ := ok_of_leaves ((map_toPair_significantTokens _).trans hwords.symm) hvalid
    (Form.derives_predTree (derives_trees hEs) hnot) (.inl (Nat.le_refl _))
  obtain ⟨v, hv, hbare⟩ := paragraphs_of_bare hbare rfl
  obtain ⟨w, hw, hbare⟩ := View.as?_of_bare (d := .only .predDecl) hbare rfl
  have hblock : w.parts.filter (Tree.isOf (.only .block)) = [.node .block
      ([.token (.punct .lbrace) "\x7b"] ++ Es.map treeOf ++ [.token (.punct .rbrace) "\x7d"])] := by
    rw [(View.kind_of_bare hbare).2]
    rfl
  obtain ⟨b, hb, hblockTree⟩ := View.first_of_parts hblock
  refine ⟨hok, v, w, b, hv, hw, hb, ?_⟩
  have hexprs : b.exprs.map View.bare = Es.map treeOf := by
    rw [View.exprs, View.map_bare_all, (View.kind_of_bare hblockTree).2, List.filter_append,
      List.filter_append, filter_trees hEs]
    simp [Tree.isOf]
  rw [AsStandAlone, ← map_standAlone hEs, ← hexprs, List.map_map]
  rfl

/-- Texts that are accepted as expressions are accepted in parentheses, as arguments, behind `eval`
and in a block, and are the same expressions there: each by itself or, as arguments and in a block,
one behind the other. In parentheses and brackets they are nested one level deeper, which can be
one too many. In a block there is nothing between them, so that a minus would belong to the
expression in front of it. -/
theorem accepted_in_context {Es : List String}
    (hEs : ∀ E ∈ Es, (ofText {} .oneExpression E).ok = true) :
    (∀ E ∈ Es,
      let p := ofText {} .oneExpression ("( " ++ E ++ "\n)")
      p.TooDeep ∨ p.ok = true ∧ ∃ (v : Expr) (w : ParenExpr), p.expression? = some v ∧
        v.node.as? (.only .parenExpr) = some w ∧ AsStandAlone w.inner.toList [E]) ∧
    (let p := ofText {} .oneExpression ("f[ " ++ ", ".intercalate (Es.map (· ++ "\n")) ++ "]")
     p.TooDeep ∨ p.ok = true ∧ ∃ (v : Expr) (w : BoxJoinExpr), p.expression? = some v ∧
       v.node.as? (.only .boxJoinExpr) = some w ∧ AsStandAlone w.arguments Es) ∧
    (∀ E ∈ Es,
      let p := ofText {} .wholeModule ("eval " ++ E ++ "\n")
      p.ok = true ∧ ∃ (v : Paragraph) (w : EvalDecl), p.paragraphs = [v] ∧
        v.node.as? (.only .evalDecl) = some w ∧ AsStandAlone w.expr.toList [E]) ∧
    ((∀ E ∈ Es.tail, beginsWithMinus E = false) →
      let p := ofText {} .wholeModule
        ("pred p \x7b " ++ String.join (Es.map (· ++ "\n")) ++ "\x7d")
      p.ok = true ∧ ∃ (v : Paragraph) (w : PredDecl) (b : Block), p.paragraphs = [v] ∧
        v.node.as? (.only .predDecl) = some w ∧ w.block = some b ∧ AsStandAlone b.exprs Es) := by
  have halone : ∀ E ∈ Es, Alone E := fun E hE => alone_of_ok (hEs E hE)
  refine ⟨fun E hE => ?_, ?_, fun E hE => ?_, fun hminus => ?_⟩
  · exact read_paren (halone E hE)
  · exact read_box halone
  · exact read_eval (halone E hE)
  · exact read_pred halone hminus

/-- In the block, `some a` is no quantifier, and the comment ends with its line. -/
theorem accepted_in_context_block :
    (∀ E ∈ ["x = some a", "all y: A | y in B -- each", "c"],
      (ofText {} .oneExpression E).ok = true) ∧
    (let p := ofText {} .wholeModule
      ("pred p \x7b " ++ String.join (["x = some a", "all y: A | y in B -- each", "c"].map (· ++ "\n"))
        ++ "\x7d")
     p.ok = true ∧ ∃ (v : Paragraph) (w : PredDecl) (b : Block), p.paragraphs = [v] ∧
       v.node.as? (.only .predDecl) = some w ∧ w.block = some b ∧
       AsStandAlone b.exprs ["x = some a", "all y: A | y in B -- each", "c"]) := by
  have hfirst : (ofText {} .oneExpression "x = some a").ok = true := by rw [ofText_eq]; rfl
  have hsecond : (ofText {} .oneExpression "all y: A | y in B -- each").ok = true := by rw [ofText_eq]; rfl
  have hthird : (ofText {} .oneExpression "c").ok = true := by rw [ofText_eq]; rfl
  have hEs : ∀ E ∈ ["x = some a", "all y: A | y in B -- each", "c"],
      (ofText {} .oneExpression E).ok = true := by
    simp [hfirst, hsecond, hthird]
  have hminus : ∀ E ∈ ["all y: A | y in B -- each", "c"], beginsWithMinus E = false := by
    intro E hE
    have hall : beginsWithMinus "all y: A | y in B -- each" = false := by
      rw [beginsWithMinus, significantTokens, tokenize_eq]; rfl
    have hlast : beginsWithMinus "c" = false := by
      rw [beginsWithMinus, significantTokens, tokenize_eq]; rfl
    obtain rfl | rfl := by simpa using hE
    · exact hall
    · exact hlast
  exact ⟨hEs, (accepted_in_context hEs).2.2.2 hminus⟩

end Parse
end RelLang
