import Mathlib
import RelLang.Proofs.Grammar.Implication
import RelLang.Proofs.Parse.Order
import RelLang.Proofs.Parse.Trivia

/-!
# The operands of implications

The operands of an implication are counted: the second expression among its children is the right
operand, and with an `else` the third is what stands behind it. Where they stand tells the same,
unless the right operand is missing and there is one behind the `else`.
-/

namespace RelLang

/-! ### Places of nodes -/

namespace Tree

/-- One of some tokens. -/
def isTokenOf (kinds : List TokenKind) : Tree → Bool
  | .token kind _ => kinds.contains kind
  | .node .. => false

/-- Where all tokens are trivia, there are no others. -/
theorem any_isTokenOf {kinds : List TokenKind} {ts : List Tree}
    (hkinds : ∀ k ∈ kinds, k.isTrivia = false)
    (hts : ∀ kind text, .token kind text ∈ ts → kind.isTrivia = true) :
    ts.any (isTokenOf kinds) = false := by
  refine List.any_eq_false.mpr fun t ht hkind => ?_
  cases t with
  | token kind text =>
    have htrivia := hkinds kind (List.contains_iff_mem.mp hkind)
    rw [hts kind text ht] at htrivia
    cases htrivia
  | node kind children => cases hkind

theorem Place.trivia {ts : List Tree} (h : Place ts) :
    ∀ kind text, .token kind text ∈ ts → kind.isTrivia = true := by
  obtain ⟨_, -, hholds⟩ := h
  exact hholds.trivia

theorem Place.exprs {ts : List Tree} (h : Place ts) : ts.countP (isOf .expr) ≤ 1 := by
  obtain ⟨_, hcount, hholds⟩ := h
  exact hholds.exprs ▸ hcount

end Tree

namespace Located

/-- One of some tokens stands in front of the node, beside it. -/
def isBehind (kinds : List TokenKind) (n : Located) : Bool := n.before.any (Tree.isTokenOf kinds)

/-- A token in front of all trees is in front of their nodes. -/
theorem isBehind_of_mem {kinds : List TokenKind} {start : Nat} {before ts : List Tree} {n : Located}
    (hn : n ∈ nodesIn start before ts) (hbefore : before.any (Tree.isTokenOf kinds) = true) :
    n.isBehind kinds = true := by
  obtain ⟨us, _, -, heq, -⟩ := exists_before_of_mem_nodesIn hn
  rw [isBehind, heq, List.any_append, hbefore, Bool.or_true]

/-- Where there are no such tokens, no node is behind one. -/
theorem isBehind_eq_false {kinds : List TokenKind} {start : Nat} {before ts : List Tree}
    {n : Located} (hn : n ∈ nodesIn start before ts)
    (hbefore : before.any (Tree.isTokenOf kinds) = false)
    (hts : ts.any (Tree.isTokenOf kinds) = false) : n.isBehind kinds = false := by
  obtain ⟨us, vs, rfl, heq, -⟩ := exists_before_of_mem_nodesIn hn
  rw [List.any_append, Bool.or_eq_false_iff] at hts
  rw [isBehind, heq, List.any_append, hbefore, List.any_reverse, hts.1]
  rfl

end Located

/-! ### Operands by their places -/

namespace BinaryExpr

/-- The expressions in front of the operator of an implication. -/
def frontOperands (v : BinaryExpr) : List Expr :=
  v.exprs.filter fun e => !e.node.isBehind impliesOperators

/-- The expressions between the operator of an implication and its `else`, or its end if it has
none. -/
def middleOperands (v : BinaryExpr) : List Expr :=
  v.exprs.filter fun e => e.node.isBehind impliesOperators && !e.node.isBehind [.keyword .elseKw]

/-- The expressions behind the `else` of an implication. -/
def backOperands (v : BinaryExpr) : List Expr :=
  v.exprs.filter fun e => e.node.isBehind [.keyword .elseKw]

end BinaryExpr

/-- The expressions among trees that stand behind others. -/
def Located.exprsIn (start : Nat) (before ts : List Tree) : List Expr :=
  (nodesIn start before ts).filterMap (·.as? .expr)

namespace Located

variable {start : Nat} {before ts : List Tree}

theorem length_exprsIn : (exprsIn start before ts).length = ts.countP (Tree.isOf .expr) := by
  rw [List.countP_eq_length_filter, ← View.map_tree_filterMap .expr start before ts,
    List.length_map]
  rfl

theorem exprsIn_append (us : List Tree) :
    exprsIn start before (ts ++ us)
      = exprsIn start before ts ++ exprsIn (start + Tree.widths ts) (ts.reverse ++ before) us := by
  rw [exprsIn, nodesIn_append, List.filterMap_append]
  rfl

theorem node_mem_of_mem_exprsIn {e : Expr} (h : e ∈ exprsIn start before ts) :
    e.node ∈ nodesIn start before ts := by
  obtain ⟨n, hn, ha⟩ := List.mem_filterMap.mp h
  exact node_of_as? ha ▸ hn

end Located

/-- The operands of an implication by their places: in front of its operator, behind it, and behind
its `else`. -/
structure BinaryExpr.Operands (v : BinaryExpr) (front middle back : List Expr) : Prop where
  exprs_eq : v.exprs = front ++ (middle ++ back)
  front_place : ∀ e ∈ front, e.node.isBehind impliesOperators = false ∧
    e.node.isBehind [.keyword .elseKw] = false
  middle_place : ∀ e ∈ middle, e.node.isBehind impliesOperators = true ∧
    e.node.isBehind [.keyword .elseKw] = false
  back_place : ∀ e ∈ back, e.node.isBehind impliesOperators = true ∧
    e.node.isBehind [.keyword .elseKw] = true

theorem BinaryExpr.Operands.places_eq {v : BinaryExpr} {front middle back : List Expr}
    (h : v.Operands front middle back) :
    v.frontOperands = front ∧ v.middleOperands = middle ∧ v.backOperands = back := by
  have hkeep {es : List Expr} {test : Expr → Bool} (hes : ∀ e ∈ es, test e = true) :
      es.filter test = es := List.filter_eq_self.mpr hes
  have hdrop {es : List Expr} {test : Expr → Bool} (hes : ∀ e ∈ es, test e = false) :
      es.filter test = [] := List.filter_eq_nil_iff.mpr fun e he => by simp [hes e he]
  rw [frontOperands, middleOperands, backOperands, h.exprs_eq]
  simp only [List.filter_append]
  refine ⟨?_, ?_, ?_⟩
  · rw [hkeep fun e he => by simp [h.front_place e he],
      hdrop fun e he => by simp [h.middle_place e he],
      hdrop fun e he => by simp [h.back_place e he], List.append_nil, List.append_nil]
  · rw [hdrop fun e he => by simp [h.front_place e he],
      hkeep fun e he => by simp [h.middle_place e he],
      hdrop fun e he => by simp [h.back_place e he], List.append_nil, List.nil_append]
  · rw [hdrop fun e he => by simp [h.front_place e he],
      hdrop fun e he => by simp [h.middle_place e he],
      hkeep fun e he => by simp [h.back_place e he], List.nil_append, List.nil_append]

namespace ImplicationParts

variable {v : BinaryExpr}

theorem isTokenOf_operator (p : ImplicationParts v.node.children) :
    Tree.isTokenOf impliesOperators (.token p.operator p.text) = true ∧
      Tree.isTokenOf [.keyword .elseKw] (.token p.operator p.text) = false := by
  have hmem := p.operator_mem
  simp only [impliesOperators, List.mem_cons, List.not_mem_nil, or_false] at hmem
  obtain h | h := hmem <;> rw [h] <;> exact ⟨rfl, rfl⟩

/-- What stands behind the `else`, if there is one. -/
theorem exists_back (p : ImplicationParts v.node.children) (start : Nat) {before : List Tree}
    (hbefore : before.any (Tree.isTokenOf impliesOperators) = true) :
    ∃ back, Located.exprsIn start before p.tail = back ∧ back.length ≤ 1 ∧
      (back ≠ [] → v.hasToken (.keyword .elseKw) = true) ∧
      ∀ e ∈ back, e.node.isBehind impliesOperators = true ∧
        e.node.isBehind [.keyword .elseKw] = true := by
  obtain htail | ⟨word, ts, htail, hplace⟩ := p.tail_fits
  · rw [htail]
    exact ⟨[], rfl, by simp, fun h => absurd rfl h, nofun⟩
  · refine ⟨_, rfl, ?_, fun _ => ?_, fun e he => ?_⟩
    · rw [Located.length_exprsIn, htail]
      exact hplace.exprs
    · rw [View.hasToken, View.tokenKinds_eq, List.contains_iff_mem, p.children_eq, htail]
      exact List.mem_filterMap.mpr ⟨.token (.keyword .elseKw) word, by simp, rfl⟩
    · rw [htail] at he
      have hnode : e.node ∈ Located.nodesIn _ (.token (.keyword .elseKw) word :: before) ts :=
        Located.node_mem_of_mem_exprsIn he
      exact ⟨Located.isBehind_of_mem hnode (by rw [List.any_cons, hbefore, Bool.or_true]),
        Located.isBehind_of_mem hnode rfl⟩

/-- The operands in their places. -/
theorem exists_operands (p : ImplicationParts v.node.children) :
    ∃ front middle back, v.Operands front middle back ∧ front.length = 1 ∧ middle.length ≤ 1 ∧
      back.length ≤ 1 ∧ (back ≠ [] → v.hasToken (.keyword .elseKw) = true) := by
  have himplies : ∀ k ∈ impliesOperators, k.isTrivia = false := by decide
  have helse : ∀ k ∈ [TokenKind.keyword .elseKw], k.isTrivia = false := by decide
  obtain ⟨hoperator, hother⟩ := p.isTokenOf_operator
  have hfront := Tree.any_isTokenOf helse p.front_holds.trivia
  have hmiddle := Tree.any_isTokenOf helse p.middle_place.trivia
  have hexprs : v.exprs = Located.exprsIn v.node.start [] v.node.children := rfl
  rw [p.children_eq, Located.exprsIn_append, ← List.singleton_append, Located.exprsIn_append,
    Located.exprsIn_append] at hexprs
  generalize hbefore : [Tree.token p.operator p.text].reverse ++ (p.front.reverse ++ []) = before
    at hexprs
  have hbehind : before.any (Tree.isTokenOf impliesOperators) = true := by
    rw [← hbefore, List.any_append]
    simp [hoperator]
  have hbefore' : before.any (Tree.isTokenOf [.keyword .elseKw]) = false := by
    rw [← hbefore]
    simpa [hother] using hfront
  have hbehind' : (p.middle.reverse ++ before).any (Tree.isTokenOf impliesOperators) = true := by
    rw [List.any_append, hbehind, Bool.or_true]
  obtain ⟨back, hback, hlength, hword, hplace⟩ := p.exists_back _ hbehind'
  rw [hback] at hexprs
  refine ⟨_, _, back, ⟨hexprs, fun e he => ?_, fun e he => ?_, hplace⟩, ?_, ?_, hlength, hword⟩
  · have hnode := Located.node_mem_of_mem_exprsIn he
    exact ⟨Located.isBehind_eq_false hnode rfl (Tree.any_isTokenOf himplies p.front_holds.trivia),
      Located.isBehind_eq_false hnode rfl hfront⟩
  · have hnode := Located.node_mem_of_mem_exprsIn he
    exact ⟨Located.isBehind_of_mem hnode hbehind, Located.isBehind_eq_false hnode hbefore' hmiddle⟩
  · rw [Located.length_exprsIn, p.front_holds.exprs]
  · rw [Located.length_exprsIn]
    exact p.middle_place.exprs

end ImplicationParts

/-- Of operands in their places, the accessors find the first two, and the third if there is an
`else`. -/
theorem BinaryExpr.Operands.accessors {v : BinaryExpr} {front middle back : List Expr}
    (h : v.Operands front middle back) (hfront : front.length = 1) (hmiddle : middle.length ≤ 1)
    (hback : back.length ≤ 1) (hword : back ≠ [] → v.hasToken (.keyword .elseKw) = true) :
    v.lhs = front.head? ∧
      (middle ≠ [] ∨ back = [] → v.rhs = middle.head? ∧ v.elseBranch = back.head?) ∧
      (middle = [] → v.rhs = back.head? ∧ v.elseBranch = none) := by
  obtain ⟨l, rfl⟩ := List.length_eq_one_iff.mp hfront
  have hexprs : v.exprs = l :: (middle ++ back) := h.exprs_eq
  have hlhs : v.lhs = some l := by
    rw [lhs, View.expr, View.first_eq_head?, ← View.exprs, hexprs]
    rfl
  have hrhs : v.rhs = (middle ++ back).head? := by
    rw [rhs, hexprs, List.getElem?_cons_succ, List.head?_eq_getElem?]
  have helse :
      v.elseBranch = if v.hasToken (.keyword .elseKw) then (middle ++ back)[1]? else none := by
    rw [elseBranch, hexprs, List.getElem?_cons_succ]
  refine ⟨hlhs, fun hcase => ?_, fun hnone => ?_⟩
  · rcases middle with _ | ⟨m, _ | ⟨m', ms⟩⟩
    · obtain rfl := hcase.resolve_left (fun h => h rfl)
      exact ⟨hrhs, helse.trans (ite_self _)⟩
    · refine ⟨hrhs, helse.trans ?_⟩
      rw [List.head?_eq_getElem?]
      split
      · rfl
      · next hno =>
        rw [Classical.not_not.mp fun h => hno (hword h)]
        rfl
    · simp at hmiddle
  · subst hnone
    have hsecond : back[1]? = none := List.getElem?_eq_none hback
    rw [List.nil_append, hsecond, ite_self] at helse
    exact ⟨hrhs, helse⟩

namespace Parse

theorem implications_final (config : ParseConfig) (entry : Entry) (tokens : List Token) :
    (final config entry tokens).Sound ImplicationFits := by
  have hcalls := Grammar.fillingCalls_enter (setting config tokens) nestingLimit
  have hrule : Rule.Maintains (State.Sound ImplicationFits) (entry.rule.run (setting config tokens)
      (Grammar.language.enter (setting config tokens) nestingLimit)) := by
    cases entry with
    | wholeModule => exact Grammar.filling_sourceFile hcalls
    | oneExpression => exact Grammar.filling_advances hcalls Grammar.advances_exprRoot
  have hrun := hrule (start config tokens) (valid_start config tokens)
    (State.sound_of_siblings_eq_nil (siblings_start config tokens))
  exact hrun.attachPending fun _ => .of_ne (by decide) _

/-- An implication has one expression in front of its operator, and at most one behind it and one
behind its `else`, for every text, whatever it is read as and whatever it is read by. What stands in
front of the operator is its left operand. If there is an expression between the operator and the
`else`, or none behind the `else`, these are the right operand and the other branch; without the
one between them, what stands behind the `else` is taken for the right operand, and there is no
other branch. -/
theorem implication_operands (config : ParseConfig) (entry : Entry) (text : String)
    {v : BinaryExpr} (hv : v.node ∈ Located.nodesOf 0 [] (ofText config entry text).tree)
    (hkind : v.node.kind = .impliesExpr) :
    v.frontOperands.length = 1 ∧ v.middleOperands.length ≤ 1 ∧ v.backOperands.length ≤ 1 ∧
      v.lhs = v.frontOperands.head? ∧
      (v.middleOperands ≠ [] ∨ v.backOperands = [] →
        v.rhs = v.middleOperands.head? ∧ v.elseBranch = v.backOperands.head?) ∧
      (v.middleOperands = [] → v.rhs = v.backOperands.head? ∧ v.elseBranch = none) := by
  have hbelow : v.node ∈ (Located.nodesOf 0 [] (ofText config entry text).tree).tail := by
    rw [ofText, tree_ofTokens] at hv ⊢
    refine (List.mem_cons.mp hv).resolve_left fun hroot => ?_
    rw [hroot] at hkind
    cases entry <;> cases hkind
  obtain ⟨_, _, -, -, hfits⟩ := nodes_of_sound (implications_final config entry _) hbelow
  obtain ⟨p⟩ := hfits hkind
  obtain ⟨front, middle, back, hplaces, hfront, hmiddle, hback, hword⟩ := p.exists_operands
  obtain ⟨rfl, rfl, rfl⟩ := hplaces.places_eq
  exact ⟨hfront, hmiddle, hback, hplaces.accessors hfront hmiddle hback hword⟩

/-- The operands of an implication with all its parts stand in front of its operator, behind it, and
behind its `else`. -/
theorem implication_operands_else :
    ∃ v : BinaryExpr,
      v.node ∈ Located.nodesOf 0 [] (ofText {} .oneExpression "a => b else c").tree ∧
      v.node.kind = .impliesExpr ∧ v.lhs = v.frontOperands.head? ∧
      v.rhs = v.middleOperands.head? ∧ v.elseBranch = v.backOperands.head? := by
  obtain ⟨children, hchildren, htree⟩ : ∃ children : List Tree,
      children = [.node .nameRef [.node .qualName [.token .ident "a"]],
        .token .whitespace " ", .token (.punct .fatArrow) "=>", .token .whitespace " ",
        .node .nameRef [.node .qualName [.token .ident "b"]], .token .whitespace " ",
        .token (.keyword .elseKw) "else", .token .whitespace " ",
        .node .nameRef [.node .qualName [.token .ident "c"]]] ∧
      (ofText {} .oneExpression "a => b else c").tree
        = .node .exprRoot [.node .impliesExpr children] := ⟨_, rfl, by rw [ofText_eq]; rfl⟩
  let v : BinaryExpr := ⟨⟨.impliesExpr, children, 0, []⟩, rfl⟩
  have hv : v.node ∈ Located.nodesOf 0 [] (ofText {} .oneExpression "a => b else c").tree := by
    rw [htree]
    exact .tail _ (.head _)
  obtain ⟨-, -, -, hlhs, hboth, -⟩ := implication_operands {} .oneExpression "a => b else c" hv rfl
  have hmiddle : v.middleOperands ≠ [] := by
    subst hchildren
    exact List.cons_ne_nil _ _
  obtain ⟨hrhs, helse⟩ := hboth (.inl hmiddle)
  exact ⟨v, hv, rfl, hlhs, hrhs, helse⟩

/-- Without an expression between the operator and the `else`, what stands behind the `else` is
taken for the right operand, and no branch is found there. -/
theorem branch_taken_for_rhs :
    ∃ v : BinaryExpr,
      v.node ∈ Located.nodesOf 0 [] (ofText {} .oneExpression "a => else c").tree ∧
      v.node.kind = .impliesExpr ∧ v.middleOperands.head?.isSome = false ∧ v.rhs.isSome = true ∧
      v.backOperands.head?.isSome = true ∧ v.elseBranch.isSome = false := by
  have htree : (ofText {} .oneExpression "a => else c").tree = .node .exprRoot
      [.node .impliesExpr [.node .nameRef [.node .qualName [.token .ident "a"]],
        .token .whitespace " ", .token (.punct .fatArrow) "=>", .token .whitespace " ",
        .token (.keyword .elseKw) "else", .token .whitespace " ",
        .node .nameRef [.node .qualName [.token .ident "c"]]]] := by rw [ofText_eq]; rfl
  rw [htree]
  exact ⟨⟨⟨.impliesExpr, _, 0, []⟩, rfl⟩, .tail _ (.head _), rfl, rfl, rfl, rfl, rfl⟩

end Parse
end RelLang
