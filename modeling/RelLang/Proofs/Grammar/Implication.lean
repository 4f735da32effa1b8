import RelLang.Proofs.Grammar.Operand
import RelLang.Proofs.Rule.Build
import RelLang.Proofs.Rule.Invariant
import RelLang.Proofs.View.Binary

/-!
# The parts of implications

Whatever is wrong with a text, an implication in its tree has one expression in front of its
operator, its left operand, and at most one behind the operator and one behind the `else`. An
operand that is missing, or that is nested too deeply, leaves its place without an expression; what
else stands there are trivia and nodes of skipped text.
-/

namespace RelLang

/-! ### Parts -/

/-- Among some trees there are so many expressions, and no tokens but trivia. -/
structure Tree.Holds (count : Nat) (ts : List Tree) : Prop where
  exprs : ts.countP (isOf .expr) = count
  trivia : ∀ kind text, .token kind text ∈ ts → kind.isTrivia = true

namespace Tree.Holds

variable {m n : Nat} {ts us : List Tree}

theorem nil : Holds 0 [] := ⟨rfl, nofun⟩

theorem append (hts : Holds m ts) (hus : Holds n us) : Holds (m + n) (ts ++ us) := by
  refine ⟨by rw [List.countP_append, hts.exprs, hus.exprs], fun kind text hmem => ?_⟩
  obtain hmem | hmem := List.mem_append.mp hmem
  · exact hts.trivia kind text hmem
  · exact hus.trivia kind text hmem

theorem reverse (h : Holds n ts) : Holds n ts.reverse :=
  ⟨by rw [List.countP_reverse, h.exprs], fun kind text hmem =>
    h.trivia kind text (List.mem_reverse.mp hmem)⟩

theorem node (kind : NodeKind) (children : List Tree) :
    Holds (if Category.expr.admits kind then 1 else 0) [.node kind children] :=
  ⟨List.countP_singleton, by simp⟩

theorem expr {kind : NodeKind} (h : Category.expr.admits kind = true) (children : List Tree) :
    Holds 1 [.node kind children] := by
  simpa [h] using node kind children

theorem error (children : List Tree) : Holds 0 [.node .error children] := node .error children

end Tree.Holds

/-- The place of an operand: at most one expression is there. -/
def Tree.Place (ts : List Tree) : Prop := ∃ count ≤ 1, Tree.Holds count ts

namespace Tree.Place

variable {ts us : List Tree}

theorem behind (hts : Holds 0 ts) (hus : Place us) : Place (us ++ ts) := by
  obtain ⟨count, hcount, hholds⟩ := hus
  exact ⟨count, hcount, hholds.append hts⟩

theorem infront (hts : Holds 0 ts) (hus : Place us) : Place (ts ++ us) := by
  obtain ⟨count, hcount, hholds⟩ := hus
  exact ⟨0 + count, by omega, hts.append hholds⟩

theorem reverse (h : Place ts) : Place ts.reverse := by
  obtain ⟨count, hcount, hholds⟩ := h
  exact ⟨count, hcount, hholds.reverse⟩

end Tree.Place

/-- The operators of an implication. -/
def impliesOperators : List TokenKind := [.keyword .impliesKw, .punct .fatArrow]

/-- The parts of an implication, some of whose operands may be missing. -/
structure ImplicationParts (children : List Tree) where
  front : List Tree
  operator : TokenKind
  text : String
  middle : List Tree
  tail : List Tree
  children_eq : children = front ++ .token operator text :: (middle ++ tail)
  operator_mem : operator ∈ impliesOperators
  front_holds : Tree.Holds 1 front
  middle_place : Tree.Place middle
  tail_fits : tail = [] ∨
    ∃ word back, tail = .token (.keyword .elseKw) word :: back ∧ Tree.Place back

/-- An implication has its parts. -/
def ImplicationFits (kind : NodeKind) (children : List Tree) (_ : List (TokenKind × String)) :
    Prop :=
  kind = .impliesExpr → Nonempty (ImplicationParts children)

theorem ImplicationFits.of_ne {kind : NodeKind} (h : kind ≠ .impliesExpr) (children : List Tree)
    (behind : List (TokenKind × String)) : ImplicationFits kind children behind :=
  fun heq => absurd heq h

/-- The operators whose node is an implication. -/
theorem Operator.mem_impliesOperators {first : TokenKind} {second : Option TokenKind}
    {e : Extension} (h : extension? first second = some e) (hnode : e.node = .impliesExpr) :
    first ∈ impliesOperators := by
  have hrows : ∀ row ∈ table, row.node = .impliesExpr → row.operators = impliesOperators := by
    decide
  obtain ⟨k, row, hrow, rfl, hfirst⟩ := ofRow_of_extension? h
  have hmem := (mem_of_infixRow? hrow).2
  rw [hrows row (mem_table_of_infixRow? hrow) hnode] at hmem
  obtain rfl | ⟨-, -, hcompare⟩ | ⟨-, -, rfl⟩ := hfirst
  · exact hmem
  · exact absurd (hnode.symm.trans hcompare) (by decide)
  · exact absurd hmem (by decide)

/-! ### Places in a reading -/

namespace State

variable {s t u : State}

theorem holds_pending (hs : s.Valid) :
    Tree.Holds 0 (s.pending.map Token.skippedTree).reverse := by
  refine .reverse ⟨?_, fun kind text hmem => ?_⟩
  · rw [List.countP_map, List.countP_eq_zero]
    intro token _
    simp only [Function.comp_apply, Token.skippedTree]
    split <;> exact Bool.false_ne_true
  · obtain ⟨token, htoken, heq⟩ := List.mem_map.mp hmem
    have hskipped := solid_skippedTree (hs.pending token htoken)
    rwa [heq] at hskipped

/-- The place of an operand is put behind the trees there are. -/
def Fills (s t : State) : Prop := ∃ added, t.siblings = added ++ s.siblings ∧ Tree.Place added

theorem Fills.of_siblings_eq (h : s.Fills t) (heq : u.siblings = t.siblings) : s.Fills u := by
  obtain ⟨added, ht, hplace⟩ := h
  exact ⟨added, heq.trans ht, hplace⟩

theorem fills_self (s : State) : s.Fills s := ⟨[], rfl, 0, by simp, .nil⟩

/-- Behind what is skipped. -/
theorem fills_attachPending (hs : s.Valid) {added : List Tree} (hadded : Tree.Place added)
    (ht : t.siblings = added ++ s.attachPending.siblings) : s.Fills t := by
  refine ⟨added ++ (s.pending.map Token.skippedTree).reverse, ?_, hadded.behind (holds_pending hs)⟩
  rw [ht, attachPending, List.append_assoc]

/-- The current token stands behind the trees and what is skipped. -/
theorem siblings_bump (hs : s.Valid) {kind : TokenKind} (hk : s.kindAt 0 = some kind) :
    ∃ text skipped, s.bump.siblings = .token kind text :: (skipped ++ s.siblings) ∧
      Tree.Holds 0 skipped := by
  cases hw : s.words with
  | nil => simp [kindAt, hw] at hk
  | cons w ws =>
    have hkind : w.token.kind = kind := by simpa [kindAt, hw] using hk
    subst hkind
    rw [bump_of_words_eq_cons hw]
    exact ⟨w.token.text, _, rfl, holds_pending hs⟩

end State

/-! ### The rules of expressions -/

namespace Grammar

open Rule

variable {setting : Setting} {enter : Nonterminal → State → Bool × State} {s t : State}
variable {level : Nat}

/-- What calls leave: implications with their parts, and of an expression the place of an
operand. -/
structure FillingCalls (enter : Nonterminal → State → Bool × State) : Prop where
  steady : Steady enter
  maintains : ∀ symbol, Maintains (State.Sound ImplicationFits) (enter symbol)
  fills : ∀ (level : Nat) (s : State), s.Valid → s.Fills (enter (.expression level) s).2

/-- All loops advance, and no node is an implication. -/
abbrev Unimplied {α : Type} (setting : Setting) (enter : Nonterminal → State → Bool × State)
    (rule : Rule Nonterminal α) : Prop :=
  rule.Every (· ≠ .impliesExpr) (Advancing setting enter)

theorem Advances.unimplied {α : Type} {rule : Rule Nonterminal α}
    (h : Advances setting enter rule) : Unimplied setting enter rule := by
  refine h.mono (fun kind hkind heq => ?_) fun _ _ => id
  rw [heq] at hkind
  exact hkind.1 rfl

/-- A rule that makes no implications leaves those there are with their parts. -/
theorem filling_unimplied {α : Type} (hcalls : FillingCalls enter) {rule : Rule Nonterminal α}
    (hrule : Unimplied setting enter rule) :
    Maintains (State.Sound ImplicationFits) (rule.run setting enter) :=
  Every.maintains (fun _ => ImplicationFits.of_ne) (by decide) hcalls.steady hcalls.maintains hrule

theorem filling_advances {α : Type} (hcalls : FillingCalls enter) {rule : Rule Nonterminal α}
    (hrule : Advances setting enter rule) :
    Maintains (State.Sound ImplicationFits) (rule.run setting enter) :=
  filling_unimplied hcalls hrule.unimplied

/-- No implication is made by putting a node of another kind around what has been read. -/
theorem filling_enclose {α : Type} {kind : NodeKind} (hkind : kind ≠ .impliesExpr)
    {body : Rule Nonterminal α}
    (hbody : Maintains (State.Sound ImplicationFits) (body.run setting enter)) :
    Maintains (State.Sound ImplicationFits) ((Rule.enclose kind body).run setting enter) :=
  fun s hs h => (hbody s hs h).wrap (.of_ne hkind _ _)

theorem filling_group {α : Type} (hcalls : FillingCalls enter) {body : Rule Nonterminal α}
    (hbody : Maintains (State.Sound ImplicationFits) (body.run setting enter)) :
    Maintains (State.Sound ImplicationFits) ((Rule.group body).run setting enter) :=
  fun s hs h => sound_group (fun _ => .of_ne (by decide) _) hcalls.steady h
    (hbody (inner s) (valid_inner hs) (State.sound_of_siblings_eq_nil rfl))

theorem filling_node {α : Type} (hcalls : FillingCalls enter) {kind : NodeKind}
    (hkind : kind ≠ .impliesExpr) {body : Rule Nonterminal α}
    (hbody : Maintains (State.Sound ImplicationFits) (body.run setting enter)) :
    Maintains (State.Sound ImplicationFits) ((Rule.node kind body).run setting enter) := by
  have henclosed : Maintains (State.Sound ImplicationFits)
      ((Rule.enclose kind body).run setting enter) := filling_enclose hkind hbody
  exact filling_group hcalls henclosed

theorem fills_operand (hcalls : FillingCalls enter) (hs : s.Valid) (after : TokenKind) :
    s.Fills ((operand level after).run setting enter s).2 := by
  have hcall := hcalls.fills level s hs
  simp only [operand, run_bind, run_call]
  cases (enter (.expression level) s).1 with
  | true => exact hcall
  | false =>
    obtain ⟨reports, hreport⟩ := State.report_eq setting (.operand after)
      (enter (.expression level) s).2
    rw [Bool.not_false, run_when_true, run_report, hreport]
    exact hcall.of_siblings_eq rfl

/-- Behind the middle of an implication stands nothing, or an `else` with the place of its
operand. -/
theorem tail_otherwise (hcalls : FillingCalls enter) (hs : s.Valid)
    (ht : ((when (s.kindAt 0 == some (.keyword .elseKw)) do
      bump
      operand Operator.impliesLevel (.keyword .elseKw)).run setting enter s).2 = t) :
    ∃ skipped tail, t.siblings = tail ++ (skipped ++ s.siblings) ∧ Tree.Holds 0 skipped ∧
      (tail = [] ∨
        ∃ word back, tail = back ++ [.token (.keyword .elseKw) word] ∧ Tree.Place back) := by
  subst ht
  cases helse : s.kindAt 0 == some (.keyword .elseKw) with
  | false => exact ⟨[], [], rfl, .nil, .inl rfl⟩
  | true =>
    obtain ⟨word, skipped, hbump, hskipped⟩ := State.siblings_bump hs (eq_of_beq helse)
    obtain ⟨back, hoperand, hback⟩ : s.bump.Fills
        ((operand Operator.impliesLevel (.keyword .elseKw)).run setting enter s.bump).2 :=
      fills_operand hcalls ((State.reaches_bump s).valid hs) _
    refine ⟨skipped, back ++ [.token (.keyword .elseKw) word], ?_, hskipped,
      .inr ⟨word, back, rfl, hback⟩⟩
    rw [run_when_true, run_bind, run_bump, hoperand, hbump, List.append_assoc]
    rfl

/-- Behind its left operand an implication gets its operator and the places of the others. -/
theorem implicationParts_infixTail (hcalls : FillingCalls enter) (hs : s.Valid)
    (hfront : Tree.Holds 1 s.siblings) {first : TokenKind} (hk : s.kindAt 0 = some first)
    (hfirst : first ∈ impliesOperators) :
    Nonempty (ImplicationParts
      ((infixTail .impliesExpr level first).run setting enter s).2.siblings.reverse) := by
  obtain ⟨text, skipped, hbump, hskipped⟩ := State.siblings_bump hs hk
  have hv := (State.reaches_bump s).valid hs
  obtain ⟨middle, hmiddle, hplace⟩ :
      s.bump.Fills ((operand level first).run setting enter s.bump).2 := fills_operand hcalls hv _
  obtain ⟨between, tail, htail, hbetween, hfits⟩ := tail_otherwise hcalls
    (valid_run setting hcalls.steady (operand level first) hv) rfl
  have hrun : ((infixTail .impliesExpr level first).run setting enter s).2.siblings = _ := htail
  refine ⟨⟨(skipped ++ s.siblings).reverse, first, text, (between ++ middle).reverse, tail.reverse,
    ?_, hfirst, (hskipped.append hfront).reverse, (hplace.infront hbetween).reverse, ?_⟩⟩
  · rw [hrun, hmiddle, hbump]
    simp
  · obtain rfl | ⟨word, back, rfl, hback⟩ := hfits
    · exact .inl rfl
    · exact .inr ⟨word, back.reverse, by simp, hback.reverse⟩

/-! ### Extensions -/

/-- Implications have their parts, and one expression has been read since the group began. -/
def Headed (s : State) : Prop := s.Sound ImplicationFits ∧ Tree.Holds 1 s.siblings

theorem admits_extension {first : TokenKind} {second : Option TokenKind} {e : Operator.Extension}
    (h : Operator.extension? first second = some e) : Category.expr.admits e.node = true := by
  obtain ⟨k, row, hrow, rfl, -⟩ := Operator.ofRow_of_extension? h
  exact (Operator.form_of_row row (Operator.mem_table_of_infixRow? hrow)).2.2

/-- An operator behind an expression makes one expression of both. -/
theorem headed_extendBy (hcalls : FillingCalls enter) (hs : s.Valid) (h : Headed s)
    {first : TokenKind} {e : Operator.Extension} (hat : extensionAt s = some (first, e)) :
    Headed ((extendBy first e).run setting enter s).2 := by
  obtain ⟨hk, he⟩ := extensionAt_eq_some.mp hat
  obtain ⟨reports, hwhen⟩ : ∃ reports, ((when e.temporal requireTemporal :
      Rule Nonterminal Unit).run setting enter s).2 = { s with reports } := by
    cases e.temporal with
    | false => exact ⟨s.reports, rfl⟩
    | true =>
      rw [run_when_true, run]
      split
      · exact ⟨s.reports, rfl⟩
      · exact State.report_eq setting _ s
  simp only [extendBy, run_bind, run_enclose, hwhen]
  have hv : State.Valid { s with reports } := hs.of_eq rfl rfl rfl
  have hbody : Advances setting enter (extensionTail first e) :=
    advances_extensionTail hcalls.steady first e
  have hsound := filling_advances hcalls hbody _ hv (h.1.of_eq rfl rfl)
  refine ⟨hsound.wrap fun hnode => ?_, .expr (admits_extension he) _⟩
  obtain ⟨operandLevel, hlevel⟩ : ∃ operandLevel, e.operandLevel? = some operandLevel := by
    cases hlevel : e.operandLevel? with
    | some operandLevel => exact ⟨operandLevel, rfl⟩
    | none =>
      have hfirst := Operator.mem_impliesOperators he hnode
      obtain rfl | rfl := Operator.postfix_of_extension? he hlevel <;>
        simp [impliesOperators] at hfirst
  have htail : extensionTail first e = infixTail .impliesExpr operandLevel first := by
    rw [extensionTail, hlevel, hnode]
  rw [htail]
  exact implicationParts_infixTail hcalls hv h.2 hk (Operator.mem_impliesOperators he hnode)

theorem headed_extend (hcalls : FillingCalls enter) (level : Nat) :
    Maintains Headed ((extend level).run setting enter) := by
  refine .repeated hcalls.steady (fun s h => ⟨h.1.of_eq rfl rfl, h.2⟩) fun s hs h => ?_
  obtain ⟨-, hrun⟩ | ⟨first, e, hat, -, hrun⟩ := run_extendOnce setting enter level s
  · rw [hrun]
    exact h
  · rw [hrun]
    exact headed_extendBy hcalls hs h hat

/-! ### What an expression begins with -/

theorem builds_binder (keyword : TokenKind) :
    Builds setting enter Category.expr.admits (binder keyword) := by
  unfold binder
  split
  · exact .node rfl _
  · exact .node rfl _
  · exact .node rfl _

theorem builds_atomForm {first second : Option TokenKind} {form : AtomForm}
    (h : AtomForm.ofTokens? first second = some form) :
    Builds setting enter Category.expr.admits form.rule := by
  cases form with
  | oneToken kind => exact .node (bare_of_atomForm h).1 _
  | negativeNumber => exact .node rfl _
  | nameRef => exact .node rfl _
  | atName => exact .node rfl _
  | parenthesized => exact .node rfl _
  | braced =>
    have hcomprehension : Builds setting enter Category.expr.admits comprehension := .node rfl _
    have hblock : Builds setting enter Category.expr.admits block := .node rfl _
    intro s
    simp only [AtomForm.rule, run_bind, run_ahead, run_ite]
    split
    · exact hcomprehension s
    · exact hblock s

/-- An expression begins with the node of an expression; if there is none, nothing is read. -/
theorem siblings_operandHead (setting : Setting) (enter : Nonterminal → State → Bool × State)
    (s : State) :
    operandHead.run setting enter s = (false, s) ∨
      (operandHead.run setting enter s).1 = true ∧
      ∃ kind children, Category.expr.admits kind = true ∧
        (operandHead.run setting enter s).2.siblings
          = .node kind children :: s.attachPending.siblings := by
  unfold operandHead
  simp only [run_bind, run_peek, run_atBinder]
  cases s.kindAt 0 with
  | none => exact .inl rfl
  | some k =>
    dsimp only
    cases (atBinder.run setting enter s).1 with
    | true => exact .inr ⟨rfl, builds_binder k s⟩
    | false =>
      rw [if_neg Bool.false_ne_true]
      cases hrow : Operator.frontRow? k with
      | some row =>
        dsimp only
        have hnode : Builds setting enter Category.expr.admits
            (Rule.node row.node (frontBody row k)) :=
          .node (Operator.form_of_row row (Operator.mem_table_of_frontRow? hrow)).2.2 _
        exact .inr ⟨rfl, hnode s⟩
      | none =>
        dsimp only
        unfold atom
        simp only [run_bind, run_peek]
        cases hform : AtomForm.ofTokens? (s.kindAt 0) (s.kindAt 1) with
        | none => exact .inl rfl
        | some form => exact .inr ⟨rfl, builds_atomForm hform s⟩

theorem unimplied_operandHead (henter : Steady enter) : Unimplied setting enter operandHead := by
  have hfront : ∀ row ∈ Operator.table, row.fixity.isFront = true → row.node ≠ .impliesExpr := by
    decide
  unfold operandHead
  refine ⟨trivial, fun first => ⟨advances_atBinder.unimplied, fun isBinder => ?_⟩⟩
  dsimp only
  split
  · trivial
  · simp only [every_ite, every_bind]
    refine ⟨fun _ => ⟨(advances_binder henter _).unimplied, fun _ => trivial⟩, fun _ => ?_⟩
    split
    · next row hrow =>
      have hnode := hfront row (Operator.mem_table_of_frontRow? hrow)
        (Operator.isFront_of_frontRow? hrow)
      simp [hnode, (advances_operand _ _).unimplied]
    · exact (advances_atom henter).unimplied

/-! ### Expressions -/

/-- The node of an expression at the beginning of a group, and what extends it. -/
theorem headed_extended {α : Type} (level : Nat) (hcalls : FillingCalls enter) (hs : s.Valid)
    {rule : Rule Nonterminal α} (hrule : Unimplied setting enter rule) {kind : NodeKind}
    {children : List Tree} (hkind : Category.expr.admits kind = true)
    (hsiblings : (rule.run setting enter (inner s)).2.siblings = [.node kind children]) :
    Headed ((extend level).run setting enter (rule.run setting enter (inner s)).2).2 := by
  have hempty : (inner s).Sound ImplicationFits := State.sound_of_siblings_eq_nil rfl
  refine headed_extend hcalls level _ (valid_run setting hcalls.steady rule (valid_inner hs))
    ⟨filling_unimplied hcalls hrule _ (valid_inner hs) hempty, ?_⟩
  rw [hsiblings]
  exact .expr hkind _

/-- What is read of an expression since its group began. -/
theorem expressionBody_place (setting : Setting) (level : Nat) (hcalls : FillingCalls enter)
    (hs : s.Valid) :
    ((expressionBody level).run setting enter (inner s)).2.Sound ImplicationFits ∧
      Tree.Place ((expressionBody level).run setting enter (inner s)).2.siblings := by
  simp only [expressionBody, run_bind, run_pure]
  obtain hnone | ⟨htrue, kind, children, hkind, hsiblings⟩ :=
    siblings_operandHead setting enter (inner s)
  · rw [hnone, run_when_false]
    exact ⟨State.sound_of_siblings_eq_nil rfl, 0, by simp, .nil⟩
  · have hextended := headed_extended level hcalls hs (unimplied_operandHead hcalls.steady) hkind
      hsiblings
    rw [htrue, run_when_true]
    exact ⟨hextended.1, 1, le_rfl, hextended.2⟩

theorem fills_expression (hcalls : FillingCalls enter) (hs : s.Valid) :
    s.Fills ((expression level).run setting enter s).2 :=
  State.fills_attachPending hs (expressionBody_place setting level hcalls hs).2 rfl

theorem filling_expression (hcalls : FillingCalls enter) :
    Maintains (State.Sound ImplicationFits) ((expression level).run setting enter) := by
  intro s hs hsound
  have hbody := expressionBody_place setting level hcalls hs
  exact sound_group (fun _ => .of_ne (by decide) _) hcalls.steady hsound hbody.1

/-- What is nested too deeply leaves its place without an expression. -/
theorem fills_expressionTooDeep (hs : s.Valid) :
    s.Fills (expressionTooDeep.runAlone setting s).2 := by
  simp only [expressionTooDeep, runAlone, run_bind, run_nthPasses, run_pure]
  cases (s.kindAt 0).any Operator.startsExpr with
  | false => exact State.fills_self s
  | true =>
    obtain ⟨reports, hreport⟩ := State.report_eq setting .tooDeep s
    rw [run_when_true, skipNested, run_bind, run_report, hreport]
    exact State.fills_attachPending hs ⟨0, by simp, .error _⟩ rfl

theorem fillingCalls_enter (setting : Setting) (levels : Nat) :
    FillingCalls (language.enter setting levels) := by
  induction levels with
  | zero =>
    refine ⟨language.steady_enter setting 0, fun symbol => ?_,
      fun level s hs => fills_expressionTooDeep hs⟩
    have hbeyond := advances_beyond setting (fun symbol : Empty => symbol.elim) symbol
    refine Every.maintains (fun kind (hkind : Plain kind) => .of_ne fun heq => ?_) (by decide)
      (steady_of_empty _) (fun symbol : Empty => symbol.elim) hbeyond
    rw [heq] at hkind
    exact hkind.1 rfl
  | succ levels ih =>
    refine ⟨language.steady_enter setting _, fun symbol => ?_,
      fun level s hs => fills_expression ih hs⟩
    cases symbol with
    | expression level => exact filling_expression ih
    | boundGroup => exact filling_advances ih (advances_boundGroup ih.steady)

/-! ### Assertions and modules -/

/-- A block, and what extends it, are read like an expression. -/
theorem filling_extendedBlock (hcalls : FillingCalls enter) :
    Maintains (State.Sound ImplicationFits)
      ((group (do block; extend 0) : Rule Nonterminal Unit).run setting enter) := by
  intro s hs hsound
  have hblock : Unimplied setting enter block := (advances_block hcalls.steady).unimplied
  have hextended := headed_extended 0 hcalls hs hblock (by rfl) rfl
  exact sound_group (fun _ => .of_ne (by decide) _) hcalls.steady hsound hextended.1

theorem filling_asserted (hcalls : FillingCalls enter) :
    Maintains (State.Sound ImplicationFits) (asserted.run setting enter) := by
  have henter := hcalls.steady
  have hlook {α : Type} (look : Rule Nonterminal α) (h : Unimplied setting enter look) :=
    filling_unimplied hcalls h
  unfold asserted
  refine .bind henter (hlook _ (by simp)) fun named => .bind henter (hlook _ (by simp)) fun brace =>
    .bind henter (hlook _ (by simp)) fun all => .bind henter (hlook _ (by simp)) fun declaration =>
    ?_
  refine .ite ?_ (.ite ?_ (.ite ?_ ?_))
  · exact filling_unimplied hcalls (by
      simp [advances_name.unimplied, (advances_block henter).unimplied])
  · exact .bind henter (filling_extendedBlock hcalls) fun _ => hlook _ (by simp)
  · exact filling_unimplied hcalls (by
      simp [atProperty, (advances_quantDecls henter).unimplied,
        (advances_binderBody henter).unimplied])
  · exact filling_unimplied hcalls (by simp [advances_expr.unimplied])

theorem filling_assertion (hcalls : FillingCalls enter) :
    Maintains (State.Sound ImplicationFits) (assertion.run setting enter) := by
  have henter := hcalls.steady
  have htail (form : AssertionForm) : Unimplied setting enter (assertionTail form) := by
    cases form <;>
      simp [assertionTail, optionalArguments, (advances_arguments henter).unimplied,
        (advances_scopeAndBounds henter).unimplied, advances_name.unimplied,
        (advances_expect _).unimplied, (advances_expectCloser _ _).unimplied]
  have hform (form : AssertionForm) : form.node ≠ .impliesExpr := by cases form <;> decide
  refine filling_group hcalls <| .bind henter (filling_unimplied hcalls (by simp)) fun _ =>
    .bind henter (filling_asserted hcalls) fun body => .ite ?_ ?_
  · exact filling_unimplied hcalls (by simp)
  · refine .bind henter (filling_unimplied hcalls (by simp)) fun tagged =>
      .bind henter (filling_unimplied hcalls (by simp)) fun tag => ?_
    split
    · next form _ => exact filling_unimplied hcalls (by simp [hform form, htail form])
    · exact filling_unimplied hcalls (by simp)

theorem filling_suiteItem (hcalls : FillingCalls enter) :
    Maintains (State.Sound ImplicationFits) (suiteItem.run setting enter) := by
  have henter := hcalls.steady
  unfold suiteItem
  refine .bind henter (filling_unimplied hcalls (by simp)) fun first =>
    .bind henter (filling_unimplied hcalls (by simp)) fun second => ?_
  split
  · exact filling_advances hcalls (advances_exampleDecl henter)
  · exact filling_advances hcalls (advances_testExpectDecl henter)
  · exact .bind henter (filling_assertion hcalls) fun _ => filling_unimplied hcalls (by simp)
  · exact filling_unimplied hcalls (by
      simp +decide [(advances_testExpectDecl henter).unimplied])

theorem filling_testSuiteDecl (hcalls : FillingCalls enter) :
    Maintains (State.Sound ImplicationFits) (testSuiteDecl.run setting enter) := by
  have henter := hcalls.steady
  have hskip : Unimplied setting enter (skipToken (.listItem .noTestConstruct)) := by simp +decide
  have hitems := Maintains.items henter (fun _ h => h.of_eq rfl rfl) .rbrace .noTestConstruct
    (filling_suiteItem hcalls) fun s hs h _ => filling_unimplied hcalls hskip s hs h
  have hwithin : Maintains (State.Sound ImplicationFits)
      ((within .testSuiteBody (items .rbrace .noTestConstruct suiteItem)).run setting enter) :=
    fun s hs h => (hitems { s with contexts := .testSuiteBody :: s.contexts } (hs.of_eq rfl rfl rfl)
      (h.of_eq rfl rfl)).of_eq rfl rfl
  have hblock : Maintains (State.Sound ImplicationFits)
      ((testBlock .testSuiteBody suiteItem).run setting enter) :=
    filling_node hcalls (by decide) <| .bind henter (filling_unimplied hcalls (by simp))
      fun opener => .bind henter (filling_unimplied hcalls (advances_expect _).unimplied)
      fun opened => .when <| .bind henter hwithin fun _ =>
        filling_unimplied hcalls (by simp [(advances_expectCloser _ _).unimplied])
  exact filling_node hcalls (by decide) <| .bind henter (filling_unimplied hcalls (by simp))
    fun _ => .bind henter (filling_unimplied hcalls (by simp)) fun _ =>
    .bind henter (filling_unimplied hcalls (by simp [(advances_expect _).unimplied])) fun _ =>
    .bind henter (filling_unimplied hcalls (by simp [advances_name.unimplied])) fun _ => hblock

theorem filling_paragraph (hcalls : FillingCalls enter) (form : ParagraphStart) :
    Maintains (State.Sound ImplicationFits) (form.rule.run setting enter) := by
  have henter := hcalls.steady
  cases form with
  | sig => exact filling_advances hcalls (advances_sigDecl henter)
  | pred => exact filling_advances hcalls (advances_predDecl henter)
  | func => exact filling_advances hcalls (advances_funDecl henter)
  | fact => exact filling_advances hcalls (advances_factDecl henter)
  | assertion => exact .ignore henter (filling_assertion hcalls)
  | command => exact filling_advances hcalls (advances_cmdDecl henter)
  | testSuite => exact filling_testSuiteDecl hcalls
  | testExpect => exact filling_advances hcalls (advances_testExpectDecl henter)
  | exampleTest => exact filling_advances hcalls (advances_exampleDecl henter)
  | inst => exact filling_advances hcalls (advances_instDecl henter)
  | option =>
    exact filling_unimplied hcalls (by
      simp [ParagraphStart.rule, optionDecl, (advances_qualName henter).unimplied,
        (advances_optionValue henter).unimplied])
  | sexpr => exact filling_advances hcalls advances_sexprDecl

theorem filling_declaration (hcalls : FillingCalls enter) (seen : Seen) :
    Maintains (State.Sound ImplicationFits) ((declaration seen).run setting enter) := by
  have henter := hcalls.steady
  unfold declaration
  refine .bind henter (filling_unimplied hcalls (by simp)) fun first =>
    .bind henter (filling_unimplied hcalls (by simp)) fun second =>
    .bind henter (filling_unimplied hcalls (by simp)) fun third => ?_
  split
  · exact filling_unimplied hcalls (by simp [(advances_moduleDecl henter).unimplied])
  · exact filling_unimplied hcalls (by simp [(advances_importDecl henter).unimplied])
  · exact filling_unimplied hcalls (by simp [advances_evalDecl.unimplied])
  · split
    · exact .bind henter (filling_unimplied hcalls (by simp)) fun _ =>
        .bind henter (filling_paragraph hcalls _) fun _ => .ofLooking fun _ => rfl
    · exact .ofLooking fun _ => rfl

theorem filling_sourceFile (hcalls : FillingCalls enter) :
    Maintains (State.Sound ImplicationFits) (sourceFile.run setting enter) := by
  have henter := hcalls.steady
  have hitem (seen : Seen) :
      Maintains (State.Sound ImplicationFits) ((moduleItem seen).run setting enter) :=
    .bind henter (filling_unimplied hcalls (by simp)) fun ended =>
      .ite (.ofLooking fun _ => rfl) <|
      .bind henter (.progress (filling_declaration hcalls seen)) fun _ =>
      filling_unimplied hcalls (by simp [(advances_skipUntil _ _).unimplied])
  exact .bind henter (filling_unimplied hcalls (by simp)) fun first =>
    .bind henter (.when (filling_advances hcalls (advances_moduleDecl henter))) fun _ =>
    .ignore henter (.loop henter (fun _ h => h.of_eq rfl rfl) _ hitem)

end Grammar
end RelLang
