import RelLang.Proofs.Grammar.Ending
import RelLang.Proofs.Grammar.Fits
import RelLang.Proofs.Rule.Sound

/-!
# What an expression leaves behind

A reading without reports that asks for an expression of a level gets one that is not
looser, and what is ahead of it then does not extend an expression of that level. It
is this that keeps operators in their places: what follows an operand could not have
gone into it.
-/

namespace RelLang

/-! ### Solid trees of a state -/

namespace State

variable {s : State}

/-- The solid trees of the innermost node or group, the last one first. -/
def solid (s : State) : List Tree := Tree.solid s.siblings

theorem solid_skippedTree {t : Token} (ht : t.kind.isSignificant = false) :
    t.skippedTree.isSkipped = true := by
  unfold Token.skippedTree
  split
  · rfl
  · next hvalid =>
    show t.kind.isTrivia = true
    simpa [TokenKind.isSignificant, hvalid] using ht

@[simp] theorem solid_attachPending (hs : s.Valid) : s.attachPending.solid = s.solid := by
  have hskipped : ((s.pending.map Token.skippedTree).reverse).filter (!·.isSkipped) = [] := by
    rw [List.filter_eq_nil_iff]
    intro t ht
    obtain ⟨u, hu, rfl⟩ := List.mem_map.mp (List.mem_reverse.mp ht)
    simp [solid_skippedTree (hs.pending u hu)]
  show Tree.solid ((s.pending.map Token.skippedTree).reverse ++ s.siblings) = _
  rw [Tree.solid, List.filter_append, hskipped]
  rfl

theorem solid_bump (hs : s.Valid) {k : TokenKind} (hk : s.kindAt 0 = some k) :
    ∃ text, s.bump.solid = .token k text :: s.solid := by
  cases hw : s.words with
  | nil => simp [kindAt, hw] at hk
  | cons w ws =>
    have hkind : w.token.kind = k := by simpa [kindAt, hw] using hk
    have htrivia : k.isTrivia = false := by
      have hsig := hs.token w (by rw [hw]; exact List.mem_cons_self)
      rw [hkind] at hsig
      simp only [TokenKind.isSignificant, Bool.and_eq_true, Bool.not_eq_true'] at hsig
      exact hsig.1
    refine ⟨w.token.text, ?_⟩
    rw [bump_of_words_eq_cons hw, ← solid_attachPending hs]
    show Tree.solid (w.token.leaf :: s.attachPending.siblings) = _
    rw [Token.leaf, hkind, Tree.solid_token_cons htrivia]
    rfl

/-- If all reports are kept, a report is not forgotten. -/
theorem reports_report_ne_nil {setting : Setting} (hkeep : setting.maxDiagnostics = none)
    (problem : Problem) (s : State) : (s.report setting problem).reports ≠ [] := by
  rw [reports_report hkeep]
  exact List.cons_ne_nil _ _

/-- The next token that the grammar sees is the current one. -/
theorem nextKind_rest (hs : s.Valid) : nextKind (s.rest.map Token.toPair) = s.kindAt 0 := by
  rw [nextKind_map, ← List.head?_filter, hs.filter_rest, kindAt]
  cases s.words <;> rfl

end State

namespace Grammar

open Rule

variable {setting : Setting} {enter : Nonterminal → State → Bool × State} {s t : State}
  {level : Nat}

/-- Where the body of a node begins. -/
def inner (s : State) : State := { s.attachPending with siblings := [] }

theorem valid_inner (hs : s.Valid) : (inner s).Valid :=
  hs.opened

@[simp] theorem solid_inner (s : State) : (inner s).solid = [] := rfl

@[simp] theorem kindAt_inner (s : State) (n : Nat) : (inner s).kindAt n = s.kindAt n := rfl

theorem solid_node (hs : s.Valid) {kind : NodeKind} (hkind : kind ≠ .error)
    (body : Rule Nonterminal Unit) :
    ((Rule.node kind body).run setting enter s).2.solid
      = .node kind (body.run setting enter (inner s)).2.siblings.reverse :: s.solid := by
  rw [← State.solid_attachPending hs]
  exact Tree.solid_node_cons hkind _ _

/-- The first of the tokens that a node holds, if skipped trees are left out. -/
theorem find?_tokenKinds_reverse {p : TokenKind → Bool}
    (hp : ∀ k, p k = true → k.isTrivia = false) (t : State) :
    (Tree.tokenKinds t.siblings.reverse).find? p
      = (Tree.tokenKinds t.solid.reverse).find? p := by
  rw [← Tree.find?_tokenKinds_solid hp, Tree.solid_reverse]
  rfl

/-! ### Operators -/

theorem solid_compareOperator (hs : s.Valid) {k first : TokenKind} {row : OperatorRow}
    (hrow : Operator.infixRow? k = some row) (hfirst : s.kindAt 0 = some first)
    (hk : k = first ∨ Operator.isNegation first = true ∧ s.kindAt 1 = some k) :
    ∃ op, (compareOperator.run setting enter s).2.solid = op :: s.solid ∧
      op.operator? = some k := by
  have htrivia := Operator.isTrivia_of_infixRow? hrow
  have hnegation := Operator.isNegation_of_infixRow? hrow
  refine ⟨_, solid_node hs (by decide) _, ?_⟩
  rw [Tree.operator?, find?_tokenKinds_reverse (by simp +contextual)]
  simp only [run_bind, run_nthPasses, kindAt_inner, hfirst, Option.any_some, run_bump]
  have hv := valid_inner hs
  cases hneg : Operator.isNegation first with
  | false =>
    obtain rfl : k = first := hk.resolve_right (by simp [hneg])
    obtain ⟨text, hsolid⟩ := State.solid_bump hv hfirst
    rw [run_when_false, hsolid]
    simpa [Tree.tokenKinds, Operator.isNegation_eq, htrivia] using hnegation
  | true =>
    have hsecond : s.kindAt 1 = some k := by
      obtain rfl | hk := hk
      · simp [hnegation] at hneg
      · exact hk.2
    obtain ⟨text₁, hsolid₁⟩ := State.solid_bump hv hfirst
    obtain ⟨text₂, hsolid₂⟩ := State.solid_bump ((State.reaches_bump _).valid hv)
      ((State.kindAt_bump _ 0).trans hsecond)
    rw [run_when_true, run_bump, hsolid₂, hsolid₁]
    have hskip : (!first.isTrivia && first != .punct .bang && first != .keyword .notKw) = false := by
      have hcases : first = .punct .bang ∨ first = .keyword .notKw := by
        simpa [Operator.isNegation_eq] using hneg
      obtain rfl | rfl := hcases <;> rfl
    have htake : (!k.isTrivia && k != .punct .bang && k != .keyword .notKw) = true := by
      simpa [Operator.isNegation_eq, htrivia] using hnegation
    simp [Tree.tokenKinds, hskip, htake]

theorem solid_bump_append (hs : s.Valid) : ∃ more, s.bump.solid = more ++ s.solid := by
  cases hk : s.kindAt 0 with
  | none =>
    rw [State.bump_of_words_eq_nil (State.kindAt_zero_eq_none.mp hk)]
    exact ⟨[], State.solid_attachPending hs⟩
  | some k =>
    obtain ⟨text, hsolid⟩ := State.solid_bump hs hk
    exact ⟨[.token k text], hsolid⟩

/-- A node that holds an arrow stands for it. -/
theorem operator?_arrowOp (h : ∃ text, Tree.token (.punct .arrow) text ∈ t.solid) :
    (Tree.node .arrowOp t.siblings.reverse).operator? = some (.punct .arrow) := by
  obtain ⟨text, hmem⟩ := h
  have hkinds : .punct .arrow ∈ Tree.tokenKinds t.siblings.reverse :=
    List.mem_filterMap.mpr ⟨_, List.mem_reverse.mpr (List.mem_filter.mp hmem).1, rfl⟩
  cases hfind : (Tree.tokenKinds t.siblings.reverse).find? (· == .punct .arrow) with
  | none => simpa using List.find?_eq_none.mp hfind _ hkinds
  | some k =>
    have hk := List.find?_some (p := (· == TokenKind.punct .arrow)) hfind
    rw [← eq_of_beq hk]
    exact hfind

theorem solid_arrowOperator (hs : s.Valid) {first : TokenKind} (hfirst : s.kindAt 0 = some first)
    (hk : first = .punct .arrow ∨
      Operator.arrowMultiplicities.contains first = true ∧ s.kindAt 1 = some (.punct .arrow)) :
    ∃ op, (arrowOperator.run setting enter s).2.solid = op :: s.solid ∧
      op.operator? = some (.punct .arrow) := by
  have hv := valid_inner hs
  refine ⟨_, solid_node hs (by decide) _, operator?_arrowOp ?_⟩
  have hquantifier : ∀ u : State, (atQuantifier.run setting enter u).2 = u :=
    fun u => ((sees_currentIn _).andAlso (fun _ => rfl) u).1
  simp only [run_bind, run_currentIn, kindAt_inner, hfirst, Option.any_some, run_bump, hquantifier,
    run_nthPasses]
  -- behind the arrow there may be one more token
  suffices harrow : ∃ t : State, t.Valid ∧ (∃ text, .token (.punct .arrow) text ∈ t.solid) ∧
      ((when (Operator.arrowMultiplicities.contains first) bump : Rule Nonterminal Unit).run setting
        enter (inner s)).2.bump = t by
    obtain ⟨t, ht, ⟨text, hmem⟩, heq⟩ := harrow
    rw [heq, run_when]
    split
    · obtain ⟨more, hmore⟩ := solid_bump_append ht
      exact ⟨text, by rw [run_bump, hmore]; exact List.mem_append_right _ hmem⟩
    · exact ⟨text, hmem⟩
  obtain rfl | ⟨hleft, hsecond⟩ := hk
  · obtain ⟨text, hsolid⟩ := State.solid_bump hv hfirst
    exact ⟨_, (State.reaches_bump _).valid hv, ⟨text, by rw [hsolid]; exact List.mem_cons_self⟩, rfl⟩
  · have hv₁ := (State.reaches_bump _).valid hv
    obtain ⟨text, hsolid⟩ := State.solid_bump hv₁ ((State.kindAt_bump _ 0).trans hsecond)
    rw [hleft]
    exact ⟨_, (State.reaches_bump _).valid hv₁, ⟨text, by rw [hsolid]; exact List.mem_cons_self⟩, rfl⟩

/-- The operator of an extension, read as one token or one node. -/
theorem solid_infixOperator (setting : Setting) (enter : Nonterminal → State → Bool × State)
    (hs : s.Valid) {first : TokenKind} {e : Operator.Extension}
    (hat : extensionAt s = some (first, e)) :
    ∃ op k row, ((infixOperator e.node).run setting enter s).2.solid = op :: s.solid ∧
      op.operator? = some k ∧ Operator.infixRow? k = some row ∧ e = .ofRow row := by
  obtain ⟨hfirst, he⟩ := extensionAt_eq_some.mp hat
  obtain ⟨k, row, hrow, rfl, hk⟩ := Operator.ofRow_of_extension? he
  have hmem := Operator.mem_table_of_infixRow? hrow
  have harrowRow : k = .punct .arrow → row.node = .arrowExpr := by
    rintro rfl
    obtain rfl := Option.some.inj hrow
    rfl
  unfold infixOperator
  split
  · next hnode =>
    have hnode : row.node = .compareExpr := hnode
    have hcompare : k = first ∨ Operator.isNegation first = true ∧ s.kindAt 1 = some k := by
      obtain hk | ⟨hneg, hsecond, -⟩ | ⟨-, -, hk⟩ := hk
      · exact .inl hk
      · exact .inr ⟨hneg, hsecond⟩
      · simp [harrowRow hk] at hnode
    obtain ⟨op, hsolid, hop⟩ := solid_compareOperator hs hrow hfirst hcompare
    exact ⟨op, k, row, hsolid, hop, hrow, rfl⟩
  · next hnode =>
    have hnode : row.node = .arrowExpr := hnode
    have hk' : k = .punct .arrow := by
      have hk := (Operator.mem_of_infixRow? hrow).2
      rwa [Operator.operators_arrow row hmem hnode, List.mem_singleton] at hk
    subst hk'
    have harrow : first = .punct .arrow ∨ Operator.arrowMultiplicities.contains first = true ∧
        s.kindAt 1 = some (.punct .arrow) := by
      obtain hk | ⟨-, -, hcompare⟩ | ⟨hmult, hsecond, -⟩ := hk
      · exact .inl hk.symm
      · simp [hnode] at hcompare
      · exact .inr ⟨hmult, hsecond⟩
    obtain ⟨op, hsolid, hop⟩ := solid_arrowOperator hs hfirst harrow
    exact ⟨op, _, row, hsolid, hop, hrow, rfl⟩
  · next hcompare harrow =>
    have hk' : k = first := by
      obtain hk | ⟨-, -, hnode⟩ | ⟨-, -, hk⟩ := hk
      · exact hk
      · exact absurd hnode hcompare
      · exact absurd (harrowRow hk) harrow
    subst hk'
    obtain ⟨text, hsolid⟩ := State.solid_bump hs hfirst
    exact ⟨_, k, row, hsolid, rfl, hrow, rfl⟩

/-! ### Operands behind operators -/

/-- One expression no looser than the level has been read, and what is ahead does not extend
it. -/
structure OperandRead (level : Nat) (s t : State) : Prop where
  solid : ∃ tree, t.solid = tree :: s.solid ∧ tree.AtLeast level
  stops : Stops level t

/-- What calls do in readings without reports. -/
structure Calls (enter : Nonterminal → State → Bool × State) : Prop where
  steady : Steady enter
  keeps : ∀ symbol, Keeps Fits (enter symbol)
  reads : ∀ level s, s.Valid → (enter (.expression level) s).2.reports = [] →
    (enter (.expression level) s).1 = true → OperandRead level s (enter (.expression level) s).2

theorem operandRead_operand (hkeep : setting.maxDiagnostics = none) (hcalls : Calls enter)
    (hs : s.Valid) (after : TokenKind)
    (hclean : ((operand level after).run setting enter s).2.reports = []) :
    OperandRead level s ((operand level after).run setting enter s).2 := by
  simp only [operand, run_bind, run_call] at hclean ⊢
  cases hpresent : (enter (.expression level) s).1 with
  | false =>
    rw [hpresent] at hclean
    exact absurd hclean (State.reports_report_ne_nil hkeep _ _)
  | true =>
    rw [hpresent] at hclean
    exact hcalls.reads level s hs hclean hpresent

/-- What stands behind the left operand of an operator. -/
structure TailRead (e : Operator.Extension) (s t : State) where
  op : Tree
  rhs : Tree
  tail : List Tree
  row : OperatorRow
  solid_eq : t.solid = tail.reverse ++ rhs :: op :: s.solid
  row_eq : op.operator?.bind Operator.infixRow? = some row
  e_eq : e = .ofRow row
  rhs_fits : rhs.AtLeast row.operandLevel
  tail_fits : TailFits e.node row.operandLevel (t.kindAt 0) tail
  stops : Stops row.operandLevel t

/-- What stands behind the right operand of an operator: an `else` with its operand if the
operator is an implication and an `else` is ahead, and nothing otherwise. -/
theorem tailFits_otherwise (hkeep : setting.maxDiagnostics = none) (hcalls : Calls enter)
    (hs : s.Valid) {kind : NodeKind} (hlevel : kind = .impliesExpr → level = Operator.impliesLevel)
    (hstops : Stops level s)
    (ht : ((when (kind == .impliesExpr && s.kindAt 0 == some (.keyword .elseKw)) (do
      bump
      operand Operator.impliesLevel (.keyword .elseKw))).run setting enter s).2 = t)
    (hclean : t.reports = []) :
    ∃ tail, t.solid = tail.reverse ++ s.solid ∧ TailFits kind level (t.kindAt 0) tail ∧
      Stops level t := by
  subst ht
  cases hcond : kind == .impliesExpr && s.kindAt 0 == some (.keyword .elseKw) with
  | false =>
    refine ⟨[], rfl, .inl ⟨rfl, fun himplies helse => ?_⟩, hstops⟩
    have helse : s.kindAt 0 = some (.keyword .elseKw) := helse
    simp [himplies, helse] at hcond
  | true =>
    obtain ⟨himplies, helse⟩ := Bool.and_eq_true_iff.mp hcond
    obtain rfl := hlevel (eq_of_beq himplies)
    rw [hcond] at hclean
    obtain ⟨text, hsolid⟩ := State.solid_bump hs (eq_of_beq helse)
    have hread := operandRead_operand hkeep hcalls ((State.reaches_bump s).valid hs) _ hclean
    obtain ⟨branch, hbranch, hfits⟩ := hread.solid
    refine ⟨[.token (.keyword .elseKw) text, branch], ?_, .inr ⟨text, branch, rfl, hfits⟩,
      hread.stops⟩
    rw [run_when_true, run_bind, run_bump, hbranch, hsolid]
    rfl

theorem tailRead_infixTail (hkeep : setting.maxDiagnostics = none) (hcalls : Calls enter)
    (hs : s.Valid) {first : TokenKind} {e : Operator.Extension}
    (hat : extensionAt s = some (first, e)) {operandLevel : Nat}
    (hlevel : e.operandLevel? = some operandLevel)
    (hclean : ((infixTail e.node operandLevel first).run setting enter s).2.reports = []) :
    Nonempty (TailRead e s ((infixTail e.node operandLevel first).run setting enter s).2) := by
  obtain ⟨op, k, row, hop, hk, hrow, he⟩ := solid_infixOperator setting enter hs hat
  have hoperand : operandLevel = row.operandLevel := by
    rw [he, Operator.Extension.ofRow] at hlevel
    dsimp only at hlevel
    split at hlevel
    · exact (Option.some.inj hlevel).symm
    · cases hlevel
  subst hoperand
  have himplies : e.node = .impliesExpr → row.operandLevel = Operator.impliesLevel := by
    rw [he]
    exact Operator.operandLevel_implies row (Operator.mem_table_of_infixRow? hrow)
  simp only [infixTail, run_bind, run_currentIs] at hclean ⊢
  have hv₁ := valid_run setting hcalls.steady (infixOperator e.node) hs
  generalize ((infixOperator e.node).run setting enter s).2 = s₁ at hclean hv₁ hop ⊢
  have hv₂ := valid_run setting hcalls.steady (operand row.operandLevel first) hv₁
  have hright : _ → OperandRead row.operandLevel s₁ _ := operandRead_operand hkeep hcalls hv₁ first
  generalize ((operand row.operandLevel first).run setting enter s₁).2 = s₂ at hclean hv₂ hright ⊢
  have hread := hright ((reaches_run setting hcalls.steady _ s₂).reports_eq_nil hclean)
  obtain ⟨rhs, hrhs, hfits⟩ := hread.solid
  obtain ⟨tail, htail, htailFits, hstops⟩ := tailFits_otherwise hkeep hcalls hv₂ himplies
    hread.stops rfl hclean
  refine ⟨op, rhs, tail, row, ?_, ?_, he, hfits, htailFits, hstops⟩
  · rw [htail, hrhs, hop]
  · rw [hk]
    exact hrow

/-! ### Extending an expression -/

/-- One expression has been read since the group began. It is not looser than the level, and if it
ends in the operand of an operator, what is ahead does not extend that operand. -/
def HeadRead (level : Nat) (s : State) : Prop :=
  ∃ kind children, s.solid = [.node kind children] ∧ (ExprForm.ofKind? kind).isSome = true ∧
    ∀ row ∈ Operator.table, row.node = kind →
      (row.fixity.isBinary = true → level ≤ row.level) ∧
      (row.fixity ≠ .behind → Stops row.operandLevel s)

/-- What is read as a whole is an operand. -/
theorem HeadRead.operandRead {trees : List Tree} (h : HeadRead level t) (hstops : Stops level t)
    (hs : s.solid = Tree.solid trees) :
    OperandRead level s { t with siblings := t.siblings ++ trees } := by
  obtain ⟨kind, children, hsolid, hexpr, hrows⟩ := h
  refine ⟨⟨.node kind children, ?_, hexpr, fun row hrow hnode => (hrows row hrow hnode).1⟩, hstops⟩
  show Tree.solid (t.siblings ++ trees) = _
  rw [Tree.solid, List.filter_append, hs]
  exact congrArg (· ++ Tree.solid trees) hsolid

/-- An operator may stand behind an expression if it is ahead of it. -/
theorem HeadRead.before {tree : Tree} (h : HeadRead level s) {first : TokenKind}
    {e : Operator.Extension} (hat : extensionAt s = some (first, e)) (hsolid : s.solid = [tree]) :
    tree.Before e.level := by
  obtain ⟨kind, children, htree, hexpr, hrows⟩ := h
  obtain rfl : tree = .node kind children := by
    rw [hsolid] at htree
    exact List.head_eq_of_cons_eq htree
  exact ⟨hexpr, fun row hrow hnode hfixity => (hrows row hrow hnode).2 hfixity first e hat⟩

theorem run_when_requireTemporal (hkeep : setting.maxDiagnostics = none) (temporal : Bool)
    (hclean : ((when temporal requireTemporal : Rule Nonterminal Unit).run setting enter
      s).2.reports = []) :
    ((when temporal requireTemporal : Rule Nonterminal Unit).run setting enter s).2 = s := by
  cases temporal with
  | false => rfl
  | true =>
    rw [run_when_true, run] at hclean ⊢
    split
    · rfl
    · next hoff =>
      rw [if_neg hoff] at hclean
      exact absurd hclean (State.reports_report_ne_nil hkeep _ _)

theorem fits_of_plain (kind : NodeKind) (hkind : Plain kind) (children : List Tree)
    (behind : List (TokenKind × String)) : Fits kind children behind :=
  ⟨fun h => absurd h hkind.1, fun h => absurd h hkind.2.1⟩

/-- A rule that makes no nodes of operators leaves those there are in their places. -/
theorem keeps_advances {α : Type} (hcalls : Calls enter) {rule : Rule Nonterminal α}
    (hrule : Advances setting enter rule) : Keeps Fits (rule.run setting enter) :=
  keeps_run fits_of_plain (by decide) hcalls.steady hcalls.keeps rule hrule

theorem ne_error_of_expr {kind : NodeKind} (h : (ExprForm.ofKind? kind).isSome = true) :
    kind ≠ .error := by
  rintro rfl
  cases h

/-- The node of an operator and what has been read of its parts. -/
theorem binaryParts_of_tailRead {e : Operator.Extension} (hs : t.Valid) (hhead : HeadRead level s)
    {first : TokenKind} (hat : extensionAt s = some (first, e)) (tail : TailRead e s t) :
    Nonempty (BinaryParts e.node t.siblings.reverse (t.rest.map Token.toPair)) := by
  obtain ⟨kind, children, hsolid, -⟩ := id hhead
  have hbefore := hhead.before hat hsolid
  have hlevel : e.level = tail.row.level := congrArg Operator.Extension.level tail.e_eq
  refine ⟨⟨tail.row, .node kind children, tail.op, tail.rhs, tail.tail, tail.row_eq,
    (congrArg Operator.Extension.node tail.e_eq).symm, ?_, ?_, tail.rhs_fits, ?_⟩⟩
  · have hread : Tree.solid t.siblings = _ := tail.solid_eq
    rw [Tree.solid_reverse, hread, hsolid]
    simp
  · rw [← hlevel]
    exact hbefore
  · rw [State.nextKind_rest hs]
    exact tail.tail_fits

/-- An operator with an operand behind it makes an expression of both operands. -/
theorem headRead_binary (hv : t.Valid) (hsound : t.Sound Fits) (hhead : HeadRead level s)
    {first : TokenKind} {e : Operator.Extension} (hat : extensionAt s = some (first, e))
    (hlevel : level ≤ e.level) (hform : ExprForm.ofKind? e.node = some .binary)
    (tail : TailRead e s t) :
    HeadRead level { t with siblings := [.node e.node t.siblings.reverse] } ∧
      State.Sound Fits { t with siblings := [.node e.node t.siblings.reverse] } := by
  have hparts := binaryParts_of_tailRead hv hhead hat tail
  have hexpr : (ExprForm.ofKind? e.node).isSome = true := by rw [hform]; rfl
  obtain ⟨_, -, hrow⟩ := Option.bind_eq_some_iff.mp tail.row_eq
  have hmem := Operator.mem_table_of_infixRow? hrow
  have hnode : tail.row.node = e.node := (congrArg Operator.Extension.node tail.e_eq).symm
  have hlevel' : level ≤ tail.row.level := by
    rw [tail.e_eq] at hlevel
    exact hlevel
  refine ⟨⟨e.node, _, Tree.solid_node_cons (ne_error_of_expr hexpr) _ [], hexpr, ?_⟩,
    hsound.wrap ⟨fun _ => hparts, fun hunary => ?_⟩⟩
  · intro other hother hsame
    obtain ⟨hsameLevel, hsameOperand, -⟩ := Operator.level_eq_of_node_eq tail.row hmem other hother
      (hnode.trans hsame.symm)
    rw [← hsameLevel, ← hsameOperand]
    exact ⟨fun _ => hlevel', fun _ => tail.stops⟩
  · rw [hform] at hunary
    cases hunary

/-- So does an operator behind its operand, and nothing that stands behind it is its operand. -/
theorem headRead_behind (hsound : t.Sound Fits) {row : OperatorRow} (hrow : row ∈ Operator.table)
    (hfixity : row.fixity = .behind) :
    HeadRead level { t with siblings := [.node row.node t.siblings.reverse] } ∧
      State.Sound Fits { t with siblings := [.node row.node t.siblings.reverse] } := by
  obtain ⟨hbinary, hunary, hexpr⟩ := Operator.form_of_row row hrow
  have hplain : Plain row.node := by
    refine ⟨fun h => ?_, fun h => ?_, fun h => ?_⟩
    · rw [← hbinary, hfixity] at h
      cases h
    · rw [← hunary, hfixity] at h
      cases h
    · rw [h] at hexpr
      cases hexpr
  refine ⟨⟨row.node, _, Tree.solid_node_cons (ne_error_of_expr hexpr) _ [], hexpr, ?_⟩,
    hsound.wrap (fits_of_plain row.node hplain _ _)⟩
  intro other hother hsame
  have hsameFixity := (Operator.level_eq_of_node_eq row hrow other hother hsame.symm).2.2
  rw [← hsameFixity, hfixity]
  exact ⟨nofun, fun h => absurd rfl h⟩

/-- An operator behind an expression makes an expression of both. -/
theorem headRead_extendBy (hkeep : setting.maxDiagnostics = none) (hcalls : Calls enter)
    (hs : s.Valid) (hsound : s.Sound Fits) (hhead : HeadRead level s) {first : TokenKind}
    {e : Operator.Extension} (hat : extensionAt s = some (first, e)) (hlevel : level ≤ e.level)
    (hclean : ((extendBy first e).run setting enter s).2.reports = []) :
    HeadRead level ((extendBy first e).run setting enter s).2 ∧
      ((extendBy first e).run setting enter s).2.Sound Fits := by
  obtain ⟨-, he⟩ := extensionAt_eq_some.mp hat
  obtain ⟨k, row, hrow, he', -⟩ := Operator.ofRow_of_extension? he
  have hmem := Operator.mem_table_of_infixRow? hrow
  have hnode : row.node = e.node := by rw [he']; rfl
  simp only [extendBy, run_bind, run_enclose] at hclean ⊢
  have hwhen := run_when_requireTemporal hkeep e.temporal
    ((reaches_run setting hcalls.steady (extensionTail first e) _).reports_eq_nil hclean)
  rw [hwhen] at hclean ⊢
  have hv := valid_run setting hcalls.steady (extensionTail first e) hs
  have hkept := keeps_advances hcalls (advances_extensionTail hcalls.steady first e) s hs hsound
    hclean
  cases hbinary : row.fixity.isBinary with
  | true =>
    have htail : extensionTail first e = infixTail e.node row.operandLevel first := by
      simp [extensionTail, he', Operator.Extension.ofRow, hbinary]
    have hoperand : e.operandLevel? = some row.operandLevel := by
      simp [he', Operator.Extension.ofRow, hbinary]
    have hform : ExprForm.ofKind? e.node = some .binary := by
      rw [← hnode]
      exact (Operator.form_of_row row hmem).1.mp hbinary
    rw [htail] at hclean hv hkept ⊢
    obtain ⟨tail⟩ := tailRead_infixTail hkeep hcalls hs hat hoperand hclean
    exact headRead_binary hv hkept hhead hat hlevel hform tail
  | false =>
    have hbehind := Fixity.eq_behind (Operator.mem_of_infixRow? hrow).1 hbinary
    rw [← hnode]
    exact headRead_behind hkept hmem hbehind

theorem extend_reads (hkeep : setting.maxDiagnostics = none) (hcalls : Calls enter)
    (hs : s.Valid) (hsound : s.Sound Fits) (hhead : HeadRead level s)
    (hclean : ((extend level).run setting enter s).2.reports = []) :
    HeadRead level ((extend level).run setting enter s).2 ∧
      ((extend level).run setting enter s).2.Sound Fits ∧
      Stops level ((extend level).run setting enter s).2 := by
  have hmoves : Moves setting enter (extendOnce level) := moves_extendOnce hcalls.steady level
  obtain ⟨u, -, hinv, hlast, hrun⟩ := repeated_last hcalls.steady hmoves
    (fun t => t.reports = [] → HeadRead level t ∧ t.Sound Fits)
    (fun t ht hinv hmore hround => by
      obtain ⟨-, hstep⟩ | ⟨first, e, hat, hlevel, hstep⟩ := run_extendOnce setting enter level t
      · rw [hstep] at hmore
        cases hmore
      · rw [hstep] at hround ⊢
        have hclean := (reaches_run setting hcalls.steady (extendBy first e) t).reports_eq_nil hround
        obtain ⟨hhead, hsound⟩ := hinv hclean
        exact headRead_extendBy hkeep hcalls ht hsound hhead hat hlevel hround)
    hs (fun _ => ⟨hhead, hsound⟩)
  obtain ⟨hstops, hstep⟩ | ⟨_, _, -, -, hstep⟩ := run_extendOnce setting enter level u
  · rw [hstep] at hrun
    rw [extend, hrun] at hclean ⊢
    exact ⟨(hinv hclean).1, (hinv hclean).2, hstops⟩
  · rw [hstep] at hlast
    cases hlast

/-! ### What an expression begins with -/

/-- The kinds of expressions that are not in the table of operators. -/
def Bare (kind : NodeKind) : Prop :=
  (ExprForm.ofKind? kind).isSome = true ∧ ∀ row ∈ Operator.table, row.node ≠ kind

instance (kind : NodeKind) : Decidable (Bare kind) := inferInstanceAs (Decidable (_ ∧ _))

theorem headRead_bare (hs : s.Valid) (hsolid : s.solid = []) {kind : NodeKind} (hkind : Bare kind)
    (body : Rule Nonterminal Unit) :
    HeadRead level ((Rule.node kind body).run setting enter s).2 := by
  have hnode : ((Rule.node kind body).run setting enter s).2.solid = _ :=
    solid_node hs (ne_error_of_expr hkind.1) body
  rw [hsolid] at hnode
  exact ⟨kind, _, hnode, hkind.1, fun row hrow hkind' => absurd hkind' (hkind.2 row hrow)⟩

theorem headRead_binder (hs : s.Valid) (hsolid : s.solid = []) (keyword : TokenKind) :
    HeadRead level ((binder keyword).run setting enter s).2 := by
  unfold binder
  split
  · exact headRead_bare hs hsolid (by decide) _
  · exact headRead_bare hs hsolid (by decide) _
  · exact headRead_bare hs hsolid (by decide) _

theorem bare_of_atomForm {first second : Option TokenKind} {kind : NodeKind}
    (h : AtomForm.ofTokens? first second = some (.oneToken kind)) : Bare kind := by
  unfold AtomForm.ofTokens? at h
  split at h <;> try split at h
  all_goals cases h <;> decide

theorem headRead_atomForm (hs : s.Valid) (hsolid : s.solid = [])
    {first second : Option TokenKind} {form : AtomForm}
    (h : AtomForm.ofTokens? first second = some form) :
    HeadRead level (form.rule.run setting enter s).2 := by
  cases form with
  | oneToken kind => exact headRead_bare hs hsolid (bare_of_atomForm h) _
  | negativeNumber => exact headRead_bare hs hsolid (by decide) _
  | nameRef => exact headRead_bare hs hsolid (by decide) _
  | atName => exact headRead_bare hs hsolid (by decide) _
  | parenthesized => exact headRead_bare hs hsolid (by decide) _
  | braced =>
    simp only [AtomForm.rule, run_bind, run_ahead, run_ite]
    split
    · exact headRead_bare hs hsolid (by decide) _
    · exact headRead_bare hs hsolid (by decide) _

/-- An operator in front of its operand. -/
def frontBody (row : OperatorRow) (k : TokenKind) : Rule Nonterminal Unit := do
  when row.temporal requireTemporal
  bump
  operand row.operandLevel k

theorem solid_frontBody (hkeep : setting.maxDiagnostics = none) (hcalls : Calls enter)
    (hs : s.Valid) {k : TokenKind} (hk : s.kindAt 0 = some k) (row : OperatorRow)
    (hclean : ((frontBody row k).run setting enter s).2.reports = []) :
    ∃ (text : String) (tree : Tree),
      ((frontBody row k).run setting enter s).2.solid = tree :: .token k text :: s.solid ∧
      Stops row.operandLevel ((frontBody row k).run setting enter s).2 := by
  simp only [frontBody, run_bind, run_bump] at hclean ⊢
  have hoperand := (reaches_run setting hcalls.steady (operand row.operandLevel k)
    _).reports_eq_nil hclean
  have hwhen := run_when_requireTemporal hkeep row.temporal
    ((State.reaches_bump _).reports_eq_nil hoperand)
  rw [hwhen] at hclean ⊢
  obtain ⟨text, hbump⟩ := State.solid_bump hs hk
  have hread := operandRead_operand hkeep hcalls ((State.reaches_bump _).valid hs) k hclean
  obtain ⟨tree, htree, -⟩ := hread.solid
  refine ⟨text, tree, ?_, hread.stops⟩
  rw [htree, hbump]

theorem headRead_front (hkeep : setting.maxDiagnostics = none) (hcalls : Calls enter)
    (hs : s.Valid) (hsolid : s.solid = []) (hsound : s.Sound Fits) {k : TokenKind}
    (hk : s.kindAt 0 = some k) {row : OperatorRow} (hrow : Operator.frontRow? k = some row)
    (hclean : ((Rule.node row.node (frontBody row k)).run setting enter s).2.reports = []) :
    HeadRead level ((Rule.node row.node (frontBody row k)).run setting enter s).2 ∧
      ((Rule.node row.node (frontBody row k)).run setting enter s).2.Sound Fits := by
  have hmem := Operator.mem_table_of_frontRow? hrow
  have hform := Operator.form_of_row row hmem
  have hfront := Operator.isFront_of_frontRow? hrow
  have hbody : Advances setting enter (frontBody row k) := by simp [frontBody]
  have hv := valid_inner hs
  have hclean : ((frontBody row k).run setting enter (inner s)).2.reports = [] := hclean
  have hkept := keeps_advances hcalls hbody (inner s) hv (State.sound_of_siblings_eq_nil rfl) hclean
  obtain ⟨text, tree, hinner, hstops⟩ := solid_frontBody hkeep hcalls hv hk row hclean
  have hnode : ((Rule.node row.node (frontBody row k)).run setting enter s).2.solid = _ :=
    solid_node hs (ne_error_of_expr hform.2.2) _
  rw [hsolid] at hnode
  refine ⟨⟨row.node, _, hnode, hform.2.2, fun other hother hsame => ?_⟩,
    sound_node (fun _ => fits_of_plain .error (by decide) _) hcalls.steady hsound rfl hkept ⟨?_, ?_⟩⟩
  · obtain ⟨-, hoperand, hfixity⟩ := Operator.level_eq_of_node_eq row hmem other hother hsame.symm
    rw [← hoperand, ← hfixity]
    refine ⟨fun hbinary => ?_, fun _ => hstops⟩
    rw [Fixity.isBinary_of_isFront hfront] at hbinary
    cases hbinary
  · intro hbinary
    have hunary := hform.2.1.mp hfront
    rw [hbinary] at hunary
    cases hunary
  · intro _
    refine ⟨⟨row, k, text, tree, hrow, rfl, ?_⟩⟩
    have hread : Tree.solid ((frontBody row k).run setting enter (inner s)).2.siblings = _ := hinner
    exact (Tree.solid_reverse _).trans (congrArg List.reverse hread)

theorem run_atBinder (s : State) : (atBinder.run setting enter s).2 = s := by
  have hquantifier : (atQuantifier.run setting enter s).2 = s :=
    ((sees_currentIn _).andAlso (fun _ => rfl) s).1
  rw [atBinder, run_orElse]
  split
  · rfl
  · exact hquantifier

theorem headRead_atom (hs : s.Valid) (hsolid : s.solid = [])
    (htrue : (atom.run setting enter s).1 = true) :
    HeadRead level (atom.run setting enter s).2 := by
  unfold atom at htrue ⊢
  simp only [run_bind, run_peek] at htrue ⊢
  cases hform : AtomForm.ofTokens? (s.kindAt 0) (s.kindAt 1) with
  | none =>
    rw [hform] at htrue
    cases htrue
  | some form => exact headRead_atomForm hs hsolid hform

/-- An expression begins with something that is no node of an operator between operands. -/
theorem operandHead_reads (level : Nat) (hkeep : setting.maxDiagnostics = none)
    (hcalls : Calls enter) (hs : s.Valid) (hsolid : s.solid = []) (hsound : s.Sound Fits)
    (hclean : (operandHead.run setting enter s).2.reports = []) :
    (operandHead.run setting enter s).2.Sound Fits ∧
      ((operandHead.run setting enter s).1 = true →
        HeadRead level (operandHead.run setting enter s).2) := by
  unfold operandHead at hclean ⊢
  simp only [run_bind, run_peek, run_atBinder] at hclean ⊢
  cases hk : s.kindAt 0 with
  | none => exact ⟨hsound, nofun⟩
  | some k =>
    rw [hk] at hclean
    dsimp only at hclean ⊢
    cases hbinder : (atBinder.run setting enter s).1 with
    | true =>
      rw [hbinder] at hclean
      exact ⟨keeps_advances hcalls (advances_binder hcalls.steady k) s hs hsound hclean,
        fun _ => headRead_binder hs hsolid k⟩
    | false =>
      rw [hbinder, if_neg Bool.false_ne_true] at hclean
      rw [if_neg Bool.false_ne_true]
      cases hrow : Operator.frontRow? k with
      | some row =>
        rw [hrow] at hclean
        obtain ⟨hhead, hfront⟩ := headRead_front hkeep hcalls hs hsolid hsound hk hrow hclean
        exact ⟨hfront, fun _ => hhead⟩
      | none =>
        rw [hrow] at hclean
        exact ⟨keeps_advances hcalls (advances_atom hcalls.steady) s hs hsound hclean,
          headRead_atom hs hsolid⟩

/-! ### Expressions -/

/-- What stands between the beginning and the end of an expression. -/
def expressionBody (level : Nat) : Rule Nonterminal Bool := do
  let present ← operandHead
  when present (extend level)
  return present

theorem expressionBody_reads (level : Nat) (hkeep : setting.maxDiagnostics = none)
    (hcalls : Calls enter) (hs : s.Valid) (hsolid : s.solid = []) (hsound : s.Sound Fits)
    (hclean : ((expressionBody level).run setting enter s).2.reports = []) :
    ((expressionBody level).run setting enter s).2.Sound Fits ∧
      (((expressionBody level).run setting enter s).1 = true →
        HeadRead level ((expressionBody level).run setting enter s).2 ∧
          Stops level ((expressionBody level).run setting enter s).2) := by
  simp only [expressionBody, run_bind, run_pure] at hclean ⊢
  have hv := valid_run setting hcalls.steady operandHead hs
  obtain ⟨hkept, hhead⟩ := operandHead_reads level hkeep hcalls hs hsolid hsound
    ((reaches_run setting hcalls.steady (when _ (extend level)) _).reports_eq_nil hclean)
  cases hpresent : (operandHead.run setting enter s).1 with
  | false => exact ⟨hkept, nofun⟩
  | true =>
    rw [hpresent] at hclean
    obtain ⟨hread, hsound', hstops⟩ := extend_reads hkeep hcalls hv hkept (hhead hpresent) hclean
    exact ⟨hsound', fun _ => ⟨hread, hstops⟩⟩

theorem keeps_expression (hkeep : setting.maxDiagnostics = none) (hcalls : Calls enter) :
    Keeps Fits ((expression level).run setting enter) := by
  intro s hs hsound hclean
  have hbody := expressionBody_reads level hkeep hcalls (valid_inner hs) rfl
    (State.sound_of_siblings_eq_nil rfl) hclean
  exact sound_group (fun _ => fits_of_plain .error (by decide) _) hcalls.steady hsound hbody.1

theorem expression_reads (hkeep : setting.maxDiagnostics = none) (hcalls : Calls enter)
    (hs : s.Valid) (hclean : ((expression level).run setting enter s).2.reports = [])
    (htrue : ((expression level).run setting enter s).1 = true) :
    OperandRead level s ((expression level).run setting enter s).2 := by
  obtain ⟨-, hread⟩ := expressionBody_reads level hkeep hcalls (valid_inner hs) rfl
    (State.sound_of_siblings_eq_nil rfl) hclean
  obtain ⟨hhead, hstops⟩ := hread htrue
  exact hhead.operandRead hstops (State.solid_attachPending hs).symm

/-- What is nested too deeply is reported. -/
theorem reports_expressionTooDeep (hkeep : setting.maxDiagnostics = none)
    (htrue : (expressionTooDeep.runAlone setting s).1 = true) :
    (expressionTooDeep.runAlone setting s).2.reports ≠ [] := by
  intro hclean
  simp only [expressionTooDeep, runAlone, run_bind, run_nthPasses, run_pure] at htrue hclean
  rw [htrue] at hclean
  have hreport := (reaches_run setting (steady_of_empty _) _
    (s.report setting .tooDeep)).reports_eq_nil hclean
  exact State.reports_report_ne_nil hkeep _ _ hreport

/-- What calls do as deep as there are levels. -/
theorem calls_enter (hkeep : setting.maxDiagnostics = none) (levels : Nat) :
    Calls (language.enter setting levels) := by
  induction levels with
  | zero =>
    refine ⟨language.steady_enter setting 0, fun symbol => ?_, fun level s hs hclean htrue => ?_⟩
    · refine keeps_run fits_of_plain (by decide) (steady_of_empty _) ?_ _
        (advances_beyond setting (fun symbol => symbol.elim) symbol)
      exact fun symbol => symbol.elim
    · exact absurd hclean (reports_expressionTooDeep hkeep htrue)
  | succ levels ih =>
    refine ⟨language.steady_enter setting _, fun symbol => ?_, fun level s hs hclean htrue => ?_⟩
    · cases symbol with
      | expression level => exact keeps_expression hkeep ih
      | boundGroup => exact keeps_advances ih (advances_boundGroup ih.steady)
    · exact expression_reads hkeep ih hs hclean htrue

end Grammar
end RelLang
