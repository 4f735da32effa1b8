import RelLang.Proofs.Grammar.Decide
import RelLang.Proofs.Grammar.Implication

/-!
# An expression is one node or nothing

Whether there is an expression is decided in several places: by the level that is left, by the
keyword of a binder, by the table of operators, and by the first tokens of an atom. Wherever it is
decided, an expression that is there has a token at its front that can begin one, takes tokens, and
leaves one node; and one that is not there has touched nothing but the skipped tokens.
-/

namespace RelLang

/-- Where nothing is pending, a rule that puts a token into the tree takes words. -/
theorem State.Reaches.taken {s t : State} (h : s.Reaches t) (hs : s.Valid)
    (hpending : s.pending = []) (hlt : t.left < s.left) :
    ∃ words, words ≠ [] ∧ s.words = words ++ t.words := by
  obtain ⟨words, hwords⟩ := h.words
  refine ⟨words, ?_, hwords.symm⟩
  rintro rfl
  rw [List.nil_append] at hwords
  have hleft := hs.left_eq
  have hleft' := (h.valid hs).left_eq
  rw [State.rest, hpending, List.nil_append] at hleft
  rw [State.rest, hwords, List.length_append] at hleft'
  omega

namespace Grammar

open Rule

/-- What has been made of a state by a rule that tells whether it has found something. If it has
not, at most the skipped tokens in front of the current one have come into the tree. If it has, the
current token was one that can begin an expression, tokens were taken, and one node, of a passing
kind, has come behind the skipped tokens. -/
structure NodeOrNothing (kinds : NodeKind → Prop) (s : State) (r : Bool × State) : Prop where
  absent : r.1 = false → r.2 = s ∨ r.2 = s.attachPending
  starts : r.1 = true → (s.kindAt 0).any Operator.startsExpr = true
  taken : r.1 = true → ∃ words, words ≠ [] ∧ s.words = words ++ r.2.words
  node : r.1 = true → ∃ kind children, kinds kind ∧
    r.2.siblings = .node kind children :: s.attachPending.siblings

theorem NodeOrNothing.mono {kinds kinds' : NodeKind → Prop} {s : State} {r : Bool × State}
    (h : NodeOrNothing kinds s r) (hkinds : ∀ kind, kinds kind → kinds' kind) :
    NodeOrNothing kinds' s r where
  absent := h.absent
  starts := h.starts
  taken := h.taken
  node hfound := by
    obtain ⟨kind, children, hkind, hnode⟩ := h.node hfound
    exact ⟨kind, children, hkinds kind hkind, hnode⟩

section

variable {setting : Setting} {enter : Nonterminal → State → Bool × State} {level : Nat}
  {s t : State}

/-! ### What an expression begins with -/

theorem startsExpr_of_isBinderOnly {k : TokenKind} (h : isBinderOnly k = true) :
    Operator.startsExpr k = true := by
  unfold isBinderOnly at h
  split at h
  · rfl
  · rfl
  · rfl
  · rfl
  · cases h

theorem startsExpr_of_quantifier : ∀ k ∈ Operator.quantifiers, Operator.startsExpr k = true := by
  decide

/-- A binder begins with a token that can begin an expression. -/
theorem startsExpr_of_atBinder {k : TokenKind} (hk : s.kindAt 0 = some k)
    (h : (atBinder.run setting enter s).1 = true) : Operator.startsExpr k = true := by
  rw [atBinder, run_orElse, run_nthPasses, hk, Option.any_some] at h
  split at h
  · next honly => exact startsExpr_of_isBinderOnly honly
  · rw [atQuantifier, run_andAlso, run_currentIn, hk, Option.any_some] at h
    split at h
    · next hquantifier => exact startsExpr_of_quantifier k (List.contains_iff_mem.mp hquantifier)
    · cases h

theorem startsExpr_of_frontRow {k : TokenKind} {row : OperatorRow}
    (h : Operator.frontRow? k = some row) : Operator.startsExpr k = true := by
  unfold Operator.startsExpr
  split
  all_goals first | rfl | rw [h, Option.isSome_some, Bool.or_true]

/-- An atom begins with a token that can begin an expression. -/
theorem startsExpr_of_atomForm {k : TokenKind} {second : Option TokenKind} {form : AtomForm}
    (h : AtomForm.ofTokens? (some k) second = some form) : Operator.startsExpr k = true := by
  unfold AtomForm.ofTokens? at h
  split at h
  case h_15 => cases h
  all_goals
    next hk =>
    obtain rfl := Option.some.inj hk
    rfl

/-- What begins an expression begins with a token that can. -/
theorem startsExpr_of_operandHead (h : (operandHead.run setting enter s).1 = true) :
    (s.kindAt 0).any Operator.startsExpr = true := by
  unfold operandHead at h
  simp only [run_bind, run_peek, run_atBinder_snd] at h
  cases hk : s.kindAt 0 with
  | none =>
    rw [hk] at h
    cases h
  | some k =>
    rw [hk] at h
    rw [Option.any_some]
    simp only [run_ite] at h
    split at h
    · next hbinder => exact startsExpr_of_atBinder hk hbinder
    · cases hrow : Operator.frontRow? k with
      | some row => exact startsExpr_of_frontRow hrow
      | none =>
        rw [hrow] at h
        simp only [atom, run_bind, run_peek, hk] at h
        cases hform : AtomForm.ofTokens? (some k) (s.kindAt 1) with
        | some form => exact startsExpr_of_atomForm hform
        | none =>
          rw [hform] at h
          cases h

/-! ### Expressions -/

theorem encloses_extendBy (k : TokenKind) (e : Operator.Extension) :
    Encloses setting enter (fun _ => true) (extendBy k e) :=
  .behind _ fun _ => .enclose rfl _

/-- Operators behind one node leave one node. -/
theorem extend_single (henter : Steady enter) (level : Nat) (hs : s.Valid)
    (hnode : ∃ kind children, s.siblings = [.node kind children]) :
    ∃ kind children, ((extend level).run setting enter s).2.siblings = [.node kind children] := by
  have hmoves : Moves setting enter (extendOnce level) := moves_extendOnce henter level
  obtain ⟨t, -, hinv, hlast, hrun⟩ := repeated_last henter hmoves
    (fun t => ∃ kind children, t.siblings = [.node kind children])
    (fun t _ hinv hmore => by
      obtain ⟨-, hstep⟩ | ⟨k, e, -, -, hstep⟩ := run_extendOnce setting enter level t
      · rw [hstep] at hmore
        cases hmore
      · rw [hstep]
        have hencloses : Encloses setting enter (fun _ => true) (extendBy k e) :=
          encloses_extendBy k e
        obtain ⟨kind, children, -, hnode⟩ := hencloses t
        exact ⟨kind, children, hnode⟩)
    hs hnode
  obtain ⟨-, hstep⟩ | ⟨_, _, -, -, hstep⟩ := run_extendOnce setting enter level t
  · rw [extend, hrun, hstep]
    exact hinv
  · rw [hstep] at hlast
    cases hlast

theorem nodeOrNothing_expression (henter : Steady enter) (level : Nat) (hs : s.Valid) :
    NodeOrNothing (fun _ => True) s ((expression level).run setting enter s) := by
  let t : State := { s.attachPending with siblings := [] }
  have ht : t.Valid := hs.opened
  have hrun : (expression level).run setting enter s
      = ((operandHead.run setting enter t).1,
        let u := ((when (operandHead.run setting enter t).1 (extend level)).run setting enter
          (operandHead.run setting enter t).2).2
        { u with siblings := u.siblings ++ s.attachPending.siblings }) := rfl
  have hdecides : (operandHead.run setting enter t).1 = true ∧
        (operandHead.run setting enter t).2.left < t.left ∨
      operandHead.run setting enter t = (false, t) :=
    operandHead_decides henter ht
  rw [hrun]
  cases hfound : (operandHead.run setting enter t).1 with
  | false =>
    refine ⟨fun _ => .inr ?_, nofun, nofun, nofun⟩
    obtain ⟨htrue, -⟩ | hnone := hdecides
    · rw [hfound] at htrue
      cases htrue
    · rw [hnone]
      rfl
  | true =>
    have hstarts := startsExpr_of_operandHead hfound
    have hhead : ∃ kind children,
        (operandHead.run setting enter t).2.siblings = [.node kind children] := by
      obtain hnone | ⟨-, kind, children, -, hnode⟩ := siblings_operandHead setting enter t
      · rw [hnone] at hfound
        cases hfound
      · exact ⟨kind, children, hnode⟩
    have hv := valid_run setting henter operandHead ht
    have hreach := (reaches_run setting henter operandHead t).trans
      (reaches_run setting henter (extend level) _)
    refine ⟨nofun, fun _ => hstarts, fun _ => ?_, fun _ => ?_⟩
    · obtain ⟨-, htook⟩ | hnone := hdecides
      · exact hreach.taken ht rfl
          (Nat.lt_of_le_of_lt (left_run_le setting henter (extend level) hv) htook)
      · rw [hnone] at hfound
        cases hfound
    · obtain ⟨kind, children, hnode⟩ := extend_single henter level hv hhead
      exact ⟨kind, children, trivial, congrArg (· ++ s.attachPending.siblings) hnode⟩

/-- Past the last level what can begin an expression is skipped into an error node. -/
theorem nodeOrNothing_tooDeep (hs : s.Valid) :
    NodeOrNothing (· = .error) s (expressionTooDeep.runAlone setting s) := by
  have hrun : expressionTooDeep.runAlone setting s
      = ((s.kindAt 0).any Operator.startsExpr,
        ((when ((s.kindAt 0).any Operator.startsExpr) skipNested : Rule Empty Unit).runAlone
          setting s).2) := rfl
  rw [hrun]
  cases hstarts : (s.kindAt 0).any Operator.startsExpr with
  | false =>
    have hno {p : Prop} (h : false = true) : p := absurd h Bool.false_ne_true
    exact ⟨fun _ => .inl rfl, hno, hno, hno⟩
  | true =>
    obtain ⟨kind, hkind, hstart⟩ := (Option.any_eq_true _ _).mp hstarts
    obtain ⟨reports, hreport⟩ := State.report_eq setting .tooDeep s
    let t : State := { s.attachPending with siblings := [], reports }
    have ht : t.Valid := hs.opened.of_eq rfl rfl rfl
    have hskip : (when true skipNested : Rule Empty Unit).runAlone setting s
        = (Rule.node .error nestedText : Rule Empty Unit).runAlone setting { s with reports } := by
      rw [runAlone, run_when_true, skipNested_eq, run_bind, run_report, hreport]
      rfl
    rw [hskip]
    have htook : (nestedText.runAlone setting t).2.left < t.left :=
      takesFrom_nestedText (steady_of_empty _) hkind (isCloser_of_startsExpr hstart) t ht rfl
    have hreach : t.Reaches (nestedText.runAlone setting t).2 :=
      reaches_run setting (steady_of_empty _) nestedText t
    exact ⟨fun h => absurd h.symm Bool.false_ne_true, fun _ => hstarts,
      fun _ => hreach.taken ht rfl htook, fun _ => ⟨.error, _, rfl, rfl⟩⟩

/-- A call of an expression finds one node or nothing, and past the last level an error node. -/
theorem nodeOrNothing_enter (levels level : Nat) (hs : s.Valid) :
    NodeOrNothing (fun kind => levels = 0 → kind = .error) s
      (language.enter setting levels (.expression level) s) := by
  cases levels with
  | zero => exact (nodeOrNothing_tooDeep hs).mono fun _ hkind _ => hkind
  | succ levels =>
    exact (nodeOrNothing_expression (language.steady_enter setting levels) level hs).mono
      fun _ _ hzero => nomatch hzero

end

end Grammar
end RelLang
