import Mathlib.Order.Bounds.Defs
import RelLang.Proofs.Parse.Nesting
import RelLang.Proofs.Parse.Visit

/-!
# What is skipped stays inside its group

Wherever a reading comes to text that is nested too deeply, the text is skipped up to the end of the
group that its first token opens, or else up to the end of the group around it. So no closing mark
is taken that belongs to a group around, and the groups that have been read can be closed.
-/

namespace RelLang

namespace Grammar

open Rule

/-- What skipping `n` words makes of a state. -/
structure SkipsNested (setting : Setting) (n : Nat) (s t : State) : Prop where
  /-- Some words are taken. -/
  taken : 0 < n ∧ n ≤ s.words.length ∧ t.words = s.words.drop n
  /-- All of their tokens, and the skipped ones between them, stand side by side in one error node;
  no node is in it but those around invalid tokens. -/
  node : ∃ children, t.siblings = .node .error children :: s.attachPending.siblings ∧
    children ++ t.pending.map Token.skippedTree = (s.words.take n).flatMap Word.trees ∧
    ∀ child ∈ children, (∃ kind text, child = .token kind text) ∨
      ∃ text, child = .node .error [.token .invalid text]
  /-- One report is made, which is not fatal, and it is kept unless the cap drops it. -/
  report : ∃ r : Report, r.problem = .tooDeep ∧ r.toDiagnostic.code.label = "E0804" ∧
    r.fatal = false ∧ t.reports = (s.keep setting r).reports
  /-- Nowhere have more groups been closed than opened. -/
  depth : ∀ m ≤ n, 0 ≤ groupDepth (s.kinds.take m)
  /-- A group is skipped up to where it is closed. -/
  closed : (s.kindAt 0).any TokenKind.isOpener = true →
    ∀ m, IsLeast {m | 0 < m ∧ m ≤ s.kinds.length ∧ groupDepth (s.kinds.take m) = 0} m → n = m
  /-- A group that is not closed is skipped up to the end. -/
  unclosed : (s.kindAt 0).any TokenKind.isOpener = true →
    (∀ m, 0 < m → m ≤ s.kinds.length → groupDepth (s.kinds.take m) ≠ 0) → n = s.kinds.length
  /-- Other text is skipped up to the first place where no group is open and one is closed or an
  open context waits for what is next, or up to the end. -/
  plain : (s.kindAt 0).any TokenKind.isOpener = false →
    IsLeast {m | 0 < m ∧ (s.kinds.length ≤ m ∨ groupDepth (s.kinds.take m) = 0 ∧
      (s.kindAt m).any (skipStops s.contexts) = true)} n

section

variable {setting : Setting} {n : Nat} {s t : State}

/-- The first place where the skipping of a group may end is where the group is closed. -/
theorem eq_of_isLeast_closed (hends : SkipEnds (skipStops s.contexts) s.kinds n)
    (hfirst : ∀ m, 1 ≤ m → m < n → ¬ SkipEnds (skipStops s.contexts) s.kinds m) (hn : 0 < n)
    (hgroup : (s.kindAt 0).any TokenKind.isOpener = true) {m : Nat}
    (hm : IsLeast {m | 0 < m ∧ m ≤ s.kinds.length ∧ groupDepth (s.kinds.take m) = 0} m) :
    n = m := by
  obtain ⟨⟨hpos, hle, hclosed⟩, hleast⟩ := hm
  rw [State.kindAt_eq] at hgroup
  have hge : n ≤ m := by
    by_contra hlt
    exact hfirst m hpos (Nat.lt_of_not_le hlt) (.inr ⟨hclosed, .inl hgroup⟩)
  obtain hend | ⟨hzero, -⟩ := hends
  · exact Nat.le_antisymm hge (hle.trans hend)
  · exact Nat.le_antisymm hge (hleast ⟨hn, hge.trans hle, hzero⟩)

theorem isLeast_plain (hends : SkipEnds (skipStops s.contexts) s.kinds n)
    (hfirst : ∀ m, 1 ≤ m → m < n → ¬ SkipEnds (skipStops s.contexts) s.kinds m) (hn : 0 < n)
    (hgroup : (s.kindAt 0).any TokenKind.isOpener = false) :
    IsLeast {m | 0 < m ∧ (s.kinds.length ≤ m ∨ groupDepth (s.kinds.take m) = 0 ∧
      (s.kindAt m).any (skipStops s.contexts) = true)} n := by
  have hiff (m : Nat) : SkipEnds (skipStops s.contexts) s.kinds m ↔ s.kinds.length ≤ m ∨
      groupDepth (s.kinds.take m) = 0 ∧ (s.kindAt m).any (skipStops s.contexts) = true := by
    rw [State.kindAt_eq] at hgroup
    rw [SkipEnds, hgroup, State.kindAt_eq, Bool.false_eq_true, false_or]
  refine ⟨⟨hn, (hiff n).mp hends⟩, fun m hm => ?_⟩
  by_contra hlt
  exact hfirst m hm.1 (Nat.lt_of_not_le hlt) ((hiff m).mpr hm.2)

/-- In front of a token that closes no group, skipping does what is said of it. -/
theorem skipsNested {ν : Type} {enter : ν → State → Bool × State} (henter : Steady enter)
    (hs : s.Valid) {k : TokenKind} (hk : s.kindAt 0 = some k) (hcloser : k.isCloser = false) :
    ∃ n, SkipsNested setting n s ((skipNested : Rule ν Unit).run setting enter s).2 := by
  obtain ⟨n, t, hrun, hn, hcomes, hends, hwords, hreports, children, hnode, htrees⟩ :=
    run_skipNested setting henter hs hk hcloser
  have hlength : s.kinds.length = s.words.length := List.length_map _
  have hready : s.words.isEmpty = false := by
    cases hw : s.words with
    | nil =>
      rw [State.kindAt_zero_eq_none.mpr hw] at hk
      cases hk
    | cons => rfl
  have hlabel : Code.tooDeep.label = "E0804" := by decide
  rw [hrun]
  refine ⟨n, ?_⟩
  constructor
  case taken => exact ⟨hn, hlength ▸ hcomes.le, hwords⟩
  case node =>
    refine ⟨children, hnode, htrees, fun child hchild => ?_⟩
    have hmem : child ∈ (s.words.take n).flatMap Word.trees :=
      htrees ▸ List.mem_append_left _ hchild
    obtain ⟨w, -, hchild⟩ := List.mem_flatMap.mp hmem
    exact mem_trees hchild
  case report =>
    exact ⟨⟨.tooDeep, s.found, s.context, s.currentRange setting, s.words.isEmpty⟩, rfl, hlabel,
      hready, hreports⟩
  case depth => exact hcomes.depth
  case closed => exact fun hgroup m => eq_of_isLeast_closed hends hcomes.first hn hgroup
  case unclosed =>
    intro hgroup hopen
    obtain hend | ⟨hzero, -⟩ := hends
    · exact Nat.le_antisymm hcomes.le hend
    · exact absurd hzero (hopen n hn hcomes.le)
  case plain => exact isLeast_plain hends hcomes.first hn

end

end Grammar

namespace Parse

open Grammar Rule

variable {config : ParseConfig} {entry : Entry} {tokens : List Token} {s : State} {levels : Nat}

/-- Text is skipped only in front of a token that closes no group. -/
theorem ComesBeyond.isCloser_eq_false
    (h : ComesBeyond config entry tokens (skipNested : Rule Empty Unit) s) :
    ∃ k, s.kindAt 0 = some k ∧ k.isCloser = false := by
  obtain ⟨symbol, t, hcall, hvisits⟩ := h
  have hreport : ComesBeyond config entry tokens (report .tooDeep : Rule Empty Unit) s :=
    ⟨symbol, t, hcall, hvisits.trans (.first (.here _ _))⟩
  obtain ⟨k, hk, hstarts⟩ := (Option.any_eq_true _ _).mp hreport.foreseen
  refine ⟨k, (State.kindAt_eq s 0).trans hk, ?_⟩
  obtain hstarts | hgroup := Bool.or_eq_true_iff.mp hstarts
  · exact isCloser_of_startsExpr hstarts
  · rw [eq_of_beq hgroup]
    rfl

/-- Wherever the reading of a text comes to text that is nested too deeply, some words are skipped
into one error node with one report that is not fatal: a group up to the mark that closes it, and
other text up to the end of the group around it, or to what is waited for. No mark is skipped that
closes a group around. -/
theorem nested_text_skipped {text : String}
    (h : ComesBeyond config entry (tokenize text) (skipNested : Rule Empty Unit) s) :
    ∃ n, SkipsNested (setting config (tokenize text)) n s
      ((skipNested : Rule Empty Unit).runAlone (setting config (tokenize text)) s).2 := by
  obtain ⟨k, hk, hcloser⟩ := h.isCloser_eq_false
  exact skipsNested (steady_of_empty _) h.valid hk hcloser

/-! ### Groups that are nested too deeply -/

/-- The expression inside parentheses is called one level deeper. -/
theorem comesTo_parenthesized {level : Nat}
    (h : ComesTo config entry tokens (levels + 1) (call (.expression level)) s)
    (hk : s.kindAt 0 = some (.punct .lparen)) :
    ∃ t, ComesTo config entry tokens levels (call (.expression 0)) t ∧ t.kinds = s.kinds.tail := by
  let read := setting config tokens
  let enter := Grammar.language.enter read levels
  let inside : State := { s.attachPending with siblings := [] }
  have hinside : inside.kindAt 0 = some (.punct .lparen) := hk
  have hbinder : atBinder.run read enter inside = (false, inside) := by
    have hquantifier : atQuantifier.run read enter inside
        = ((inside.kindAt 0).any Operator.quantifiers.contains && declarationBehind inside.kinds,
          inside) :=
      run_andAlso_look (run_currentIn _ _) (run_ahead _ _)
    rw [atBinder, run_orElse_look (run_nthPasses 0 _ _) hquantifier, hinside]
    rfl
  obtain ⟨t, hparenthesized, hkinds⟩ : ∃ t,
      Visits read enter parenthesized inside (call (.expression 0)) t ∧ t.kinds = s.kinds.tail :=
    ⟨_, .node (.next (.next (.first (.within (.first (.first (.here _ _))))))),
      State.kinds_eq_tail_of_bump _⟩
  have hatom : Visits read enter atom inside (call (.expression 0)) t := by
    refine .next (.next ?_)
    simp only [run_peek, hinside]
    exact .first hparenthesized
  have hhead : Visits read enter operandHead inside (call (.expression 0)) t := by
    refine .next (.next ?_)
    simp only [run_peek, hinside, hbinder]
    exact hatom
  exact ⟨t, .deeper h (.group (.first hhead)), hkinds⟩

/-- Behind as many opening parentheses as there are levels, an expression is called with none
left. -/
theorem comesTo_nested (n : Nat) (hn : n ≤ nestingLimit)
    (hopen : ∀ m < n, (start config tokens).kindAt m = some (.punct .lparen)) :
    ∃ t, ComesTo config .oneExpression tokens (nestingLimit - n) (call (.expression 0)) t ∧
      t.kinds = (start config tokens).kinds.drop n := by
  induction n with
  | zero =>
    exact ⟨_, .inside (.within (.first (.first (.first (.here _ _))))), rfl⟩
  | succ n ih =>
    obtain ⟨s, hs, hkinds⟩ := ih (Nat.le_of_succ_le hn) fun m hm => hopen m (Nat.lt_succ_of_lt hm)
    have hk : s.kindAt 0 = some (.punct .lparen) := by
      rw [State.kindAt_eq, hkinds, List.getElem?_drop, Nat.add_zero, ← State.kindAt_eq]
      exact hopen n (Nat.lt_succ_self n)
    have hlevels : nestingLimit - n = nestingLimit - (n + 1) + 1 := by omega
    rw [hlevels] at hs
    obtain ⟨t, ht, htail⟩ := comesTo_parenthesized hs hk
    exact ⟨t, ht, by rw [htail, hkinds, List.tail_drop]⟩

/-- The tokens of parentheses in parentheses around a name. -/
theorem kinds_parentheses (n : Nat) : (Opener.words (List.replicate n .paren)).map Prod.fst
    = List.replicate n (.punct .lparen) ++ .ident :: List.replicate n (.punct .rparen) := by
  induction n with
  | zero => rfl
  | succ n ih =>
    have hclosers : List.replicate (n + 1) (TokenKind.punct .rparen)
        = List.replicate n (.punct .rparen) ++ [.punct .rparen] := List.replicate_succ'
    rw [List.replicate_succ, Opener.words, List.map_append, List.map_append, ih, hclosers,
      List.replicate_succ]
    simp [Opener.front, Opener.closer]

/-- Parentheses in parentheses, one more than are read. -/
def tooManyParentheses : String := Opener.text (List.replicate 257 .paren)

/-- The reading comes to the innermost parentheses with no level left. -/
theorem comesBeyond_tooManyParentheses : ∃ s behind,
    ComesBeyond {} .oneExpression (tokenize tooManyParentheses) (skipNested : Rule Empty Unit) s ∧
    s.kinds = [.punct .lparen, .ident, .punct .rparen] ++ behind := by
  have hstart : (start {} (tokenize tooManyParentheses)).kinds
      = List.replicate 257 (.punct .lparen) ++ .ident :: List.replicate 257 (.punct .rparen) := by
    rw [← kinds_parentheses, ← Opener.words_text, ← map_toPair_significantTokens,
      ← filter_tokenize (whole_text _), ← input_start, State.input, List.map_map]
    rfl
  have hopen : ∀ m < 256, (start {} (tokenize tooManyParentheses)).kindAt m
      = some (.punct .lparen) := by
    intro m hm
    have hlt : m < 257 := Nat.lt_succ_of_lt hm
    rw [State.kindAt_eq, hstart,
      List.getElem?_append_left (hlt.trans_eq List.length_replicate.symm), List.getElem?_replicate,
      if_pos hlt]
  obtain ⟨t, ht, hkinds⟩ := comesTo_nested 256 (Nat.le_refl _) hopen
  have hinner : t.kinds = [.punct .lparen, .ident, .punct .rparen]
      ++ List.replicate 256 (.punct .rparen) := by
    have hle : 256 ≤ 257 := by decide
    rw [hkinds, hstart, List.drop_append_of_le_length (hle.trans_eq List.length_replicate.symm),
      List.drop_replicate]
    rfl
  have hk : t.kindAt 0 = some (.punct .lparen) := by
    rw [State.kindAt_eq, hinner]
    rfl
  refine ⟨t, _, ⟨.expression 0, t, ht, .next ?_⟩, hinner⟩
  simp only [run_nthPasses, hk]
  exact .first (.here _ _)

/-- The innermost parentheses are skipped with what is in them, and those around are left. -/
theorem nested_text_skipped_parentheses : ∃ s,
    ComesBeyond {} .oneExpression (tokenize tooManyParentheses) (skipNested : Rule Empty Unit) s ∧
    SkipsNested (setting {} (tokenize tooManyParentheses)) 3 s
      ((skipNested : Rule Empty Unit).runAlone (setting {} (tokenize tooManyParentheses)) s).2 := by
  obtain ⟨s, behind, hs, hkinds⟩ := comesBeyond_tooManyParentheses
  obtain ⟨n, h⟩ := nested_text_skipped hs
  have hgroup : (s.kindAt 0).any TokenKind.isOpener = true := by
    rw [State.kindAt_eq, hkinds]
    rfl
  have hleast : IsLeast {m | 0 < m ∧ m ≤ s.kinds.length ∧ groupDepth (s.kinds.take m) = 0} 3 := by
    rw [hkinds]
    refine ⟨⟨by decide, ?_, rfl⟩, fun m ⟨hpos, _, hclosed⟩ => ?_⟩
    · rw [List.length_append]
      exact Nat.le_add_right 3 _
    · by_contra hlt
      obtain rfl | rfl : m = 1 ∨ m = 2 := by omega
      · cases hclosed
      · cases hclosed
  obtain rfl := h.closed hgroup 3 hleast
  exact ⟨s, hs, h⟩

end Parse
end RelLang
