import RelLang.Proofs.Grammar.Depth
import RelLang.Proofs.Grammar.TooDeep
import RelLang.Proofs.Syntax.Groups

/-!
# How deep nesting goes

Groups in groups are read as far as there are levels. What is nested deeper is skipped with one
report: a group up to the mark that closes it, a name with what is behind it up to the mark that
closes the group around it. The marks of the groups that have been read are left, and close them.
-/

namespace RelLang

open Rule

namespace State

/-- The tokens were taken as they are, and the others are ahead. -/
structure Past (ws behind : List (TokenKind × String)) (s t : State) : Prop where
  ready : t.Ready
  input : t.input = behind
  took : Took (Tree.ofWords ws) s t

variable {ws ws' behind : List (TokenKind × String)} {s t u : State}

theorem Past.trans (h : Past ws (ws' ++ behind) s t) (h' : Past ws' behind t u) :
    Past (ws ++ ws') behind s u where
  ready := h'.ready
  input := h'.input
  took := by
    rw [Tree.ofWords, List.map_append]
    exact h.took.trans h'.took

theorem past_bump (hs : s.Ready) {w : TokenKind × String} (hinput : s.input = w :: behind) :
    Past [w] behind s s.bump := by
  obtain ⟨v, vs, hwords, rfl, -⟩ := List.map_eq_cons_iff.mp hinput
  have htook : Took [v.token.leaf] s s.bump := took_bump hs hwords
  have hreach : s.Reaches s.bump := reaches_bump s
  refine ⟨hs.of_reaches hreach, hreach.input_behind hs htook.bare hinput, htook⟩

end State

namespace Grammar

open State (Past)

section Skipping

variable {ν : Type} {setting : Setting} {enter : ν → State → Bool × State}
variable {behind : List (TokenKind × String)} {s : State} {openers : Nat} {isGroup : Bool}

/-! ### Skipping groups -/

/-- A round takes a token, unless a group ends there that was opened before. -/
theorem run_nestedRound {w : TokenKind × String} (hinput : s.input = w :: behind)
    (hopen : w.1.isCloser = false ∨ 0 < openers) :
    (nestedRound isGroup openers).run setting enter s
      = ((openersBehind w.1 openers,
          !(openersBehind w.1 openers == 0 && (isGroup || s.bump.atRecoveryPoint))), s.bump) := by
  have hk : s.kindAt 0 = some w.1 := by
    rw [State.kindAt_eq, State.kinds_eq, hinput]
    rfl
  have htaken : ¬ (w.1.isCloser && openers == 0) = true := by
    rw [Bool.and_eq_true, beq_iff_eq]
    rintro ⟨hcloser, rfl⟩
    obtain hnot | hlt := hopen
    · exact Bool.false_ne_true (hnot.symm.trans hcloser)
    · exact Nat.lt_irrefl 0 hlt
  simp only [nestedRound, run_bind, run_atEnd, run_nthPasses, hk]
  rw [run_ite, if_neg (by simpa using htaken)]
  rfl

/-- Where a group ends that was opened before, nothing is taken. -/
theorem run_nestedRound_of_atClose (h : AtClose s.input) :
    (nestedRound isGroup 0).run setting enter s = ((0, false), s) := by
  have hstop : ((s.kindAt 0).isNone || ((s.kindAt 0).any TokenKind.isCloser && (0 : Nat) == 0))
      = true := by
    rw [State.kindAt_eq, State.kinds_eq]
    cases hinput : s.input with
    | nil => rfl
    | cons w ws =>
      have hw : w.1.isCloser = true := h w (by rw [hinput]; rfl)
      simp [hw]
  simp only [nestedRound, run_bind, run_atEnd, run_nthPasses]
  rw [run_ite, if_pos hstop]
  rfl

/-- The skipping goes on behind a token, unless it is the last. -/
theorem run_loop_of_taken (henter : Steady enter) (hs : s.Ready) {w : TokenKind × String}
    (hinput : s.input = w :: behind) (hopen : w.1.isCloser = false ∨ 0 < openers) {next : Nat}
    (hnext : openersBehind w.1 openers = next)
    (hmore : (next == 0 && (isGroup || s.bump.atRecoveryPoint)) = false) :
    (loop openers (nestedRound isGroup)).run setting enter s
      = (loop next (nestedRound isGroup)).run setting enter s.bump := by
  rw [run_loop henter (advancing_nestedRound isGroup) openers hs.valid,
    run_nestedRound hinput hopen, hnext, hmore]
  rfl

/-- Behind the token that leaves no group open the skipping ends, at once or in front of what
closes the group around. -/
theorem run_loop_of_closed (henter : Steady enter) (hs : s.Ready) {w : TokenKind × String}
    (hinput : s.input = w :: behind) (hopen : w.1.isCloser = false ∨ 0 < openers)
    (hclosed : openersBehind w.1 openers = 0) (hbehind : AtClose behind) :
    ((loop openers (nestedRound isGroup)).run setting enter s).2 = s.bump := by
  have hpast : Past [w] behind s s.bump := State.past_bump hs hinput
  rw [run_loop henter (advancing_nestedRound isGroup) openers hs.valid,
    run_nestedRound hinput hopen, hclosed]
  split
  · -- one more round was asked for, and it takes nothing
    rw [run_loop henter (advancing_nestedRound isGroup) 0 hpast.ready.valid,
      run_nestedRound_of_atClose (hpast.input ▸ hbehind)]
    rfl
  · rfl

theorem openersBehind_closer (o : Opener) (n : Nat) : openersBehind o.closer.1 (n + 1) = n := by
  cases o <;> rfl

/-- What opens a group opens one, whatever is open already. A name in front of a bracket is gone
past only where what is skipped began with no group, or one is open. -/
theorem run_loop_front (henter : Steady enter) (hs : s.Ready) (o : Opener)
    (hinput : s.input = o.front ++ behind)
    (hname : o = .call → isGroup = false ∨ 0 < openers) :
    ∃ t, Past o.front behind s t ∧ (loop openers (nestedRound isGroup)).run setting enter s
      = (loop (openers + 1) (nestedRound isGroup)).run setting enter t := by
  cases o with
  | paren =>
    exact ⟨s.bump, State.past_bump hs hinput,
      run_loop_of_taken henter hs hinput (.inl rfl) rfl rfl⟩
  | brace =>
    exact ⟨s.bump, State.past_bump hs hinput,
      run_loop_of_taken henter hs hinput (.inl rfl) rfl rfl⟩
  | call =>
    have hpast : Past [(.ident, "f")] ((.punct .lbracket, "[") :: behind) s s.bump :=
      State.past_bump hs hinput
    -- no context waits for a bracket, so the skipping does not end between the name and it
    have hblocked : s.bump.atRecoveryPoint = false := by
      have hnever : ∀ c : Context, .punct .lbracket ∉ c.follow := by
        intro c
        cases c <;> decide
      rw [State.atRecoveryPoint_eq, State.kindAt_eq, State.kinds_eq, hpast.input]
      simpa using fun c _ => hnever c
    have hmore : (openers == 0 && (isGroup || s.bump.atRecoveryPoint)) = false := by
      obtain rfl | hlt := hname rfl
      · rw [hblocked, Bool.or_false, Bool.and_false]
      · rw [beq_eq_false_iff_ne.mpr (Nat.ne_of_gt hlt), Bool.false_and]
    refine ⟨s.bump.bump, hpast.trans (State.past_bump hpast.ready hpast.input), ?_⟩
    rw [run_loop_of_taken henter hs hinput (.inl rfl) rfl hmore]
    exact run_loop_of_taken henter hpast.ready hpast.input (.inl rfl) rfl rfl

/-- Inside a group the skipping goes past groups in groups, and as many groups are open behind them
as in front. -/
theorem run_loop_words (henter : Steady enter) (w : List Opener) (hs : s.Ready)
    (hinput : s.input = Opener.words w ++ behind) (hopen : 0 < openers) :
    ∃ t, Past (Opener.words w) behind s t ∧
      (loop openers (nestedRound isGroup)).run setting enter s
        = (loop openers (nestedRound isGroup)).run setting enter t := by
  have hmore : ∀ {n : Nat} {b : Bool}, 0 < n → (n == 0 && b) = false := fun hn => by
    rw [beq_eq_false_iff_ne.mpr (Nat.ne_of_gt hn), Bool.false_and]
  induction w generalizing openers behind s with
  | nil =>
    exact ⟨s.bump, State.past_bump hs hinput,
      run_loop_of_taken henter hs hinput (.inl rfl) rfl (hmore hopen)⟩
  | cons o w ih =>
    rw [Opener.words, List.append_assoc, List.append_assoc] at hinput
    obtain ⟨t, hfront, hrun⟩ := run_loop_front henter hs o hinput fun _ => .inr hopen
    obtain ⟨u, hwords, hrun'⟩ := ih hfront.ready hfront.input (Nat.succ_pos openers)
    have hlast : (loop (openers + 1) (nestedRound isGroup)).run setting enter u
        = (loop openers (nestedRound isGroup)).run setting enter u.bump :=
      run_loop_of_taken henter hwords.ready hwords.input (.inr (Nat.succ_pos openers))
        (openersBehind_closer o openers) (hmore hopen)
    refine ⟨u.bump, ?_, by rw [hrun, hrun', hlast]⟩
    exact (hfront.trans hwords).trans (State.past_bump hwords.ready hwords.input)

/-- Groups in groups are skipped as a whole, and nothing behind them. -/
theorem past_loop (henter : Steady enter) (w : List Opener) (hs : s.Ready)
    (hinput : s.input = Opener.words w ++ behind) (hbehind : AtClose behind)
    (hname : w.head? = some .call → isGroup = false) :
    Past (Opener.words w) behind s
      ((loop 0 (nestedRound isGroup)).run setting enter s).2 := by
  cases w with
  | nil =>
    rw [run_loop_of_closed henter hs hinput (.inl rfl) rfl hbehind]
    exact State.past_bump hs hinput
  | cons o w =>
    rw [Opener.words, List.append_assoc, List.append_assoc] at hinput
    obtain ⟨t, hfront, hrun⟩ := run_loop_front henter hs o hinput fun h =>
      .inl (hname (congrArg some h))
    obtain ⟨u, hwords, hrun'⟩ := run_loop_words henter w hfront.ready hfront.input Nat.one_pos
    have hlast : ((loop 1 (nestedRound isGroup)).run setting enter u).2 = u.bump :=
      run_loop_of_closed henter hwords.ready hwords.input (.inr Nat.one_pos)
        (openersBehind_closer o 0) hbehind
    rw [hrun, hrun', hlast]
    exact (hfront.trans hwords).trans (State.past_bump hwords.ready hwords.input)

theorem gives_nestedText (henter : Steady enter) (w : List Opener) (hbehind : AtClose behind) :
    Gives setting enter (nestedText : Rule ν Unit) () (Tree.ofWords (Opener.words w)) []
      behind := by
  intro s hs _ hinput
  rw [Tree.leavesAll_ofWords] at hinput
  have hname : w.head? = some .call → (s.kindAt 0).any TokenKind.isOpener = false := by
    rintro hcall
    obtain ⟨w', rfl⟩ := List.head?_eq_some_iff.mp hcall
    rw [State.kindAt_eq, State.kinds_eq, hinput]
    rfl
  rw [nestedText_eq, run_bind, run_nthPasses]
  exact ⟨rfl, (past_loop henter w hs hinput hbehind hname).took.adds⟩

end Skipping

variable {setting : Setting} {behind : List (TokenKind × String)}

/-- Past the last level groups in groups are skipped with one report. -/
theorem gives_expressionTooDeep {enter : Empty → State → Bool × State}
    (hkeep : setting.maxDiagnostics = none) (w : List Opener) (hbehind : AtClose behind) :
    Gives setting enter expressionTooDeep true [Opener.tree 0 w] [.tooDeep] behind := by
  obtain ⟨k, hk, hstarts⟩ := Opener.first_words w
  rw [← Opener.leaves_tree 0, ← Tree.leavesAll_singleton] at hk
  obtain ⟨ks, hkinds⟩ := List.head?_eq_some_iff.mp hk
  have hlook : ∀ s : State, s.kinds = Tree.kinds [Opener.tree 0 w] ++ behind.map (·.1) →
      (nthPasses 0 Operator.startsExpr : Rule Empty Bool).run setting enter s = (true, s) := by
    intro s hs
    rw [run_nthPasses, State.kindAt_eq, hs, Tree.kinds, hkinds]
    simpa using hstarts
  have hskip : Gives setting enter (skipNested : Rule Empty Unit) () [Opener.tree 0 w]
      [.tooDeep] behind := by
    have htext : Tree.leavesAll [Opener.tree 0 w] ++ behind ≠ [] := by
      intro hnil
      rw [(List.append_eq_nil_iff.mp hnil).1] at hk
      cases hk
    have hnested : Gives setting enter (node .error nestedText : Rule Empty Unit) ()
        [Opener.tree 0 w] [] behind :=
      (gives_nestedText (steady_of_empty _) w hbehind).node .error
    exact .before (steady_of_empty _) (gives_report hkeep .tooDeep htext) hnested
  exact .seeing hlook (.yielding (steady_of_empty _) hskip (gives_pure true))

/-- Groups in groups are read in front of what closes the group around them, with one report if
they go past the last level. -/
theorem gives_groups (hkeep : setting.maxDiagnostics = none) (levels : Nat) (w : List Opener)
    (hbehind : AtClose behind) :
    Gives setting (language.enter setting levels) (call (.expression 0)) true
      [Opener.tree levels w] (Opener.problems levels w) behind := by
  -- the groups inside have the mark behind them that closes the group around them
  induction levels generalizing w behind with
  | zero => exact gives_expressionTooDeep hkeep w hbehind
  | succ n ih =>
    have hr : (readerOf setting n n fun _ => True).Faithful :=
      faithful_readerOf hkeep (fun _ _ => trivial) n n (.inl (Nat.le_refl n))
    cases w with
    | nil =>
      have hslash : Form.at? (.punct .slash) (behind.map (·.1)) = false :=
        hbehind.not_at? rfl
      exact gives_expression hr (gives_name hr (fun _ => trivial) "a" hslash) (hbehind.stopsAt 0)
    | cons o w =>
      have hcloser : AtClose (o.closer :: behind) := by
        rintro v hv
        rw [← Option.some.inj hv]
        exact o.isCloser_closer
      have hproblems : Opener.problems (n + 1) (o :: w) = Opener.problems n w := by
        rw [Opener.problems, Opener.problems, List.length_cons]
        simp only [Nat.add_lt_add_iff_right]
      rw [hproblems]
      exact gives_wrap hr (fun _ => trivial) o (Opener.leaves_tree n w) (ih w hcloser) hbehind

/-- With nothing behind them they are the whole text of an expression. -/
theorem gives_exprRoot (hkeep : setting.maxDiagnostics = none) (levels : Nat) (w : List Opener) :
    Gives setting (language.enter setting levels) exprRoot () [Opener.tree levels w]
      (Opener.problems levels w) [] := by
  have henter : Steady (language.enter setting levels) := language.steady_enter setting levels
  have hr : (readerOf setting levels levels fun _ => True).Faithful :=
    faithful_readerOf hkeep (fun _ _ => trivial) levels levels (.inl (Nat.le_refl levels))
  have hexpr : Gives setting (language.enter setting levels) (ignore expr) ()
      [Opener.tree levels w] (Opener.problems levels w) [] :=
    (gives_exprAt hr (gives_groups hkeep levels w atClose_nil)).ignore
  have hended : ∀ s : State,
      s.kinds = Tree.kinds [] ++ ([] : List (TokenKind × String)).map (·.1) →
      (atEnd : Rule Nonterminal Bool).run setting (language.enter setting levels) s
        = (true, s) := by
    intro s hs
    rw [run_atEnd, State.kindAt_eq, hs]
    rfl
  exact (Gives.yielding henter hexpr (.seeing hended (gives_pure ()))).within .expression

end Grammar

namespace Opener

open Lexer (words_cons)

/-! ### The text of groups in groups -/

/-- How the front of a group is written. -/
def opening : Opener → String
  | .paren => "("
  | .brace => "\x7b"
  | .call => "f["

/-- The text of groups in groups around a name: what opens them, and behind the name the marks that
close them in reverse order. -/
def text (w : List Opener) : String :=
  String.join (w.map opening) ++ "a" ++ String.join (w.reverse.map (·.closer.2))

theorem toList_text_cons (o : Opener) (w : List Opener) (cs : List Char) :
    (text (o :: w)).toList ++ cs
      = o.opening.toList ++ ((text w).toList ++ (o.closer.2.toList ++ cs)) := by
  simp [text, String.toList_join]

theorem words_opening (o : Opener) (cs : List Char) :
    Lexer.words (o.opening.toList ++ cs) = o.front ++ Lexer.words cs := by
  cases o with
  | paren => exact words_cons '(' cs
  | brace => exact words_cons '\x7b' cs
  | call => exact (words_cons 'f' ('[' :: cs)).trans (congrArg _ (words_cons '[' cs))

theorem words_closer (o : Opener) (cs : List Char) :
    Lexer.words (o.closer.2.toList ++ cs) = o.closer :: Lexer.words cs := by
  cases o with
  | paren => exact words_cons ')' cs
  | brace => exact words_cons '\x7d' cs
  | call => exact words_cons ']' cs

/-- The tokens of the text, with a text behind it that does not go on with the name. -/
theorem words_text_append (w : List Opener) {cs : List Char}
    (h : ∀ c ∈ cs.head?, Lexer.isWordRest c = false) :
    Lexer.words ((text w).toList ++ cs) = words w ++ Lexer.words cs := by
  induction w generalizing cs with
  | nil =>
    have hname : Lexer.scan 'a' cs = ⟨.ident, ['a'], cs⟩ := by
      cases cs with
      | nil => rfl
      | cons c cs =>
        have hc : ¬ Lexer.isWordRest c = true := Bool.eq_false_iff.mp (h c rfl)
        show Lexer.scanWord 'a' (c :: cs) = _
        rw [Lexer.scanWord, List.takeWhile_cons_of_neg hc, List.dropWhile_cons_of_neg hc]
        rfl
    have htext : (text []).toList ++ cs = 'a' :: cs := rfl
    rw [htext, words_cons, hname]
    rfl
  | cons o w ih =>
    have hcloser : ∀ c ∈ (o.closer.2.toList ++ cs).head?, Lexer.isWordRest c = false := by
      cases o <;> rintro c hc <;> cases hc <;> rfl
    rw [toList_text_cons, words_opening, ih hcloser, words_closer, words, List.append_assoc,
      List.append_assoc]
    rfl

theorem words_text (w : List Opener) : Lexer.words (text w).toList = words w := by
  have happend := @words_text_append w [] nofun
  rwa [Lexer.words_nil, List.append_nil, List.append_nil] at happend

end Opener
namespace Parse

open Grammar Rule

theorem whole_text (w : List Opener) : ∀ t ∈ tokenize (Opener.text w), t.kind ≠ .invalid := by
  refine whole_of_words fun v hv => ?_
  rw [Opener.words_text] at hv
  exact Opener.ne_invalid_of_mem_words hv

/-- What is read of a text of groups in groups: the tree, and the report that they are nested too
deeply. -/
theorem adds_final (w : List Opener) :
    State.Adds [Opener.tree nestingLimit w] (Opener.problems nestingLimit w)
      (start {} (tokenize (Opener.text w)))
      (final {} .oneExpression (tokenize (Opener.text w))) := by
  let read := setting {} (tokenize (Opener.text w))
  have henter : Steady (Grammar.language.enter read nestingLimit) :=
    Grammar.language.steady_enter read nestingLimit
  have hready : (start {} (tokenize (Opener.text w))).Ready := ready_start (whole_text w)
  have hinput : (start {} (tokenize (Opener.text w))).input
      = Tree.leavesAll [Opener.tree nestingLimit w] ++ [] := by
    rw [input_start, filter_tokenize (whole_text w), map_toPair_significantTokens,
      Opener.words_text, List.append_nil, Tree.leavesAll_singleton, Opener.leaves_tree]
  have hroot : Gives read (Grammar.language.enter read nestingLimit) exprRoot ()
      [Opener.tree nestingLimit w] (Opener.problems nestingLimit w) [] :=
    gives_exprRoot rfl nestingLimit w
  obtain ⟨-, hadds⟩ := hroot _ hready (temporal_start {} _) hinput
  have hlast := hready.of_reaches (reaches_run read henter exprRoot _)
  exact ⟨(State.bare_attachPending hlast).trans hadds.bare, hadds.reports⟩

/-- Nothing is reported about groups in groups but that they are nested too deeply, and that is not
fatal. -/
theorem reports_groups (w : List Opener) :
    (ofText {} .oneExpression (Opener.text w)).reports.map (·.problem)
        = Opener.problems nestingLimit w ∧
      ∀ r ∈ (ofText {} .oneExpression (Opener.text w)).reports, r.fatal = false := by
  obtain ⟨-, rs, hreports, hproblems, hfatal⟩ := adds_final w
  rw [reports_start (whole_text w), List.append_nil] at hreports
  have hmade : (ofText {} .oneExpression (Opener.text w)).reports = rs := by
    rw [ofText, reports_ofTokens, hreports, List.reverse_reverse]
  rw [hmade]
  exact ⟨hproblems, hfatal⟩

theorem errors_of_shallow {w : List Opener} (h : w.length < nestingLimit) :
    (ofText {} .oneExpression (Opener.text w)).errors = [] := by
  have hproblems := (reports_groups w).1
  rw [Opener.problems, if_pos h, List.map_eq_nil_iff] at hproblems
  rw [errors, hproblems]
  exact List.mergeSort_nil

theorem errors_of_deep {w : List Opener} (h : nestingLimit ≤ w.length) :
    ∃ d, (ofText {} .oneExpression (Opener.text w)).errors = [d] ∧ d.code.label = "E0804" ∧
      d.fatal = false := by
  obtain ⟨hproblems, hfatal⟩ := reports_groups w
  rw [Opener.problems, if_neg (Nat.not_lt.mpr h)] at hproblems
  obtain ⟨r, hreports, hproblem⟩ := List.map_eq_singleton_iff.mp hproblems
  refine ⟨r.toDiagnostic, ?_, ?_, hfatal r (by rw [hreports]; exact List.mem_singleton_self r)⟩
  · rw [errors, hreports]
    exact List.mergeSort_singleton _
  · have hlabel : Code.tooDeep.label = "E0804" := by decide
    rw [Report.toDiagnostic, hproblem]
    exact hlabel

/-- Whatever a text is read as, no way down its tree has more levels of nesting on it than are
read. -/
theorem depth_tree_le (config : ParseConfig) (entry : Entry) (tokens : List Token) :
    (ofTokens config entry tokens).tree.depth ≤ nestingLimit := by
  let read := setting config tokens
  have hcalls : ∀ symbol, Maintains (State.Within nestingLimit)
      (Grammar.language.enter read nestingLimit symbol) :=
    Grammar.maintains_enter read nestingLimit nestingLimit (Nat.le_refl _)
  have hrun : Maintains (State.Within nestingLimit)
      (entry.rule.run read (Grammar.language.enter read nestingLimit)) :=
    (Grammar.flat_entry entry).maintains (Grammar.language.steady_enter read nestingLimit) hcalls
  have hlast : State.Within nestingLimit (final config entry tokens) :=
    (hrun _ (valid_start config tokens)
      (State.within_of_nil (siblings_start config tokens))).attachPending
  have hroot : entry.rootKind.nests = false := by cases entry <;> rfl
  rw [tree_ofTokens, Tree.depth, Tree.depthAll_reverse, hroot]
  exact hlast

/-- Groups in groups around a name are read without a diagnostic as long as there are no more than
255 of them. With more there is one, which is not fatal: what is deeper is skipped into one node,
and all groups around it are read with the marks that close them. And no way down a tree, of
whatever text, has more than 256 nodes on it that stand for a level of nesting. -/
theorem nesting_limit :
    (∀ w : List Opener,
      (w.length ≤ 255 → (ofText {} .oneExpression (Opener.text w)).errors = []) ∧
      (256 ≤ w.length → ∃ d, (ofText {} .oneExpression (Opener.text w)).errors = [d] ∧
        d.code.label = "E0804" ∧ d.fatal = false) ∧
      (ofText {} .oneExpression (Opener.text w)).tree.bare
        = .node .exprRoot [Opener.tree 256 w]) ∧
    ∀ (config : ParseConfig) (entry : Entry) (text : String) (path : List NodeKind),
      (ofText config entry text).tree.Path path → path.countP (·.nests) ≤ 256 := by
  constructor
  · intro w
    refine ⟨fun h => errors_of_shallow (Nat.lt_succ_of_le h), errors_of_deep, bare_tree ?_⟩
    rw [(adds_final w).bare, bare_start]
    rfl
  · intro config entry text path hpath
    exact Nat.le_trans hpath.countP_le (depth_tree_le config entry (tokenize text))

end Parse
end RelLang
