import RelLang.Parse
import RelLang.Proofs.Grammar.Ending
import RelLang.Proofs.Token.Lexer

/-!
# Trees hold their text

A reading goes on to the end of the text, whatever the text is: a module takes what
no declaration accepts into error nodes, and so does a single expression with what
stands behind it. With the tokens that are left in front of the end, all tokens are
then leaves of the tree, in their order.
-/

namespace RelLang

/-! ### Where a reading begins -/

theorem Word.pending_split (ts : List Token) :
    ∀ t ∈ (split ts).1, t.kind.isSignificant = false := by
  induction ts with
  | nil => simp [split]
  | cons t ts ih =>
    unfold split
    dsimp only
    split
    · simp
    · next ht => simpa using ⟨by simpa using ht, ih⟩

theorem Word.token_split (ts : List Token) :
    ∀ w ∈ (split ts).2, w.token.kind.isSignificant = true := by
  induction ts with
  | nil => simp [split]
  | cons t ts ih =>
    unfold split
    dsimp only
    split
    · next ht => simpa using ⟨ht, ih⟩
    · exact ih

theorem Word.behind_split (ts : List Token) :
    ∀ w ∈ (split ts).2, ∀ t ∈ w.behind, t.kind.isSignificant = false := by
  induction ts with
  | nil => simp [split]
  | cons t ts ih =>
    unfold split
    dsimp only
    split
    · simpa using ⟨pending_split ts, ih⟩
    · exact ih

namespace Parse

/-- At the start nothing is in the tree and nothing has been taken. -/
theorem start_eq (config : ParseConfig) (tokens : List Token) :
    ∃ reports, start config tokens =
      { pending := (Word.split tokens).1, words := (Word.split tokens).2, left := tokens.length
        temporal := config.admitsTemporal (languageOf (tokens.map Token.toPair)), reports } := by
  have hfold : ∀ (ts : List Token) (s : State), ∃ reports,
      ts.foldl (fun s t => s.keep (setting config tokens) (Report.ofInvalid t)) s
        = { s with reports } := by
    intro ts
    induction ts with
    | nil => exact fun s => ⟨s.reports, rfl⟩
    | cons t ts ih =>
      intro s
      obtain ⟨kept, hkeep⟩ := State.keep_eq (setting config tokens) (Report.ofInvalid t) s
      obtain ⟨reports, hrest⟩ := ih { s with reports := kept }
      exact ⟨reports, by rw [List.foldl_cons, hkeep, hrest]⟩
  exact hfold _ _

theorem rest_start (config : ParseConfig) (tokens : List Token) :
    (start config tokens).rest = tokens := by
  obtain ⟨_, h⟩ := start_eq config tokens
  rw [h]
  exact Word.split_append_tokens tokens

theorem valid_start (config : ParseConfig) (tokens : List Token) :
    (start config tokens).Valid := by
  have hrest := rest_start config tokens
  obtain ⟨_, h⟩ := start_eq config tokens
  rw [h] at hrest ⊢
  refine ⟨?_, Word.pending_split tokens, Word.token_split tokens, Word.behind_split tokens⟩
  rw [hrest]

theorem siblings_start (config : ParseConfig) (tokens : List Token) :
    (start config tokens).siblings = [] := by
  obtain ⟨_, h⟩ := start_eq config tokens
  rw [h]

end Parse

/-! ### Where a reading ends -/

namespace Grammar

open Rule

variable {setting : Setting} {enter : Nonterminal → State → Bool × State}

/-- Declarations are read to the end of the text. -/
theorem words_moduleItems (henter : Steady enter) (seen : Seen) {s : State} (hs : s.Valid) :
    ((loop seen moduleItem).run setting enter s).2.words = [] := by
  obtain ⟨seen, t, -, -, hlast, hrun⟩ := loop_last henter (advancing_moduleItem henter)
    (fun _ _ => True) (fun _ _ _ _ _ => trivial) hs (a := seen) trivial
  rw [hrun]
  simp only [moduleItem, run_bind, run_atEnd, run_ite, run_pure, run_progress] at hlast ⊢
  split
  · next hended => exact State.kindAt_zero_eq_none.mp (by simpa using hended)
  · next hended =>
    rw [if_neg hended] at hlast
    cases hlast

theorem words_sourceFile (henter : Steady enter) {s : State} (hs : s.Valid) :
    (sourceFile.run setting enter s).2.words = [] := by
  simp only [sourceFile, run_bind, run_ignore, run_currentIs]
  exact words_moduleItems henter {} (valid_run _ henter (when _ moduleDecl) hs)

/-- Skipping to the end ends there. -/
theorem words_untilEnd (henter : Steady enter) {s : State} (hs : s.Valid) :
    ((repeated do
      let ended ← atEnd
      when (!ended) bump
      return !ended).run setting enter s).2.words = [] := by
  obtain ⟨t, -, -, hlast, hrun⟩ := repeated_last henter moves_untilEnd (fun _ => True)
    (fun _ _ _ _ => trivial) hs trivial
  rw [hrun]
  simp only [run_bind, run_atEnd, run_pure] at hlast ⊢
  rw [hlast]
  exact State.kindAt_zero_eq_none.mp (by simpa using hlast)

/-- What stands behind an expression is taken to the end of the text. -/
theorem words_exprRoot (henter : Steady enter) {s : State} (hs : s.Valid) :
    (exprRoot.run setting enter s).2.words = [] := by
  simp only [exprRoot, run_within, run_bind, run_ignore, run_atEnd]
  have hv : ({ s with contexts := .expression :: s.contexts } : State).Valid := hs.of_eq rfl rfl rfl
  have ht := valid_run setting henter expr hv
  generalize (expr.run setting enter { s with contexts := .expression :: s.contexts }).2 = t at ht
  cases hk : t.kindAt 0 with
  | none => exact State.kindAt_zero_eq_none.mp hk
  | some k =>
    simp only [Option.isNone_some, Bool.not_false, run_when_true, run_bind, run_report, run_node]
    refine words_untilEnd henter ?_
    have hreport := (State.reaches_report setting .afterExpression t).valid ht
    exact hreport.opened

end Grammar

namespace Parse

/-- What a fixed text is read as is found by computation. -/
theorem ofText_eq (config : ParseConfig) (entry : Entry) (text : String) :
    ofText config entry text = ofTokens config entry
      (Lexer.place 0 (Lexer.firstLexemes text.toList.length text.toList)) :=
  congrArg (ofTokens config entry) (tokenize_eq text)

/-- The state at the end of a reading, with the last tokens attached. -/
def final (config : ParseConfig) (entry : Entry) (tokens : List Token) : State :=
  let setting := setting config tokens
  (entry.rule.run setting (Grammar.language.enter setting nestingLimit)
    (start config tokens)).2.attachPending

theorem tree_ofTokens (config : ParseConfig) (entry : Entry) (tokens : List Token) :
    (ofTokens config entry tokens).tree
      = .node entry.rootKind (final config entry tokens).siblings.reverse := rfl

theorem reports_ofTokens (config : ParseConfig) (entry : Entry) (tokens : List Token) :
    (ofTokens config entry tokens).reports = (final config entry tokens).reports.reverse := rfl

theorem reaches_final (config : ParseConfig) (entry : Entry) (tokens : List Token) :
    (start config tokens).Reaches (final config entry tokens) :=
  (Rule.reaches_run _ (Grammar.language.steady_enter _ _) _ _).trans (State.reaches_attachPending _)

/-- A reading leaves no token. -/
theorem rest_final (config : ParseConfig) (entry : Entry) (tokens : List Token) :
    (final config entry tokens).rest = [] := by
  have henter := Grammar.language.steady_enter (setting config tokens) nestingLimit
  have hs := valid_start config tokens
  have hwords : (entry.rule.run (setting config tokens)
      (Grammar.language.enter (setting config tokens) nestingLimit)
      (start config tokens)).2.words = [] := by
    cases entry with
    | wholeModule => exact Grammar.words_sourceFile henter hs
    | oneExpression => exact Grammar.words_exprRoot henter hs
  rw [final, State.rest_attachPending, hwords]
  rfl

/-- The leaves of the tree are the tokens, in their order. -/
theorem leaves_ofTokens (config : ParseConfig) (entry : Entry) (tokens : List Token) :
    (ofTokens config entry tokens).tree.leaves = tokens.map Token.toPair := by
  have hleaves := (reaches_final config entry tokens).leaves
  simp only [State.leaves, rest_final, rest_start, siblings_start] at hleaves
  simpa [tree_ofTokens, Tree.leaves, Tree.leavesAll] using hleaves

/-- Reading loses nothing, whatever the text is: the leaves of the tree are the tokens of the
text, and their text is the text. -/
theorem reading_lossless (config : ParseConfig) (entry : Entry) (text : String) :
    (ofText config entry text).tree.leaves = (tokenize text).map Token.toPair ∧
      (ofText config entry text).tree.text = text := by
  have hleaves : (ofText config entry text).tree.leaves = (tokenize text).map Token.toPair :=
    leaves_ofTokens config entry (tokenize text)
  refine ⟨hleaves, ?_⟩
  rw [Tree.text, hleaves, List.map_map]
  exact joinText_tokenize text

end Parse
end RelLang
