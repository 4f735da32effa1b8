import RelLang.Proofs.Parse.Reports
import RelLang.Proofs.Syntax.Module
import RelLang.Proofs.Token.Spacing

/-!
# A text is read without reports if and only if it has a form

The tree of a text that nothing is reported about is derived, without its trivia, from
the form for the whole text. If tokens are the leaves of trees that are derived from
it, and expressions in them are not nested more deeply than they are read, then
nothing is reported, and the trees are those that are read.
-/

namespace RelLang

namespace Grammar

variable {r : Reader}

/-- The rule for a whole text reads its form. -/
theorem reads_entry (hr : r.Faithful) (entry : Entry) :
    Reads r anything anyhow (fun _ => Form.ofEntry entry) entry.rule := by
  cases entry with
  | wholeModule => exact reads_sourceFile hr
  | oneExpression => exact reads_exprRoot hr

end Grammar

namespace Parse

open Grammar Rule

variable {config : ParseConfig} {entry : Entry} {tokens : List Token}
  {ts : List Tree}

/-! ### Where a reading begins -/

theorem whole_of_reports_start (hkeep : config.maxDiagnostics = none)
    (hclean : (start config tokens).reports = []) : ∀ t ∈ tokens, t.kind ≠ .invalid := by
  rw [reports_start_of_uncapped config tokens hkeep, List.reverse_eq_nil_iff,
    List.map_eq_nil_iff] at hclean
  intro t ht hinvalid
  have hnone := List.filter_eq_nil_iff.mp hclean t ht
  simp [hinvalid] at hnone

theorem reports_start (hwhole : ∀ t ∈ tokens, t.kind ≠ .invalid) :
    (start config tokens).reports = [] := by
  have hnone : tokens.filter (·.kind == .invalid) = [] :=
    List.filter_eq_nil_iff.mpr fun t ht => by simpa using hwhole t ht
  simp [start, hnone]

theorem ready_start (hwhole : ∀ t ∈ tokens, t.kind ≠ .invalid) : (start config tokens).Ready :=
  ⟨valid_start config tokens, by rwa [rest_start]⟩

theorem bare_start : (start config tokens).bare = [] := by
  rw [State.bare, siblings_start]
  rfl

/-! ### Readings and forms -/

theorem ok_iff : (ofTokens config entry tokens).ok = true ↔
    (final config entry tokens).reports = [] := by
  rw [ok, reports_ofTokens, List.isEmpty_iff, List.reverse_eq_nil_iff]

/-- A text that nothing is reported about has no invalid tokens. -/
theorem whole_of_ok (hkeep : config.maxDiagnostics = none)
    (hok : (ofTokens config entry tokens).ok = true) : ∀ t ∈ tokens, t.kind ≠ .invalid :=
  whole_of_reports_start hkeep
    ((reaches_final config entry tokens).reports_eq_nil (ok_iff.mp hok))

/-- The tree is that of the last state, without the trivia at the end of the text. -/
theorem bare_tree (h : (final config entry tokens).bare = ts) :
    (ofTokens config entry tokens).tree.bare = .node entry.rootKind ts := by
  rw [tree_ofTokens, Tree.bare, ← h, State.bare]

/-- The tree of a text that nothing is reported about has the form for the text. -/
theorem derives_of_ok (hkeep : config.maxDiagnostics = none)
    (hok : (ofTokens config entry tokens).ok = true) :
    ∃ ts, (ofTokens config entry tokens).tree.bare = .node entry.rootKind ts ∧
      (Form.ofEntry entry).Derives nestingLimit ts [] := by
  have hr : (readerOf (setting config tokens) nestingLimit 0 fun _ => True).Faithful :=
    faithful_readerOf hkeep (fun _ _ => trivial) _ _ (.inl (Nat.zero_le _))
  have hready : (start config tokens).Ready := ready_start (whole_of_ok hkeep hok)
  obtain ⟨ts, hbare, hts⟩ := (reads_entry hr entry).sound _ hready trivial (ok_iff.mp hok)
  have hlast := hready.of_reaches (reaches_run (setting config tokens) hr.steady entry.rule _)
  rw [bare_start, List.nil_append] at hbare
  refine ⟨ts, bare_tree ((State.bare_attachPending hlast).trans hbare), ?_⟩
  have hkinds : (final config entry tokens).kinds = [] := by
    have hwords := ((reaches_final config entry tokens).valid hready.valid).filter_rest
    rw [rest_final, List.filter_nil] at hwords
    rw [State.kinds, List.map_eq_nil_iff]
    exact List.map_eq_nil_iff.mp hwords.symm
  exact hkinds ▸ hts

/-- Without trivia the leaves of a tree are the significant tokens of the text. -/
theorem leaves_of_bare {text : String}
    (h : (ofText config entry text).tree.bare = .node entry.rootKind ts) :
    Tree.leavesAll ts = (significantTokens text).map Token.toPair := by
  have hleaves : (ofText config entry text).tree.leaves = (tokenize text).map Token.toPair :=
    leaves_ofTokens config entry (tokenize text)
  have hbare := Tree.leaves_bare (ofText config entry text).tree rfl
  rw [h, hleaves, Tree.leaves, List.filter_map] at hbare
  exact hbare

/-- The tree of an expression that nothing is reported about. -/
theorem expression_of_ok {text : String} (hok : (ofText {} .oneExpression text).ok = true) :
    ∃ ts, (ofText {} .oneExpression text).tree.bare = .node .exprRoot ts ∧
      Form.expr.Derives nestingLimit ts [] ∧
      Tree.leavesAll ts = (significantTokens text).map Token.toPair := by
  obtain ⟨ts, htree, hts⟩ := derives_of_ok rfl hok
  exact ⟨ts, htree, (Form.derives_append_look.mp hts).1, leaves_of_bare htree⟩

/-- What has the form for a text, and is not nested too deeply, is read without a report. -/
theorem ok_of_derives (hkeep : config.maxDiagnostics = none)
    (htemporal : (start config tokens).temporal = true)
    (hwhole : ∀ t ∈ tokens, t.kind ≠ .invalid) {n : Nat} {ts : List Tree}
    (htokens : (tokens.filter (·.kind.isSignificant)).map Token.toPair = Tree.leavesAll ts)
    (hts : (Form.ofEntry entry).Derives n ts [])
    (hlimit : n ≤ nestingLimit ∨ Shallow (final config entry tokens).reports) :
    (ofTokens config entry tokens).ok = true ∧
      (ofTokens config entry tokens).tree.bare = .node entry.rootKind ts := by
  have hready : (start config tokens).Ready := ready_start hwhole
  have hread : ∀ passes : List Report → Prop,
      (readerOf (setting config tokens) nestingLimit n passes).Faithful →
      passes (final config entry tokens).reports →
      State.Took ts (start config tokens) (entry.rule.run (setting config tokens)
        (Grammar.language.enter (setting config tokens) nestingLimit) (start config tokens)).2 := by
    intro passes hr hpass
    exact ((reads_entry hr entry).complete _ () ts [] hready htemporal trivial
      (by rw [input_start, htokens, List.append_nil]) trivial hts hpass).2
  have htook : State.Took ts (start config tokens) (entry.rule.run (setting config tokens)
      (Grammar.language.enter (setting config tokens) nestingLimit) (start config tokens)).2 := by
    obtain hlimit | hshallow := hlimit
    · exact hread (fun _ => True)
        (faithful_readerOf hkeep (fun _ _ => trivial) _ _ (.inl hlimit)) trivial
    · exact hread Shallow (faithful_readerOf hkeep (fun hsuffix h r hr => h r (hsuffix.subset hr))
        _ _ (.inr fun _ => id)) hshallow
  have hlast := hready.of_reaches (reaches_run (setting config tokens)
    (Grammar.language.steady_enter (setting config tokens) nestingLimit) entry.rule (start config tokens))
  refine ⟨ok_iff.mpr (htook.reports.trans (reports_start hwhole)), bare_tree ?_⟩
  exact (State.bare_attachPending hlast).trans (by rw [htook.bare, bare_start, List.nil_append])

/-- If no diagnostic is about an expression that is nested too deeply, none is cut off. -/
theorem shallow_of_errors {config : ParseConfig} {entry : Entry} {tokens : List Token}
    (h : ∀ d ∈ (ofTokens config entry tokens).errors, d.code ≠ .tooDeep) :
    Shallow (final config entry tokens).reports := by
  intro report hmem hdeep
  refine h report.toDiagnostic (List.mem_mergeSort.mpr (List.mem_map_of_mem ?_)) ?_
  · rw [reports_ofTokens]
    exact List.mem_reverse.mpr hmem
  · exact congrArg Problem.code hdeep

/-- A text without invalid words has no invalid tokens. -/
theorem whole_of_words {text : String}
    (hvalid : ∀ w ∈ Lexer.words text.toList, w.1 ≠ .invalid) : ∀ t ∈ tokenize text, t.kind ≠ .invalid := by
  intro t ht hinvalid
  refine hvalid t.toPair ?_ hinvalid
  rw [← map_toPair_significantTokens]
  exact List.mem_map_of_mem (List.mem_filter.mpr ⟨ht, by rw [hinvalid]; rfl⟩)

/-- Without invalid tokens the tokens that the grammar sees are the words of the text. -/
theorem filter_tokenize {text : String} (hwhole : ∀ t ∈ tokenize text, t.kind ≠ .invalid) :
    (tokenize text).filter (·.kind.isSignificant) = significantTokens text :=
  List.filter_congr fun t ht => by simp [TokenKind.isSignificant, hwhole t ht]

/-- A text whose tokens are the leaves of trees that have the form for it is read without a report,
unless expressions in it are nested too deeply. -/
theorem ok_of_leaves {text : String} {n : Nat}
    (htokens : (significantTokens text).map Token.toPair = Tree.leavesAll ts)
    (hvalid : ∀ w ∈ Tree.leavesAll ts, w.1 ≠ .invalid)
    (hts : (Form.ofEntry entry).Derives n ts [])
    (hlimit : n ≤ nestingLimit ∨ ∀ d ∈ (ofText {} entry text).errors, d.code ≠ .tooDeep) :
    (ofText {} entry text).ok = true ∧
      (ofText {} entry text).tree.bare = .node entry.rootKind ts := by
  rw [← htokens, map_toPair_significantTokens] at hvalid
  have hwhole := whole_of_words hvalid
  have hleaves : ((tokenize text).filter (·.kind.isSignificant)).map Token.toPair
      = Tree.leavesAll ts := by
    rw [filter_tokenize hwhole, htokens]
  exact ok_of_derives rfl (temporal_start {} _) hwhole hleaves hts (hlimit.imp_right shallow_of_errors)

end Parse
end RelLang
