import RelLang.Proofs.Grammar.Guarded
import RelLang.Proofs.Grammar.Maintain
import RelLang.Proofs.Parse.Placement
import RelLang.Proofs.Parse.Reports
import RelLang.Proofs.Rule.Flag

/-!
# Nothing is skipped in silence

Every rule of the grammar reports the first token of what it skips. A group of bound values
that is nested too deeply is skipped from its opener on; it is called only in front of one.
-/

namespace RelLang

namespace Grammar

open Rule

/-! ### Nodes of skipped text -/

section

variable {ν : Type} {setting : Setting} {enter : ν → State → Bool × State}

theorem flags_skipNested (henter : Steady enter) (hfull : setting.maxDiagnostics = none)
    {s : State} (hs : s.Valid) (h : s.Flags setting) {kind : TokenKind}
    (hk : s.kindAt 0 = some kind) (hcloser : kind.isCloser = false) :
    ((skipNested : Rule ν Unit).run setting enter s).2.Flags setting := by
  rw [skipNested_eq, run_bind, run_report]
  have hkind : (s.report setting .tooDeep).kindAt 0 = some kind := by
    rw [kindAt_congr (State.report_words setting .tooDeep s), hk]
  have hI := invariant_flags setting
  exact flags_errorNode henter (hI.elementary henter (elementary_nestedText _))
    ((State.reaches_report setting _ s).valid hs) (hI.report _ h) (reported_report hfull _ s)
    (takesFrom_nestedText henter hkind hcloser)

end

variable {setting : Setting} {enter : Nonterminal → State → Bool × State}

theorem flagging_behindExpression (henter : Steady enter) (hfull : setting.maxDiagnostics = none) :
    Flagging setting (behindExpression.run setting enter) := by
  intro s hs h
  simp only [behindExpression, run_bind, run_atEnd]
  cases hended : (s.kindAt 0).isNone with
  | true => exact h
  | false =>
    have hkind : (s.report setting .afterExpression).kindAt 0 ≠ none := by
      rw [kindAt_congr (State.report_words setting _ s)]
      simpa [Option.isSome_iff_ne_none] using hended
    have hround : Elementary (· != .error) (do
        let ended ← atEnd
        when (!ended) bump
        return !ended : Rule Nonterminal Bool) :=
      .bind .atEnd fun _ => .bind (.when .bump) fun _ => .pure _
    simp only [Bool.not_false, run_when_true, run_bind, run_report]
    have hI := invariant_flags setting
    refine flags_errorNode henter (hI.elementary henter hround.repeated)
      ((State.reaches_report setting _ s).valid hs) (hI.report _ h) (reported_report hfull _ s) ?_
    refine .loop henter <| TakesFrom.bind henter (.seen (a := false) (fun t hwords => ?_) ?_) _
    · rw [run_atEnd, kindAt_congr hwords, Option.isNone_eq_false_iff.mpr]
      exact Option.isSome_iff_ne_none.mpr hkind
    · exact (TakesFrom.bump hkind).bind henter _

/-! ### Whole rules -/

/-- Orderly rules keep all nodes flagged, if their calls do. -/
theorem Orderly.flagging (henter : Steady enter) (hfull : setting.maxDiagnostics = none)
    (hcalls : MaintainingCalls (State.Flags setting) enter) {α : Type}
    {rule : Rule Nonterminal α} (h : Orderly rule) : Flagging setting (rule.run setting enter) := by
  have hI := invariant_flags setting
  induction h with
  | andThen _ _ hfirst hnext => exact .bind henter hfirst hnext
  | bump => exact fun _ _ h => hI.bump h
  | node hkind _ hbody => exact hI.node henter hkind hbody
  | group _ hbody => exact hI.group henter hbody
  | enclose hkind _ hbody => exact hI.enclose hkind hbody
  | within context _ hbody => exact hI.within henter context hbody
  | report _ => exact fun _ _ h => hI.report _ h
  | requireTemporal => exact hI.requireTemporal
  | loop a _ hbody => exact .loop henter (fun _ h => hI.stall h) a hbody
  | opener _ _ hnext => exact .bind henter (.ofLooking fun _ => rfl) hnext
  | skipToken _ => exact flagging_skipToken henter hfull _
  | skipUntil stops _ => exact flagging_skipUntil henter hfull _ stops
  | items closer _ _ _ hitem =>
    exact .items henter (fun _ h => hI.stall h) closer _ hitem
      fun s hs h _ => flagging_skipToken henter hfull _ s hs h
  | progress _ _ hbody => exact hbody.progress
  | expression level => exact hcalls.1 level
  | boundValue => exact maintains_boundValue hI henter hcalls
  | optionDecl => exact maintains_optionDecl hI henter
  | behindExpression => exact flagging_behindExpression henter hfull
  | _ => exact .ofLooking fun _ => rfl

/-- Whatever is read, all nodes stay flagged, however deep it is nested. -/
theorem flagging_enter (hfull : setting.maxDiagnostics = none) (levels : Nat) :
    MaintainingCalls (State.Flags setting) (language.enter setting levels) :=
  maintainingCalls_enter
    (fun _ _ _ hs h hk hcloser => flags_skipNested (steady_of_empty _) hfull hs h hk hcloser)
    (fun _ henter hcalls =>
      .ofForall fun symbol => (orderly_body symbol).flagging henter hfull hcalls) levels

end Grammar

/-! ### Whole readings -/

namespace Parse

theorem flags_start {config : ParseConfig} (hfull : config.maxDiagnostics = none)
    {tokens : List Token} (htokens : Token.Placed 0 tokens) :
    (start config tokens).Flags (setting config tokens) where
  placed := by
    intro t us hus
    rw [rest_start] at hus
    obtain ⟨ts, rfl⟩ := hus
    have hstop := htokens.listStop_eq
    have hstart : t.start = 0 + Token.size ts := (Token.placed_append.mp htokens).2.1
    show _ = Token.listStop (ts ++ t :: us)
    rw [hstop, hstart]
    simp [Token.size]
  lexical := by
    intro t ht hkind
    rw [rest_start] at ht
    rw [reports_start_of_uncapped config tokens hfull, List.mem_reverse]
    exact List.mem_map_of_mem (List.mem_filter.mpr ⟨ht, by simp [hkind]⟩)
  sound := State.sound_of_siblings_eq_nil (siblings_start config tokens)

theorem flags_final (config : ParseConfig) (hfull : config.maxDiagnostics = none)
    {tokens : List Token} (htokens : Token.Placed 0 tokens) (entry : Entry) :
    (final config entry tokens).Flags (setting config tokens) := by
  have henter := Grammar.language.steady_enter (setting config tokens) nestingLimit
  have hread := (Grammar.orderly_entry entry).flagging henter hfull
    (Grammar.flagging_enter hfull _) _ (valid_start config tokens) (flags_start hfull htokens)
  exact (invariant_flags _).attachPending hread

/-- The first token of a node is a token of the text, where the node begins. -/
theorem exists_first_token {text : String} {front others back : List (TokenKind × String)}
    {first : TokenKind × String}
    (hleaves : (tokenize text).map Token.toPair = front ++ (first :: others) ++ back) :
    ∃ (before : List Token) (t : Token) (behind : List Token),
      tokenize text = before ++ t :: behind ∧ Tree.bytes front = t.start ∧
      t.toPair = first ∧ behind.map Token.toPair = others ++ back ∧
      ByteRange.ofLength (Token.listStop (tokenize text) - Tree.bytes (first :: others ++ back))
        first.2.utf8ByteSize = t.range := by
  have htokens := placed_tokenize text
  rw [List.append_assoc] at hleaves
  obtain ⟨before, rest, htext, rfl, hrest⟩ := List.map_eq_append_iff.mp hleaves
  obtain ⟨t, behind, rfl, rfl, hbehind⟩ := List.map_eq_cons_iff.mp hrest
  have hplace : t.start = 0 + Token.size before := by
    rw [htext] at htokens
    exact (Token.placed_append.mp htokens).2.1
  have hstop : Token.listStop (tokenize text)
      = Token.size before + Tree.bytes (t.toPair :: others ++ back) := by
    rw [show t.toPair :: others ++ back = (t :: behind).map Token.toPair by
        rw [List.map_cons, hbehind]; rfl,
      Tree.bytes_map_toPair, listStop_tokenize, ← size_tokenize, htext]
    simp [Token.size]
  refine ⟨before, t, behind, htext, ?_, rfl, hbehind, ?_⟩
  · rw [Tree.bytes_map_toPair, hplace, Nat.zero_add]
  · rw [hstop, Nat.add_sub_cancel, Token.range, hplace, Nat.zero_add]
    rfl

/-- Nothing is skipped in silence. For every text, whatever it is read as, if no diagnostics are
dropped: a node of skipped text begins with a token of the text, and a diagnostic has the range of
that token. A lexical diagnostic is at the place of an invalid token in a node of its own. So
without diagnostics nothing is skipped. -/
theorem skipped_text_reported (mode : TemporalMode) (entry : Entry) (text : String) :
    let p := ofText { temporal := mode } entry text
    (∀ n ∈ Located.nodesOf 0 [] p.tree, n.kind = .error →
      ∃ t ∈ tokenize text, n.start = t.start ∧ n.tree.leaves.head? = some t.toPair ∧
        ∃ d ∈ p.errors, d.range = t.range ∧
          ((∃ text, n.children = [.token .invalid text]) → d.code.number / 100 = 1)) ∧
    (p.errors = [] → ∀ n ∈ Located.nodesOf 0 [] p.tree, n.kind ≠ .error) := by
  intro p
  have hflags := flags_final { temporal := mode } rfl (placed_tokenize text) entry
  have hroot : (entry.rootKind != .error) = true := by cases entry <;> rfl
  have hall : p.tree.Everywhere (Flagged _ _) [] :=
    hflags.sound.everywhere (rest_final _ entry _) (.of_ne hroot _ _)
  have hleaves : p.tree.leaves = (tokenize text).map Token.toPair := leaves_ofTokens _ entry _
  have hskipped : ∀ n ∈ Located.nodesOf 0 [] p.tree, n.kind = .error →
      ∃ t ∈ tokenize text, n.start = t.start ∧ n.tree.leaves.head? = some t.toPair ∧
        ∃ d ∈ p.errors, d.range = t.range ∧
          ((∃ text, n.children = [.token .invalid text]) → d.code.number / 100 = 1) := by
    intro n hn hkind
    obtain ⟨front, back, hsplit, hstart, hflagged⟩ := Located.everywhere_of_mem_nodesOf _ hall hn
    obtain ⟨first, others, hchildren, r, hr, hrange, hclass⟩ := hflagged hkind
    have hnode : n.tree.leaves = first :: others := hchildren
    rw [List.append_nil, hleaves, hnode] at hsplit
    obtain ⟨before, t, behind, htext, hplace, rfl, -, htoken⟩ := exists_first_token hsplit
    refine ⟨t, ?_, ?_, by rw [hnode]; rfl, r.toDiagnostic, ?_, hrange.trans htoken, ?_⟩
    · rw [htext]
      exact List.mem_append_right _ List.mem_cons_self
    · rw [hstart, hplace, Nat.zero_add]
    · exact mem_errors.mpr ⟨r, List.mem_reverse.mpr hr, rfl⟩
    · exact fun hsingle => (Code.toClass_eq_lexical_iff _).mp (hclass hsingle)
  refine ⟨hskipped, fun hnone n hn hkind => ?_⟩
  obtain ⟨_, _, _, _, d, hd, _⟩ := hskipped n hn hkind
  rw [hnone] at hd
  cases hd

end Parse
end RelLang
