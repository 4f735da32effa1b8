import Mathlib
import RelLang.Proofs.Grammar.Unclosed

/-!
# Where groups were opened

A diagnostic with a note is that of a closing mark that is missing, and the note is the range of the
mark that opened the group, in front of the diagnostic. The one exception are braces that are
expected: where a stray token has been reported in front of the opening brace, the note is the range
of that token.
-/

namespace RelLang
namespace Parse

/-- A token ends in front of where the reading stands once it has been taken. -/
theorem stop_le_place {tokens : List Token} (htokens : Token.Placed 0 tokens) (config : ParseConfig)
    {w : Word} {ws vs : List Word} (hws : w :: ws <:+ (start config tokens).words)
    (hvs : vs <:+ ws) : w.token.stop ≤ (setting config tokens).place vs := by
  have hfilter := (valid_start config tokens).filter_rest
  rw [rest_start] at hfilter
  have hmem := (token_mem_of_mem_words config tokens w (hws.subset List.mem_cons_self)).1
  cases vs with
  | nil =>
    have hstop := htokens.stop_le hmem
    show w.token.stop ≤ Token.listStop tokens
    rw [htokens.listStop_eq]
    omega
  | cons v vs =>
    have hpairwise := htokens.pairwise_stop.filter (fun t => t.kind.isSignificant)
    rw [hfilter, List.pairwise_map] at hpairwise
    exact (List.pairwise_cons.mp (hpairwise.sublist hws.sublist)).1 v
      (hvs.subset List.mem_cons_self)

/-- What the reports at the end of a reading note is where groups were opened. -/
theorem traced_final (config : ParseConfig) (entry : Entry) (tokens : List Token) :
    (final config entry tokens).Traced (setting config tokens) (start config tokens).words := by
  have hstart : (start config tokens).Traced (setting config tokens)
      (start config tokens).words := by
    refine ⟨List.suffix_refl _, fun r hr kind code range hmissing => ?_⟩
    obtain ⟨t, -, -, rfl⟩ := invalid_of_mem_reports_start config tokens r hr
    cases hmissing
  exact Grammar.traces_entry entry _ (Grammar.language.steady_enter _ _)
    (Grammar.maintainingCalls_traced nestingLimit) _ (valid_start config tokens) hstart

/-- Only a closing mark that is missing is noted. -/
theorem missing_of_mem_notes {problem : Problem} {note : Note} (h : note ∈ problem.notes) :
    ∃ kind code range, problem = .missing kind code (some range) ∧
      note = ⟨"opened here", range⟩ := by
  unfold Problem.notes at h
  split at h
  · exact ⟨_, _, _, rfl, List.mem_singleton.mp h⟩
  · cases h

/-- A diagnostic with a note tells which closing mark to insert, and its note is the range of the
mark that opened the group, in front of the diagnostic. If it is not, then it is that of the token
in front of an opening brace, which has been reported as a stray one, unless the number of
diagnostics is capped. -/
theorem opener_noted (config : ParseConfig) (entry : Entry) (text : String) {d : Diagnostic}
    (hd : d ∈ (ofText config entry text).errors) {note : Note} (hnote : note ∈ d.notes) :
    ∃ closer opener front t behind, Punct.opener? closer = some opener ∧
      d.hint = some ("insert " ++ (TokenKind.punct closer).describe) ∧
      d.notes = [note] ∧ note.message = "opened here" ∧
      (tokenize text).filter (·.kind.isSignificant) = front ++ t :: behind ∧
      t.kind = .punct opener ∧ t.stop ≤ d.range.start ∧
      (note.range = t.range ∨
        opener = .lbrace ∧ front.getLast?.map Token.range = some note.range ∧
          (config.maxDiagnostics = none → ∃ e ∈ (ofText config entry text).errors,
            e.code = .strayToken ∧ e.range = note.range)) := by
  have hplaced := placed_tokenize text
  have hsignificant := (valid_start config (tokenize text)).filter_rest
  rw [rest_start] at hsignificant
  have herror {e : Report} (he : e ∈ (final config entry (tokenize text)).reports) :
      e.toDiagnostic ∈ (ofText config entry text).errors :=
    mem_errors.mpr ⟨e, by rwa [ofText, reports_ofTokens, List.mem_reverse], rfl⟩
  obtain ⟨r, hr, rfl⟩ := mem_errors.mp hd
  rw [ofText, reports_ofTokens, List.mem_reverse] at hr
  obtain ⟨kind, code, range, hproblem, rfl⟩ := missing_of_mem_notes hnote
  obtain ⟨closer, words, rfl, hopened, hstart⟩ :=
    (traced_final config entry (tokenize text)).reports r hr kind code range hproblem
  have hhint : r.toDiagnostic.hint = some ("insert " ++ (TokenKind.punct closer).describe) := by
    show r.problem.hint = _
    rw [hproblem]
    rfl
  have hnotes : r.toDiagnostic.notes = [⟨"opened here", range⟩] := by
    show r.problem.notes = _
    rw [hproblem]
    rfl
  have hplace : r.toDiagnostic.range.start = (setting config (tokenize text)).place words := hstart
  cases hopened with
  | @opener _ opener w ws hcloses hkind htext hwords =>
    have hstop := stop_le_place hplaced config htext hwords
    obtain ⟨front, hfront⟩ := htext
    refine ⟨closer, opener, front.map Word.token, w.token, ws.map Word.token, hcloses, hhint,
      hnotes, rfl, ?_, hkind, hplace ▸ hstop, .inl rfl⟩
    rw [hsignificant, ← hfront, List.map_append, List.map_cons]
  | @stray v w ws hkind htext hwords hreported =>
    have hstop := stop_le_place hplaced config ((List.suffix_cons v _).trans htext) hwords
    obtain ⟨front, hfront⟩ := htext
    refine ⟨.rbrace, .lbrace, (front ++ [v]).map Word.token, w.token, ws.map Word.token, rfl, hhint,
      hnotes, rfl, ?_, hkind, hplace ▸ hstop, .inr ⟨rfl, ?_, fun hfull => ?_⟩⟩
    · rw [hsignificant, ← hfront, List.append_cons, List.map_append, List.map_cons]
    · rw [List.map_append, List.map_singleton, List.getLast?_concat, Option.map_some]
    · obtain ⟨e, he, hstray, hrange⟩ := hreported hfull
      refine ⟨e.toDiagnostic, herror he, ?_, hrange⟩
      show e.problem.code = _
      rw [hstray]
      rfl

/-- The end of the text behind `a` is where the closing brace of the body is missing. -/
theorem opener_noted_body :
    let note : Note := { message := "opened here", range := { start := 7, stop := 8 } }
    let d : Diagnostic :=
      { message := "expected '\x7d', found end of input", range := { start := 10, stop := 10 }
        code := .missingBrace, hint := some "insert '\x7d'", notes := [note], fatal := true }
    d ∈ (ofText {} .wholeModule "pred p \x7b a").errors ∧ note ∈ d.notes ∧
      ∃ closer opener front t behind, Punct.opener? closer = some opener ∧
        d.hint = some ("insert " ++ (TokenKind.punct closer).describe) ∧
        d.notes = [note] ∧ note.message = "opened here" ∧
        (tokenize "pred p \x7b a").filter (·.kind.isSignificant) = front ++ t :: behind ∧
        t.kind = .punct opener ∧ t.stop ≤ d.range.start ∧
        (note.range = t.range ∨
          opener = .lbrace ∧ front.getLast?.map Token.range = some note.range ∧
            ((none : Option Nat) = none →
              ∃ e ∈ (ofText {} .wholeModule "pred p \x7b a").errors,
                e.code = .strayToken ∧ e.range = note.range)) := by
  intro note d
  have hreports : (ofText {} .wholeModule "pred p \x7b a").reports
      = [{ problem := .missing Punct.rbrace .missingBrace (some { start := 7, stop := 8 })
           found := .endOfText, context := .topLevel
           range := { start := 10, stop := 10 }, fatal := true }] := by rw [ofText_eq]; rfl
  have hd : d ∈ (ofText {} .wholeModule "pred p \x7b a").errors :=
    mem_errors.mpr ⟨_, hreports ▸ List.mem_singleton_self _, rfl⟩
  have hnote : note ∈ d.notes := List.mem_singleton_self note
  exact ⟨hd, hnote, opener_noted {} .wholeModule "pred p \x7b a" hd hnote⟩

/-- Behind a name too many, the note is the range of that name and of no brace. -/
theorem stray_noted :
    ∃ d ∈ (ofText {} .wholeModule "sig A x \x7b").errors, d.hint = some "insert '\x7d'" ∧
      ∃ note ∈ d.notes, note.message = "opened here" ∧
        ∀ t ∈ tokenize "sig A x \x7b", t.kind = .punct .lbrace → note.range ≠ t.range := by
  have hreports : (ofText {} .wholeModule "sig A x \x7b").reports
      = [{ problem := .stray Punct.lbrace, found := .token .ident "x", context := .topLevel
           range := { start := 6, stop := 7 }, fatal := false },
         { problem := .missing Punct.rbrace .missingBrace (some { start := 6, stop := 7 })
           found := .endOfText, context := .topLevel
           range := { start := 9, stop := 9 }, fatal := true }] := by rw [ofText_eq]; rfl
  have htokens : (tokenize "sig A x \x7b").map (fun t => (t.kind, t.range.start))
      = [(.keyword .sigKw, 0), (.whitespace, 3), (.ident, 4), (.whitespace, 5), (.ident, 6),
         (.whitespace, 7), (.punct .lbrace, 8)] := by rw [tokenize_eq]; rfl
  refine ⟨_, mem_errors.mpr ⟨_, hreports ▸ List.mem_cons_of_mem _ (List.mem_singleton_self _), rfl⟩,
    rfl, _, List.mem_singleton_self _, rfl, fun t ht hkind hrange => ?_⟩
  have hplace : (TokenKind.punct .lbrace, 6) ∈ (tokenize "sig A x \x7b").map
      (fun t => (t.kind, t.range.start)) :=
    List.mem_map.mpr ⟨t, ht, by rw [hkind, ← hrange]⟩
  rw [htokens] at hplace
  revert hplace
  decide

end Parse
end RelLang
