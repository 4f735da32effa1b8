import RelLang.Proofs.Grammar.Track
import RelLang.Proofs.Parse.Placement
import RelLang.Proofs.Parse.Reports

/-!
# The cap on diagnostics

A cap on the number of diagnostics drops reports and does nothing else: a reading with a cap
goes the way of the reading without one, and keeps the first reports that are not fatal and
all that are. Fatal reports are made only at the end of the text, where all that follow are
fatal as well; so it makes no difference that the cap counts them too.
-/

namespace RelLang

/-! ### Reports that are kept -/

/-- Of reports in the order in which they were made, the first ones that are not fatal and all that
are. -/
def truncate (max : Nat) (reports : List Report) : List Report :=
  (reports.filter (!·.fatal)).take max ++ reports.filter (·.fatal)

theorem truncate_append_fatal (max : Nat) (reports : List Report) {r : Report}
    (hr : r.fatal = true) : truncate max (reports ++ [r]) = truncate max reports ++ [r] := by
  simp [truncate, hr]

/-- As long as nothing is fatal, the first reports are kept. -/
theorem truncate_of_plain (max : Nat) {reports : List Report}
    (h : ∀ r ∈ reports, r.fatal = false) : truncate max reports = reports.take max := by
  have hplain : reports.filter (!·.fatal) = reports :=
    List.filter_eq_self.mpr fun r hr => by simp [h r hr]
  have hfatal : reports.filter (·.fatal) = [] :=
    List.filter_eq_nil_iff.mpr fun r hr => by simp [h r hr]
  rw [truncate, hplain, hfatal, List.append_nil]

theorem truncate_nil (max : Nat) : truncate max [] = [] := by
  simp [truncate]

theorem filter_truncate (max : Nat) (reports : List Report) :
    (truncate max reports).filter (·.fatal) = reports.filter (·.fatal) := by
  have hplain : ((reports.filter (!·.fatal)).take max).filter (·.fatal) = [] := by
    refine List.filter_eq_nil_iff.mpr fun r hr => ?_
    simpa using (List.mem_filter.mp (List.mem_of_mem_take hr)).2
  rw [truncate, List.filter_append, hplain, List.nil_append, List.filter_filter]
  simp

theorem isEmpty_truncate {max : Nat} (hmax : 1 ≤ max) (reports : List Report) :
    (truncate max reports).isEmpty = reports.isEmpty := by
  cases reports with
  | nil => rw [truncate_nil]
  | cons r rs =>
    obtain ⟨max, rfl⟩ : ∃ k, max = k + 1 := ⟨max - 1, by omega⟩
    cases hr : r.fatal <;> simp [truncate, hr]

/-- With a cap, a report is dropped if it is not fatal and there are enough. -/
theorem State.reports_keep_of_capped {setting : Setting} {max : Nat}
    (h : setting.maxDiagnostics = some max) (r : Report) (s : State) :
    (s.keep setting r).reports
      = if max ≤ s.reports.length ∧ r.fatal = false then s.reports else r :: s.reports := by
  by_cases hfull : max ≤ s.reports.length <;> cases hr : r.fatal <;> simp [keep, h, hfull, hr]

/-- The second voice has made the reports that the cap leaves of those of the first. Nothing is
fatal in front of a word. -/
structure Capped (max : Nat) (words : List Word) (v v' : Voice) : Prop where
  temporal : v'.temporal = v.temporal
  reports : v'.reports.reverse = truncate max v.reports.reverse
  fatal : ∀ r ∈ v.reports, r.fatal = true → words = []

section

variable {setting setting' : Setting} {max : Nat} {s : State} {v : Voice}

/-- One more report is kept, or dropped if there are enough. -/
theorem Capped.keep (hfull : setting.maxDiagnostics = none)
    (hcap : setting'.maxDiagnostics = some max) (h : Capped max s.words s.voice v) {r : Report}
    (hfatal : r.fatal = true → s.words = [])
    (hplain : r.fatal = false → ∀ q ∈ s.reports, q.fatal = false) :
    Capped max s.words (s.keep setting r).voice ((s.speak v).keep setting' r).voice := by
  have hreports : v.reports.reverse = truncate max s.reports.reverse := h.reports
  have hkept := State.reports_keep_of_capped hcap r (s.speak v)
  obtain ⟨_, heq⟩ := State.keep_eq setting' r (s.speak v)
  rw [State.keep_of_uncapped hfull]
  refine ⟨by rw [heq]; exact h.temporal, ?_, ?_⟩
  · show ((s.speak v).keep setting' r).reports.reverse = truncate max (r :: s.reports).reverse
    rw [hkept, List.reverse_cons]
    cases hr : r.fatal with
    | true =>
      rw [if_neg (by simp), truncate_append_fatal max _ hr, ← hreports, List.reverse_cons]
      rfl
    | false =>
      have hall : ∀ q ∈ s.reports.reverse, q.fatal = false :=
        fun q hq => hplain hr q (List.mem_reverse.mp hq)
      have hall' : ∀ q ∈ s.reports.reverse ++ [r], q.fatal = false := by
        simpa [or_imp, forall_and, hr] using hplain hr
      rw [truncate_of_plain max hall] at hreports
      have hlength : v.reports.length = min max s.reports.length := by
        simpa using congrArg List.length hreports
      rw [truncate_of_plain max hall']
      show (if max ≤ v.reports.length ∧ false = false then v.reports
        else r :: v.reports).reverse = _
      by_cases henough : max ≤ s.reports.length
      · rw [if_pos ⟨by omega, rfl⟩, hreports,
          List.take_append_of_le_length (by simpa using henough)]
      · rw [if_neg (by omega), List.reverse_cons, hreports, List.take_of_length_le (by simp; omega),
          List.take_of_length_le (by simp; omega)]
  · intro q hq hqfatal
    rcases List.mem_cons.mp hq with rfl | hq
    · exact hfatal hqfatal
    · exact h.fatal q hq hqfatal

theorem Capped.report (hstop : setting'.stop = setting.stop)
    (hfull : setting.maxDiagnostics = none) (hcap : setting'.maxDiagnostics = some max)
    (h : Capped max s.words s.voice v) (problem : Problem) :
    Capped max s.words (s.report setting problem).voice
      ((s.speak v).report setting' problem).voice := by
  have hsame : (s.speak v).currentRange setting' = s.currentRange setting := by
    rw [State.currentRange, hstop]
    rfl
  rw [State.report, State.report, hsame]
  refine Capped.keep hfull hcap h List.isEmpty_iff.mp fun hwords q hq => ?_
  refine Bool.eq_false_iff.mpr fun hfatal => ?_
  rw [h.fatal q hq hfatal] at hwords
  cases hwords

theorem tracking_capped (hstop : setting'.stop = setting.stop)
    (hfull : setting.maxDiagnostics = none) (hcap : setting'.maxDiagnostics = some max) :
    Rule.Tracking setting setting' (Capped max) where
  stop := hstop
  taken hvs h := ⟨h.temporal, h.reports, fun r hr hfatal =>
    List.suffix_nil.mp (h.fatal r hr hfatal ▸ hvs)⟩
  reported _ h := h.report hstop hfull hcap _

theorem follows_require_capped (hstop : setting'.stop = setting.stop)
    (hfull : setting.maxDiagnostics = none) (hcap : setting'.maxDiagnostics = some max) :
    Rule.Follows (Capped max) (Capped max) (fun s => ((), s.require setting))
      fun s => ((), s.require setting') := by
  refine .ofState fun s v h => ?_
  have htemporal : (s.speak v).temporal = s.temporal := h.temporal
  cases hs : s.temporal with
  | true =>
    rw [State.require_of_admitted hs, State.require_of_admitted (htemporal.trans hs)]
    exact ⟨v, rfl, h⟩
  | false =>
    rw [State.require_of_not_admitted hs, State.require_of_not_admitted (htemporal.trans hs)]
    refine ⟨_, State.speak_report setting setting' .temporalDisabled s v, ?_⟩
    rw [State.report_words]
    exact h.report hstop hfull hcap .temporalDisabled

theorem follows_admit_capped (hmode : setting'.mode = setting.mode) :
    Rule.Follows (Capped max) (Capped max) (fun s => ((), s.allow setting))
      fun s => ((), s.allow setting') := by
  refine .ofState fun s v h => ?_
  unfold State.allow
  rw [hmode]
  split
  · exact ⟨⟨v.reports, true⟩, rfl, ⟨rfl, h.reports, h.fatal⟩⟩
  · exact ⟨v, rfl, h⟩

/-- Several reports that are not fatal. -/
theorem Capped.foldl_keep (hfull : setting.maxDiagnostics = none)
    (hcap : setting'.maxDiagnostics = some max) (ts : List Token) {s : State} {v : Voice}
    (hplain : ∀ r ∈ s.reports, r.fatal = false) (h : Capped max s.words s.voice v) :
    ∃ v', ts.foldl (fun s t => s.keep setting' (Report.ofInvalid t)) (s.speak v)
        = (ts.foldl (fun s t => s.keep setting (Report.ofInvalid t)) s).speak v' ∧
      Capped max s.words
        (ts.foldl (fun s t => s.keep setting (Report.ofInvalid t)) s).voice v' := by
  induction ts generalizing s v with
  | nil => exact ⟨v, rfl, h⟩
  | cons t ts ih =>
    have hkept := h.keep hfull hcap (r := Report.ofInvalid t) (fun hfatal => nomatch hfatal)
      fun _ => hplain
    have hstep := State.speak_keep setting setting' (Report.ofInvalid t) (Report.ofInvalid t) s v
    have hs := State.keep_of_uncapped hfull (Report.ofInvalid t) s
    rw [List.foldl_cons, List.foldl_cons, hstep]
    rw [hs] at hkept ⊢
    refine ih ?_ hkept
    intro r hr
    rcases List.mem_cons.mp hr with rfl | hr
    · rfl
    · exact hplain r hr

end

/-! ### Notes about openers -/

/-- The report of a missing closer, with its opener. -/
def Report.opened (opener : ByteRange) (r : Report) : Report :=
  match r.problem with
  | .missing expected code _ => { r with problem := .missing expected code (some opener) }
  | _ => r

/-- An opener adds a hint and a note, and changes nothing else. -/
theorem Report.toDiagnostic_opened {r : Report} {expected : TokenKind} {code : Code}
    (h : r.problem = .missing expected code none) (opener : ByteRange) :
    (r.opened opener).toDiagnostic
      = (r.toDiagnostic.withHint ("insert " ++ expected.describe)).withNote
          ⟨"opened here", opener⟩ := by
  obtain ⟨problem, found, context, range, fatal⟩ := r
  obtain rfl : problem = _ := h
  rfl

namespace Rule

variable {ν : Type} {setting : Setting} {enter : ν → State → Bool × State}

/-- A closer is expected like any token. If it is missing, its opener goes into the report just
made, and where that was dropped, into none. -/
theorem run_expectCloser (kind : TokenKind) (opener : ByteRange) (s : State) :
    (expectCloser kind opener : Rule ν Bool).run setting enter s
      = (((expect kind : Rule ν Bool).run setting enter s).1,
        let t := ((expect kind : Rule ν Bool).run setting enter s).2
        if ((expect kind : Rule ν Bool).run setting enter s).1 = false
            ∧ s.reports.length < t.reports.length
        then { t with reports := t.reports.modifyHead (·.opened opener) } else t) := by
  simp only [expectCloser, expect, expectToken, run_bind, run_ite, run_pure, run_nthIs,
    run_atRecoveryPoint, run_report, run_eat]
  by_cases hpresent : (s.kindAt 0 == some kind) = true
  · simp [hpresent]
  · by_cases hstray : (!s.atRecoveryPoint && s.kindAt 1 == some kind) = true
    · simp [hpresent, hstray]
    · simp only [hpresent, hstray, if_false, Bool.false_eq_true, true_and]
      unfold State.report State.keep
      dsimp only
      split <;> simp [Report.opened]

end Rule

/-! ### Whole readings -/

namespace Parse

/-- A reading with a cap goes the way of the one without, from the first token to the last. -/
theorem final_capped (mode : TemporalMode) (entry : Entry) (tokens : List Token) (max : Nat) :
    ∃ v, final { temporal := mode, maxDiagnostics := some max } entry tokens
        = (final { temporal := mode } entry tokens).speak v ∧
      Capped max (final { temporal := mode } entry tokens).words
        (final { temporal := mode } entry tokens).voice v := by
  let full : ParseConfig := { temporal := mode }
  let capped : ParseConfig := { temporal := mode, maxDiagnostics := some max }
  have hfull : (setting full tokens).maxDiagnostics = none := rfl
  have hcap : (setting capped tokens).maxDiagnostics = some max := rfl
  have hstop : (setting capped tokens).stop = (setting full tokens).stop := rfl
  have hR := tracking_capped hstop hfull hcap
  have hrequire := follows_require_capped hstop hfull hcap
  have hoption (enter enter' : Grammar.Nonterminal → State → Bool × State) :
      Rule.Follows (Capped max) (Capped max) (Grammar.optionDecl.run (setting full tokens) enter)
        (Grammar.optionDecl.run (setting capped tokens) enter') :=
    Grammar.follows_optionDecl hR (follows_admit_capped rfl)
  obtain ⟨v, hstart, hv⟩ := Capped.foldl_keep hfull hcap (tokens.filter (·.kind == .invalid))
    (s := { pending := (Word.split tokens).1, words := (Word.split tokens).2, left := tokens.length
            temporal := full.admitsTemporal (languageOf (tokens.map Token.toPair)) })
    (v := ⟨[], full.admitsTemporal (languageOf (tokens.map Token.toPair))⟩)
    (fun _ hr => nomatch hr) ⟨rfl, (truncate_nil max).symm, fun _ hr => nomatch hr⟩
  have hwords : (start full tokens).words = (Word.split tokens).2 := by
    obtain ⟨_, h⟩ := start_eq full tokens
    rw [h]
  exact final_follows hR hrequire hoption hstart (hwords ▸ hv) entry

/-- A cap only drops diagnostics. For every text, whatever it is read as and whenever temporal
constructs are admitted, a reading that keeps `max` reports makes the tree and finds the language
that a reading without a cap does. Of the reports of that reading, the lexical ones first, it has
the first `max` that are not fatal and all that are. So its outcome is the same, and if one report
is kept, so is whether there is anything to say. -/
theorem cap_only_drops (mode : TemporalMode) (entry : Entry) (text : String) (max : Nat) :
    let full := ofText { temporal := mode } entry text
    let capped := ofText { temporal := mode, maxDiagnostics := some max } entry text
    capped.tree = full.tree ∧ capped.language = full.language ∧
    capped.reports = (full.reports.filter (!·.fatal)).take max ++ full.reports.filter (·.fatal) ∧
    (∃ lexical made, full.reports = lexical ++ made ∧
      (∀ r ∈ lexical, r.problem.code.toClass = .lexical) ∧
      ∀ r ∈ made, r.problem.code.toClass ≠ .lexical) ∧
    capped.hasFatal = full.hasFatal ∧ capped.failure? = full.failure? ∧
    (1 ≤ max → capped.ok = full.ok) := by
  intro full capped
  obtain ⟨v, hfinal, hv⟩ := final_capped mode entry (tokenize text) max
  have hreports : capped.reports = truncate max full.reports := by
    show (final _ entry (tokenize text)).reports.reverse = _
    rw [hfinal]
    exact hv.reports
  have hfailure : capped.failure? = full.failure? :=
    failure?_congr (by rw [hreports, filter_truncate])
  refine ⟨?_, rfl, hreports, ?_, ?_, hfailure, ?_⟩
  · show Tree.node entry.rootKind (final _ entry (tokenize text)).siblings.reverse = _
    rw [hfinal]
    rfl
  · obtain ⟨lexical, made, hsplit, hlexical, hmade, -⟩ :=
      reports_split (placed_tokenize text) { temporal := mode } entry
    refine ⟨lexical, made, hsplit, ?_, fun r hr => (hmade r hr).1⟩
    intro r hr
    obtain ⟨t, -, -, rfl⟩ := hlexical r hr
    exact LexicalFault.toClass_code (.ofText t.text)
  · rw [hasFatal_eq_isSome, hasFatal_eq_isSome, hfailure]
  · intro hmax
    rw [ok, ok, hreports, isEmpty_truncate hmax]

end Parse
end RelLang
