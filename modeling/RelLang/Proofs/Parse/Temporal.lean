import RelLang.Proofs.Grammar.Track
import RelLang.Proofs.Parse.Placement
import RelLang.Proofs.Parse.Reports

/-!
# When temporal constructs are admitted

Whether temporal constructs are admitted decides which of them are reported, and nothing
else. A reading that admits them and one that does not go the same way, and the first one
leaves out the reports of temporal constructs from the place on at which it admits them. An
option that asks for them stands behind all temporal constructs that have been reported,
since its own first token is behind them.
-/

namespace RelLang

/-! ### Places in front of each other -/

/-- The words stand one behind another, no two at one place, and in front of the end of the text. -/
structure Setting.Separates (setting : Setting) (words : List Word) : Prop where
  orders : setting.Orders words
  pairwise : words.Pairwise fun v w => v.token.start < w.token.start

theorem Setting.Separates.suffix {setting : Setting} {words ws : List Word}
    (h : setting.Separates words) (hws : ws <:+ words) : setting.Separates ws :=
  ⟨h.orders.suffix hws, h.pairwise.sublist hws.sublist⟩

/-- The next word stands behind the one that is taken. -/
theorem Setting.Separates.place_lt {setting : Setting} {w : Word} {ws : List Word}
    (h : setting.Separates (w :: ws)) (hws : ws ≠ []) :
    setting.place (w :: ws) < setting.place ws := by
  obtain ⟨v, vs, rfl⟩ := List.exists_cons_of_ne_nil hws
  exact (List.pairwise_cons.mp h.pairwise).1 v List.mem_cons_self

/-! ### How the voices are related -/

/-- The report of a temporal construct at the offset or behind it. -/
def Report.isTemporalFrom (offset : Nat) (r : Report) : Bool :=
  r.problem.code == .temporalDisabled && decide (offset ≤ r.range.start)

theorem Report.isTemporalFrom_of_ne {r : Report} (h : r.problem.code ≠ .temporalDisabled)
    (offset : Nat) : r.isTemporalFrom offset = false := by
  simp [isTemporalFrom, h]

theorem Problem.code_ne_of_ofRule {problem : Problem} (h : problem.ofRule = true) :
    problem.code ≠ .temporalDisabled := by
  simp only [ofRule, Bool.and_eq_true, bne_iff_ne] at h
  exact h.2

/-- Where all temporal constructs stand in front of the offset, none is at it or behind it. -/
theorem Report.filter_isTemporalFrom {offset : Nat} {reports : List Report}
    (h : ∀ r ∈ reports, r.problem.code = .temporalDisabled → r.range.start < offset) :
    (reports.filter fun r => !r.isTemporalFrom offset) = reports := by
  refine List.filter_eq_self.mpr fun r hr => ?_
  by_cases hcode : r.problem.code = .temporalDisabled
  · have hlt := h r hr hcode
    simpa [isTemporalFrom, hcode] using hlt
  · rw [isTemporalFrom_of_ne hcode]
    rfl

/-- A piece of text that is no token is no temporal construct. -/
theorem Report.code_ofInvalid_ne (t : Token) :
    (Report.ofInvalid t).problem.code ≠ .temporalDisabled := by
  intro hcode
  have hclass := LexicalFault.toClass_code (.ofText t.text)
  rw [show (LexicalFault.ofText t.text).code = .temporalDisabled from hcode] at hclass
  cases hclass

/-- The second voice admits temporal constructs, and has left out the reports of those from the
offset on. -/
structure Admitted (setting : Setting) (offset : Nat) (words : List Word) (v v' : Voice) :
    Prop where
  orders : setting.Orders words
  disabled : v.temporal = false
  admitted : v'.temporal = true
  reports : v'.reports = v.reports.filter fun r => !r.isTemporalFrom offset
  place : offset ≤ setting.place words

/-- Neither voice admits temporal constructs, and those that are reported stand where they may. -/
structure Unadmitted (setting : Setting) (place : List Word → Nat → Prop) (words : List Word)
    (v v' : Voice) : Prop where
  separates : setting.Separates words
  same : v' = v
  disabled : v.temporal = false
  placed : ∀ r ∈ v.reports, r.problem.code = .temporalDisabled → place words r.range.start

section

variable {setting setting' : Setting} {offset : Nat} {s : State} {v : Voice}

theorem State.currentRange_speak (hstop : setting'.stop = setting.stop) :
    (s.speak v).currentRange setting' = s.currentRange setting := by
  rw [currentRange, hstop]
  rfl

/-- Both voices make the report, which is about no temporal construct. -/
theorem Admitted.report (hstop : setting'.stop = setting.stop)
    (hfull : setting.maxDiagnostics = none) (hfull' : setting'.maxDiagnostics = none)
    (h : Admitted setting offset s.words s.voice v) {problem : Problem}
    (hproblem : problem.ofRule = true) :
    Admitted setting offset s.words (s.report setting problem).voice
      ((s.speak v).report setting' problem).voice := by
  rw [State.report_of_uncapped hfull, State.report_of_uncapped hfull',
    State.currentRange_speak hstop]
  refine ⟨h.orders, h.disabled, h.admitted, ?_, h.place⟩
  have hkept := Report.isTemporalFrom_of_ne
    (r := { problem, found := s.found, context := s.context, range := s.currentRange setting
            fatal := s.words.isEmpty }) (Problem.code_ne_of_ofRule hproblem) offset
  show _ :: v.reports = List.filter _ (_ :: s.reports)
  rw [List.filter_cons_of_pos (by rw [hkept]; rfl)]
  exact congrArg (List.cons _) h.reports

/-- A temporal construct is reported by the first voice alone. -/
theorem Admitted.require (hfull : setting.maxDiagnostics = none)
    (h : Admitted setting offset s.words s.voice v) :
    Admitted setting offset s.words (s.require setting).voice v := by
  rw [State.require_of_not_admitted h.disabled, State.report_of_uncapped hfull]
  refine ⟨h.orders, h.disabled, h.admitted, ?_, h.place⟩
  have hplace : offset ≤ (s.currentRange setting).start := by
    rw [State.start_currentRange]
    exact h.place
  show v.reports = List.filter _ (_ :: s.reports)
  rw [List.filter_cons_of_neg (by simp [Report.isTemporalFrom, Problem.code, hplace])]
  exact h.reports

theorem tracking_admitted (hstop : setting'.stop = setting.stop)
    (hfull : setting.maxDiagnostics = none) (hfull' : setting'.maxDiagnostics = none) :
    Rule.Tracking setting setting' (Admitted setting offset) where
  stop := hstop
  taken hvs h := ⟨h.orders.suffix hvs, h.disabled, h.admitted, h.reports,
    Nat.le_trans h.place (h.orders.place_le hvs)⟩
  reported hproblem h := h.report hstop hfull hfull' hproblem

theorem follows_require_admitted (hfull : setting.maxDiagnostics = none) :
    Rule.Follows (Admitted setting offset) (Admitted setting offset)
      (fun s => ((), s.require setting)) fun s => ((), s.require setting') := by
  refine .ofState fun s v h => ⟨v, ?_, ?_⟩
  · have hadmitted := State.require_of_admitted (s := s.speak v) h.admitted setting'
    rw [hadmitted, State.require_of_not_admitted h.disabled, State.report_of_uncapped hfull]
    rfl
  · have hwords : (s.require setting).words = s.words := by
      rw [State.require_of_not_admitted h.disabled, State.report_words]
    rw [hwords]
    exact h.require hfull

/-- What is admitted stays admitted. -/
theorem follows_admit_admitted (hmode : setting.mode ≠ .fromLanguageLine) :
    Rule.Follows (Admitted setting offset) (Admitted setting offset)
      (fun s => ((), s.allow setting)) fun s => ((), s.allow setting') := by
  refine .ofState fun s v h => ?_
  have hdisabled : s.allow setting = s := if_neg hmode
  rw [hdisabled]
  refine ⟨v, ?_, h⟩
  unfold State.allow
  split
  · show s.speak { v with temporal := true } = s.speak v
    rw [← h.admitted]
  · rfl

/-! ### Before anything is admitted -/

theorem tracking_unadmitted {place : List Word → Nat → Prop} (hstop : setting'.stop = setting.stop)
    (hfull : setting.maxDiagnostics = none) (hfull' : setting'.maxDiagnostics = none)
    (hplace : ∀ ws vs n, setting.Separates ws → vs <:+ ws → place ws n → place vs n) :
    Rule.Tracking setting setting' (Unadmitted setting place) where
  stop := hstop
  taken hvs h := ⟨h.separates.suffix hvs, h.same, h.disabled,
    fun r hr hcode => hplace _ _ _ h.separates hvs (h.placed r hr hcode)⟩
  reported {s v problem} hproblem h := by
    obtain rfl := h.same
    rw [State.report_of_uncapped hfull, State.report_of_uncapped hfull',
      State.currentRange_speak hstop]
    refine ⟨h.separates, rfl, h.disabled, ?_⟩
    intro r hr hcode
    rcases List.mem_cons.mp hr with rfl | hr
    · exact absurd hcode (Problem.code_ne_of_ofRule hproblem)
    · exact h.placed r hr hcode

/-- At the current word or in front of it. -/
def Setting.UpTo (setting : Setting) (words : List Word) (n : Nat) : Prop := n ≤ setting.place words

/-- In front of the current word, or at the end of the text. -/
def Setting.Passed (setting : Setting) (words : List Word) (n : Nat) : Prop :=
  n ≤ setting.place words ∧ (words ≠ [] → n < setting.place words)

/-- In front of the current word, or of the end of the text. -/
def Setting.InFront (setting : Setting) (words : List Word) (n : Nat) : Prop :=
  n < setting.place words

/-- The second voice does not admit temporal constructs yet, or does so from some offset on. -/
def Switching (setting : Setting) (words : List Word) (v v' : Voice) : Prop :=
  Unadmitted setting setting.UpTo words v v' ∨ ∃ offset, Admitted setting offset words v v'

/-- The second voice begins to admit temporal constructs where it is asked to. -/
theorem follows_admit_inFront (hmode : setting.mode ≠ .fromLanguageLine) :
    Rule.Follows (Unadmitted setting setting.InFront) (Switching setting)
      (fun s => ((), s.allow setting)) fun s => ((), s.allow setting') := by
  refine .ofState fun s v h => ?_
  obtain rfl := h.same
  have hdisabled : s.allow setting = s := if_neg hmode
  rw [hdisabled, State.speak_voice, State.allow]
  split
  · refine ⟨⟨s.reports, true⟩, rfl, .inr ⟨setting.place s.words, ?_⟩⟩
    exact ⟨h.separates.orders, h.disabled, rfl, (Report.filter_isTemporalFrom h.placed).symm,
      Nat.le_refl _⟩
  · exact ⟨s.voice, rfl, .inl ⟨h.separates, rfl, h.disabled,
      fun r hr hcode => Nat.le_of_lt (h.placed r hr hcode)⟩⟩

section

variable (hstop : setting'.stop = setting.stop) (hfull : setting.maxDiagnostics = none)
  (hfull' : setting'.maxDiagnostics = none)

include hstop hfull hfull'

theorem tracking_upTo : Rule.Tracking setting setting' (Unadmitted setting setting.UpTo) :=
  tracking_unadmitted hstop hfull hfull' fun _ _ _ hws hvs hn =>
    Nat.le_trans hn (hws.orders.place_le hvs)

theorem tracking_passed : Rule.Tracking setting setting' (Unadmitted setting setting.Passed) := by
  refine tracking_unadmitted hstop hfull hfull' fun ws vs n hws hvs hn => ?_
  have hle := hws.orders.place_le hvs
  refine ⟨Nat.le_trans hn.1 hle, fun hne => Nat.lt_of_lt_of_le (hn.2 ?_) hle⟩
  rintro rfl
  exact hne (List.suffix_nil.mp hvs)

theorem tracking_inFront : Rule.Tracking setting setting' (Unadmitted setting setting.InFront) :=
  tracking_unadmitted hstop hfull hfull' fun _ _ _ hws hvs hn =>
    Nat.lt_of_lt_of_le hn (hws.orders.place_le hvs)

theorem tracking_switching : Rule.Tracking setting setting' (Switching setting) where
  stop := hstop
  taken hvs h := h.imp ((tracking_upTo hstop hfull hfull').taken hvs)
    fun ⟨offset, h⟩ => ⟨offset, (tracking_admitted hstop hfull hfull').taken hvs h⟩
  reported hproblem h := h.imp ((tracking_upTo hstop hfull hfull').reported hproblem)
    fun ⟨offset, h⟩ => ⟨offset, h.report hstop hfull hfull' hproblem⟩

/-- A temporal construct that neither voice admits is reported by both. -/
theorem follows_require_upTo :
    Rule.Follows (Unadmitted setting setting.UpTo) (Unadmitted setting setting.UpTo)
      (fun s => ((), s.require setting)) fun s => ((), s.require setting') := by
  refine .ofState fun s v h => ?_
  obtain rfl := h.same
  have hrange : s.currentRange setting' = s.currentRange setting :=
    State.currentRange_speak (v := s.voice) hstop
  rw [State.speak_voice, State.require_of_not_admitted h.disabled,
    State.require_of_not_admitted h.disabled, State.report_words, State.report_of_uncapped hfull,
    State.report_of_uncapped hfull', hrange]
  refine ⟨_, (State.speak_voice _).symm, h.separates, rfl, h.disabled, ?_⟩
  intro r hr hcode
  rcases List.mem_cons.mp hr with rfl | hr
  · exact Nat.le_of_eq (State.start_currentRange setting s)
  · exact h.placed r hr hcode

theorem follows_require_switching :
    Rule.Follows (Switching setting) (Switching setting)
      (fun s => ((), s.require setting)) fun s => ((), s.require setting') := by
  intro s v h
  rcases h with h | ⟨offset, h⟩
  · obtain ⟨v', hrun, h'⟩ := follows_require_upTo hstop hfull hfull' s v h
    exact ⟨v', hrun, .inl h'⟩
  · have hrequire : Rule.Follows (Admitted setting offset) (Admitted setting offset)
        (fun s => ((), s.require setting)) fun s => ((), s.require setting') :=
      follows_require_admitted hfull
    obtain ⟨v', hrun, h'⟩ := hrequire s v h
    exact ⟨v', hrun, .inr ⟨offset, h'⟩⟩

/-- The first token of an option is behind all that has been reported. -/
theorem follows_bump_passed {ν : Type} {enter enter' : ν → State → Bool × State} :
    Rule.Follows (Unadmitted setting setting.UpTo) (Unadmitted setting setting.Passed)
      (Rule.bump.run setting enter) (Rule.bump.run setting' enter') := by
  intro s v h
  have hbump : Rule.Follows (Unadmitted setting setting.UpTo) (Unadmitted setting setting.UpTo)
      (Rule.bump.run setting enter) (Rule.bump.run setting' enter') :=
    .bump (tracking_upTo hstop hfull hfull')
  obtain ⟨v', hrun, h'⟩ := hbump s v h
  refine ⟨v', hrun, h'.separates, h'.same, h'.disabled, fun r hr hcode => ?_⟩
  refine ⟨h'.placed r hr hcode, fun hne => ?_⟩
  have hr' : r ∈ s.reports := by
    have hreports : s.bump.reports = s.reports := congrArg Voice.reports (State.voice_bump s)
    rw [← hreports]
    exact hr
  have hplaced := h.placed r hr' hcode
  have hseparates := h.separates
  rw [Rule.run_bump] at hne ⊢
  cases hw : s.words with
  | nil =>
    rw [State.bump_of_words_eq_nil hw] at hne
    exact absurd hw hne
  | cons w ws =>
    rw [State.bump_of_words_eq_cons hw] at hne ⊢
    rw [hw] at hplaced hseparates
    exact Nat.lt_of_le_of_lt hplaced (hseparates.place_lt hne)

/-- An option that asks for temporal constructs is behind all that have been reported. -/
theorem follows_optionDecl_upTo (hmode : setting.mode ≠ .fromLanguageLine)
    {enter enter' : Grammar.Nonterminal → State → Bool × State} :
    Rule.Follows (Unadmitted setting setting.UpTo) (Switching setting)
      (Grammar.optionDecl.run setting enter) (Grammar.optionDecl.run setting' enter') := by
  have hpassed := tracking_passed hstop hfull hfull'
  have hinFront := tracking_inFront hstop hfull hfull'
  refine .node _ <| .bind (follows_bump_passed hstop hfull hfull') fun _ =>
    .bind (.ofLooking (fun _ => rfl) fun _ _ => rfl) fun key =>
    .bind (.ofElementary hpassed Grammar.elementary_qualName.ignore) fun _ =>
    .currentText fun value => ?_
  cases hcond : key == "problem_type" && value == "temporal" with
  | true =>
    have hvalue : value ≠ "" := by
      rintro rfl
      simp at hcond
    refine .bind (.mono (.ofElementary hinFront Grammar.elementary_optionValue) ?_
      fun _ _ _ => id) fun _ => follows_admit_inFront hmode
    rintro ws v v' ⟨h, hahead⟩
    exact ⟨h.separates, h.same, h.disabled,
      fun r hr hcode => (h.placed r hr hcode).2 (hahead hvalue)⟩
  | false =>
    have hskipped : Rule.Follows (Unadmitted setting setting.Passed)
        (Unadmitted setting setting.Passed) ((Rule.when false .admitTemporal).run setting enter)
        ((Rule.when false .admitTemporal).run setting' enter') :=
      .ofLooking (fun _ => rfl) fun _ _ => rfl
    refine .bind (.mono (.ofElementary hpassed Grammar.elementary_optionValue)
      (fun _ _ _ h => h.1) fun _ _ _ => id) fun _ => hskipped.mono (fun _ _ _ => id) ?_
    rintro ws v v' h
    exact .inl ⟨h.separates, h.same, h.disabled, fun r hr hcode => (h.placed r hr hcode).1⟩

theorem follows_optionDecl_switching (hmode : setting.mode ≠ .fromLanguageLine)
    {enter enter' : Grammar.Nonterminal → State → Bool × State} :
    Rule.Follows (Switching setting) (Switching setting)
      (Grammar.optionDecl.run setting enter) (Grammar.optionDecl.run setting' enter') := by
  intro s v h
  rcases h with h | ⟨offset, h⟩
  · exact follows_optionDecl_upTo hstop hfull hfull' hmode s v h
  · have hoption : Rule.Follows (Admitted setting offset) (Admitted setting offset)
        (Grammar.optionDecl.run setting enter) (Grammar.optionDecl.run setting' enter') :=
      Grammar.follows_optionDecl (tracking_admitted hstop hfull hfull')
        (follows_admit_admitted hmode)
    obtain ⟨v', hrun, h'⟩ := hoption s v h
    exact ⟨v', hrun, .inr ⟨offset, h'⟩⟩

end

/-- Where nothing was ever admitted, nothing is left out behind the end of the text. -/
theorem Unadmitted.reports_eq {words : List Word} {v' : Voice}
    (h : Unadmitted setting setting.UpTo words v v') :
    v'.reports = v.reports.filter fun r => !r.isTemporalFrom (setting.place words + 1) := by
  obtain rfl := h.same
  exact (Report.filter_isTemporalFrom fun r hr hcode =>
    Nat.lt_succ_of_le (h.placed r hr hcode)).symm

end

/-! ### Whole readings -/

namespace Parse

theorem separates_start {tokens : List Token} (htokens : Token.Placed 0 tokens)
    (config : ParseConfig) :
    (setting config tokens).Separates (start config tokens).words := by
  have hfilter := (valid_start config tokens).filter_rest
  rw [rest_start] at hfilter
  have hpairwise := htokens.pairwise_start.filter (fun t => t.kind.isSignificant)
  rw [hfilter, List.pairwise_map] at hpairwise
  exact ⟨orders_start htokens config, hpairwise⟩

/-- Readings in two modes start alike but for whether temporal constructs are admitted. -/
theorem start_mode (mode mode' : TemporalMode) (tokens : List Token) :
    start { temporal := mode' } tokens = (start { temporal := mode } tokens).speak
      ⟨(start { temporal := mode } tokens).reports,
        ({ temporal := mode' } : ParseConfig).admitsTemporal
          (languageOf (tokens.map Token.toPair))⟩ := by
  obtain ⟨reports, h⟩ := start_eq { temporal := mode } tokens
  obtain ⟨reports', h'⟩ := start_eq { temporal := mode' } tokens
  have hreports : reports' = reports := by
    have hsame := (reports_start_of_uncapped { temporal := mode' } tokens rfl).trans
      (reports_start_of_uncapped { temporal := mode } tokens rfl).symm
    rwa [h, h'] at hsame
  rw [h, h', hreports]
  rfl

/-- A reading that admits temporal constructs from the start goes the way of one that does not,
without the reports of temporal constructs. -/
theorem final_admitted (mode : TemporalMode) {tokens : List Token}
    (htokens : Token.Placed 0 tokens) (entry : Entry)
    (hadmits : ({ temporal := mode } : ParseConfig).admitsTemporal
      (languageOf (tokens.map Token.toPair)) = true) :
    ∃ v, final { temporal := mode } entry tokens
        = (final { temporal := .disabled } entry tokens).speak v ∧
      Admitted (setting { temporal := .disabled } tokens) 0
        (final { temporal := .disabled } entry tokens).words
        (final { temporal := .disabled } entry tokens).voice v := by
  let full := setting { temporal := .disabled } tokens
  have hR : Rule.Tracking full (setting { temporal := mode } tokens) (Admitted full 0) :=
    tracking_admitted rfl rfl rfl
  refine final_follows hR (follows_require_admitted rfl)
    (fun _ _ => Grammar.follows_optionDecl hR (follows_admit_admitted nofun))
    (start_mode .disabled mode tokens) ?_ entry
  refine ⟨orders_start htokens _, temporal_start { temporal := .disabled } tokens, hadmits, ?_,
    Nat.zero_le _⟩
  refine (List.filter_eq_self.mpr fun r hr => ?_).symm
  obtain ⟨t, -, -, rfl⟩ := invalid_of_mem_reports_start _ _ r hr
  rw [Report.isTemporalFrom_of_ne (Report.code_ofInvalid_ne t)]
  rfl

/-- If the language is not temporal, a reading that leaves it to the text begins like one that
admits no temporal constructs. -/
theorem unadmitted_start {tokens : List Token} (htokens : Token.Placed 0 tokens)
    (hadmits : ({ temporal := .fromLanguageLine } : ParseConfig).admitsTemporal
      (languageOf (tokens.map Token.toPair)) = false) :
    Unadmitted (setting { temporal := .disabled } tokens)
      (setting { temporal := .disabled } tokens).UpTo (start { temporal := .disabled } tokens).words
      (start { temporal := .disabled } tokens).voice
      ⟨(start { temporal := .disabled } tokens).reports,
        ({ temporal := .fromLanguageLine } : ParseConfig).admitsTemporal
          (languageOf (tokens.map Token.toPair))⟩ := by
  have hdisabled : (start { temporal := .disabled } tokens).temporal = false := temporal_start _ _
  refine ⟨separates_start htokens _, ?_, hdisabled, fun r hr hcode => ?_⟩
  · rw [hadmits, ← hdisabled]
    rfl
  · obtain ⟨t, -, -, rfl⟩ := invalid_of_mem_reports_start _ _ r hr
    exact absurd hcode (Report.code_ofInvalid_ne t)

/-- A reading that leaves it to the text goes the way of one that admits no temporal constructs, and
may leave out the reports of temporal constructs from some place on. -/
theorem final_switching {tokens : List Token} (htokens : Token.Placed 0 tokens) (entry : Entry)
    (hadmits : ({ temporal := .fromLanguageLine } : ParseConfig).admitsTemporal
      (languageOf (tokens.map Token.toPair)) = false) :
    ∃ v, final { temporal := .fromLanguageLine } entry tokens
        = (final { temporal := .disabled } entry tokens).speak v ∧
      Switching (setting { temporal := .disabled } tokens)
        (final { temporal := .disabled } entry tokens).words
        (final { temporal := .disabled } entry tokens).voice v := by
  let full := setting { temporal := .disabled } tokens
  let dialect := setting { temporal := .fromLanguageLine } tokens
  have hstop : dialect.stop = full.stop := rfl
  have hfull : full.maxDiagnostics = none := rfl
  have hdialect : dialect.maxDiagnostics = none := rfl
  refine final_follows (tracking_switching hstop hfull hdialect)
    (follows_require_switching hstop hfull hdialect)
    (fun _ _ => follows_optionDecl_switching hstop hfull hdialect nofun)
    (start_mode .disabled .fromLanguageLine tokens) (.inl (unadmitted_start htokens hadmits)) entry

/-- When temporal constructs are admitted makes no difference but in which of them are reported. For
every text, whatever it is read as, the tree is the same in all modes. Where they are admitted, the
diagnostics are those of a reading without them but for those of temporal constructs, in the same
order. Where that is left to the text, they are those but for the ones of temporal constructs from
some offset on, which is 0 if the language is temporal. So what is admitted once stays admitted. -/
theorem temporal_mode_only_admits (entry : Entry) (text : String) :
    let read (mode : TemporalMode) := ofText { temporal := mode } entry text
    (∀ mode, (read mode).tree = (read .disabled).tree) ∧
    (read .enabled).errors = (read .disabled).errors.filter (·.code != .temporalDisabled) ∧
    ∃ offset, ((read .disabled).language.any isTemporalLanguage = true → offset = 0) ∧
      (read .fromLanguageLine).errors = (read .disabled).errors.filter fun d =>
        !(d.code == .temporalDisabled && decide (offset ≤ d.range.start)) := by
  intro read
  have htokens := placed_tokenize text
  have hread {mode : TemporalMode} {v : Voice} (hfinal : final { temporal := mode } entry
      (tokenize text) = (final { temporal := .disabled } entry (tokenize text)).speak v) :
      (read mode).tree = (read .disabled).tree ∧ ∀ offset,
        v.reports = (final { temporal := .disabled } entry (tokenize text)).reports.filter
          (fun r => !r.isTemporalFrom offset) →
        (read mode).errors = (read .disabled).errors.filter fun d =>
          !(d.code == .temporalDisabled && decide (offset ≤ d.range.start)) := by
    constructor
    · show Tree.node _ (final { temporal := mode } entry (tokenize text)).siblings.reverse = _
      rw [hfinal]
      rfl
    · intro offset hreports
      refine errors_of_filter ?_
      show (final { temporal := mode } entry (tokenize text)).reports.reverse = _
      rw [hfinal]
      show v.reports.reverse = List.filter _ (List.reverse _)
      rw [hreports, List.filter_reverse]
      rfl
  obtain ⟨v, henabled, hv⟩ := final_admitted .enabled htokens entry rfl
  have hdialect : ∃ offset, ((read .disabled).language.any isTemporalLanguage = true → offset = 0) ∧
      (read .fromLanguageLine).tree = (read .disabled).tree ∧
      (read .fromLanguageLine).errors = (read .disabled).errors.filter fun d =>
        !(d.code == .temporalDisabled && decide (offset ≤ d.range.start)) := by
    cases hlanguage : (read .disabled).language.any isTemporalLanguage with
    | true =>
      obtain ⟨w, hfinal, hw⟩ := final_admitted .fromLanguageLine htokens entry hlanguage
      exact ⟨0, fun _ => rfl, (hread hfinal).1, (hread hfinal).2 0 hw.reports⟩
    | false =>
      obtain ⟨w, hfinal, hw⟩ := final_switching htokens entry hlanguage
      obtain ⟨offset, hreports⟩ : ∃ offset, w.reports = (final { temporal := .disabled } entry
          (tokenize text)).reports.filter fun r => !r.isTemporalFrom offset :=
        hw.elim (fun h => ⟨_, h.reports_eq⟩) fun ⟨offset, h⟩ => ⟨offset, h.reports⟩
      exact ⟨offset, nofun, (hread hfinal).1, (hread hfinal).2 offset hreports⟩
  obtain ⟨offset, hzero, htree, herrors⟩ := hdialect
  refine ⟨fun mode => ?_, ?_, offset, hzero, herrors⟩
  · cases mode with
    | enabled => exact (hread henabled).1
    | disabled => rfl
    | fromLanguageLine => exact htree
  · rw [(hread henabled).2 0 hv.reports]
    exact List.filter_congr fun d _ => by simp [bne]

end Parse
end RelLang
