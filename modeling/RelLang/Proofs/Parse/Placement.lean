import RelLang.Proofs.Grammar.Tell
import RelLang.Proofs.Parse.Lossless

/-!
# Where diagnostics stand

A rule reports at the current token, or at the end of the text, and then the report is
fatal. Words are taken from the front and never put back, so the places of the
reports never go back either. An invalid token is reported at its own place, before
anything else is. The last section puts this together for the sorted diagnostics.
-/

namespace RelLang

/-! ### The places of tokens -/

namespace Token

/-- Tokens side by side start where the ones in front have ended. -/
theorem Placed.pairwise_stop {offset : Nat} {ts : List Token} (h : Placed offset ts) :
    ts.Pairwise fun t u => t.stop ≤ u.start := by
  induction ts generalizing offset with
  | nil => exact .nil
  | cons t ts ih =>
    obtain ⟨hstart, -, hrest⟩ := h
    refine .cons (fun u hu => ?_) (ih hrest)
    have hbounds := hrest.bounds hu
    have hstop : t.stop = t.start + t.text.utf8ByteSize := rfl
    omega

/-- Tokens side by side start one behind another. -/
theorem Placed.pairwise_start {offset : Nat} {ts : List Token} (h : Placed offset ts) :
    ts.Pairwise fun t u => t.start < u.start := by
  refine h.pairwise_stop.imp_of_mem fun {t _} ht _ hle => ?_
  have hpos := h.size_pos ht
  have hstop : t.stop = t.start + t.text.utf8ByteSize := rfl
  omega

end Token

theorem size_tokenize (text : String) : Token.size (tokenize text) = text.utf8ByteSize := by
  have htext := congrArg String.utf8ByteSize (joinText_tokenize text)
  rw [← htext]
  generalize tokenize text = ts
  induction ts with
  | nil => rfl
  | cons t ts ih =>
    rw [Token.size_cons, ih]
    simp [Token.joinText, String.join_cons]

/-- The last token of a text ends where the text does. -/
theorem listStop_tokenize (text : String) :
    Token.listStop (tokenize text) = text.utf8ByteSize := by
  rw [(placed_tokenize text).listStop_eq, size_tokenize]

/-! ### The places of words -/

/-- The offset at which the text of some words begins. -/
def Setting.place (setting : Setting) (words : List Word) : Nat :=
  (words.head?.map (·.token.start)).getD setting.stop

/-- The words stand one behind another, and in front of the end of the text. -/
structure Setting.Orders (setting : Setting) (words : List Word) : Prop where
  pairwise : words.Pairwise fun v w => v.token.start ≤ w.token.start
  stop : ∀ w ∈ words, w.token.start ≤ setting.stop

theorem Setting.Orders.suffix {setting : Setting} {words ws : List Word}
    (h : setting.Orders words) (hws : ws <:+ words) : setting.Orders ws :=
  ⟨h.pairwise.sublist hws.sublist, fun w hw => h.stop w (hws.subset hw)⟩

/-- Taking words goes on in the text. -/
theorem Setting.Orders.place_le {setting : Setting} {ws vs : List Word} (h : setting.Orders ws)
    (hvs : vs <:+ ws) : setting.place ws ≤ setting.place vs := by
  obtain ⟨taken, rfl⟩ := hvs
  cases taken with
  | nil => exact Nat.le_refl _
  | cons t taken =>
    cases vs with
    | nil => exact h.stop t List.mem_cons_self
    | cons v vs =>
      have hall : ∀ w ∈ taken ++ v :: vs, t.token.start ≤ w.token.start :=
        (List.pairwise_cons.mp h.pairwise).1
      exact hall v (List.mem_append_right _ List.mem_cons_self)

theorem State.start_currentRange (setting : Setting) (s : State) :
    (s.currentRange setting).start = setting.place s.words := by
  unfold State.currentRange State.current? Setting.place
  cases s.words <;> rfl

/-! ### What a reading reports -/

/-- The report stands at one of the words, or it is fatal and stands at the end. -/
def Report.Stands (setting : Setting) (words : List Word) (r : Report) : Prop :=
  (r.fatal = false ∧ ∃ w ∈ words, r.range = w.token.range) ∨
    (r.fatal = true ∧ r.range = .empty setting.stop)

/-- The reports made by rules since the given ones, the last one first: each stands at one of the
words of the text or at the end, none is behind the words to come, and none is in front of an
earlier one. -/
structure Told (setting : Setting) (text : List Word) (before : List Report) (words : List Word)
    (reports : List Report) : Prop where
  words_suffix : words <:+ text
  made : ∃ made, reports = made ++ before ∧
    (∀ r ∈ made, r.problem.OfGrammar ∧ r.Stands setting text ∧
      r.range.start ≤ setting.place words) ∧
    made.Pairwise fun r earlier => earlier.range.start ≤ r.range.start

theorem State.reports_keep (setting : Setting) (r : Report) (s : State) :
    (s.keep setting r).reports = s.reports ∨ (s.keep setting r).reports = r :: s.reports := by
  unfold keep
  dsimp only
  split
  · exact .inl rfl
  · exact .inr rfl

/-- A report is made at the current word, or at the end. -/
theorem State.stands_report (setting : Setting) (problem : Problem) {s : State}
    {text : List Word} (htext : s.words <:+ text) :
    Report.Stands setting text
      { problem, found := s.found, context := s.context, range := s.currentRange setting
        fatal := s.words.isEmpty } := by
  unfold State.currentRange State.current?
  cases hw : s.words with
  | nil => exact .inr ⟨rfl, rfl⟩
  | cons w ws =>
    rw [hw] at htext
    exact .inl ⟨rfl, w, htext.subset List.mem_cons_self, rfl⟩

theorem keeping_told {setting : Setting} {text : List Word} (before : List Report)
    (htext : setting.Orders text) :
    Rule.Keeping setting Problem.OfGrammar (Told setting text before) where
  taken := by
    intro ws vs rs hvs h
    obtain ⟨made, hrs, hmade, horder⟩ := h.made
    have hplace := (htext.suffix h.words_suffix).place_le hvs
    refine ⟨hvs.trans h.words_suffix, made, hrs, ?_, horder⟩
    intro r hr
    obtain ⟨hproblem, hstands, hle⟩ := hmade r hr
    exact ⟨hproblem, hstands, Nat.le_trans hle hplace⟩
  reported := by
    intro s problem hproblem h
    obtain ⟨made, hrs, hmade, horder⟩ := h.made
    have hstands := State.stands_report setting problem h.words_suffix
    have hstart := State.start_currentRange setting s
    rcases State.reports_keep setting
      { problem, found := s.found, context := s.context, range := s.currentRange setting
        fatal := s.words.isEmpty } s with hsame | hadded
    · rw [State.report, hsame]
      exact h
    · rw [State.report, hadded]
      refine ⟨h.words_suffix, _ :: made, by rw [hrs]; rfl, ?_, ?_⟩
      · intro r hr
        rcases List.mem_cons.mp hr with rfl | hr
        · exact ⟨hproblem, hstands, Nat.le_of_eq hstart⟩
        · exact hmade r hr
      · refine .cons ?_ horder
        intro r hr
        exact Nat.le_trans (hmade r hr).2.2 (Nat.le_of_eq hstart.symm)

namespace Parse

/-- The reports at the start are those of invalid tokens. -/
theorem invalid_of_mem_reports_start (config : ParseConfig) (tokens : List Token) :
    ∀ r ∈ (start config tokens).reports,
      ∃ t ∈ tokens, t.kind = .invalid ∧ r = Report.ofInvalid t := by
  have hfold : ∀ (ts : List Token) (s : State),
      (∀ t ∈ ts, t ∈ tokens ∧ t.kind = .invalid) →
      (∀ r ∈ s.reports, ∃ t ∈ tokens, t.kind = .invalid ∧ r = Report.ofInvalid t) →
      ∀ r ∈ (ts.foldl (fun s t => s.keep (setting config tokens) (Report.ofInvalid t)) s).reports,
        ∃ t ∈ tokens, t.kind = .invalid ∧ r = Report.ofInvalid t := by
    intro ts
    induction ts with
    | nil => exact fun s _ hs => hs
    | cons t ts ih =>
      intro s hts hs
      refine ih _ (fun u hu => hts u (List.mem_cons_of_mem _ hu)) ?_
      intro r hr
      have ht := hts t List.mem_cons_self
      rcases State.reports_keep (setting config tokens) (Report.ofInvalid t) s with h | h
      · exact hs r (h ▸ hr)
      · rw [h] at hr
        rcases List.mem_cons.mp hr with rfl | hr
        · exact ⟨t, ht.1, ht.2, rfl⟩
        · exact hs r hr
  apply hfold
  · intro t ht
    simpa using ht
  · intro r hr
    cases hr

/-- The words of a text are its significant tokens. -/
theorem token_mem_of_mem_words (config : ParseConfig) (tokens : List Token) :
    ∀ w ∈ (start config tokens).words, w.token ∈ tokens ∧ w.token.kind.isSignificant = true := by
  intro w hw
  have hfilter := (valid_start config tokens).filter_rest
  rw [rest_start] at hfilter
  have hmem : w.token ∈ tokens.filter (·.kind.isSignificant) := by
    rw [hfilter]
    exact List.mem_map_of_mem hw
  exact List.mem_filter.mp hmem

/-- The words of a text stand one behind another. -/
theorem orders_start {tokens : List Token} (htokens : Token.Placed 0 tokens)
    (config : ParseConfig) :
    (setting config tokens).Orders (start config tokens).words := by
  have hfilter := (valid_start config tokens).filter_rest
  rw [rest_start] at hfilter
  have hstop := htokens.listStop_eq
  constructor
  · have hpairwise := htokens.pairwise_start.filter (fun t => t.kind.isSignificant)
    rw [hfilter, List.pairwise_map] at hpairwise
    exact hpairwise.imp Nat.le_of_lt
  · intro w hw
    have hbounds := htokens.bounds (token_mem_of_mem_words config tokens w hw).1
    show w.token.start ≤ Token.listStop tokens
    omega

/-- The reports at the end of a reading, those before its first token apart. -/
theorem told_final {tokens : List Token} (htokens : Token.Placed 0 tokens) (config : ParseConfig)
    (entry : Entry) : Told (setting config tokens) (start config tokens).words
      (start config tokens).reports (final config entry tokens).words
      (final config entry tokens).reports := by
  have hkeeping := keeping_told (start config tokens).reports (orders_start htokens config)
  have hstart : Told (setting config tokens) (start config tokens).words
      (start config tokens).reports (start config tokens).words (start config tokens).reports :=
    ⟨List.suffix_refl _, [], rfl, fun r hr => (List.not_mem_nil hr).elim, .nil⟩
  exact hkeeping.run
    (Grammar.language.keeping_enter hkeeping
      (fun symbol => (Grammar.tells_body symbol).mono fun _ => And.left)
      (fun symbol => (Grammar.tells_beyond symbol).mono fun _ => And.left) nestingLimit)
    entry.rule entry.tells_rule hstart

/-- The reports of a reading: first those of invalid tokens, then those of the rules, each at a
significant token or at the end, and none in front of an earlier one. -/
theorem reports_split {tokens : List Token} (htokens : Token.Placed 0 tokens)
    (config : ParseConfig) (entry : Entry) :
    ∃ lexical made, (ofTokens config entry tokens).reports = lexical ++ made ∧
      (∀ r ∈ lexical, ∃ t ∈ tokens, t.kind = .invalid ∧ r = Report.ofInvalid t) ∧
      (∀ r ∈ made, r.problem.OfGrammar ∧
        ((r.fatal = false ∧ ∃ t ∈ tokens, t.kind.isSignificant = true ∧ r.range = t.range) ∨
          (r.fatal = true ∧ r.range = .empty (Token.listStop tokens)))) ∧
      made.Pairwise fun r later => r.range.start ≤ later.range.start := by
  obtain ⟨made, hreports, hmade, horder⟩ := (told_final htokens config entry).made
  refine ⟨(start config tokens).reports.reverse, made.reverse, ?_, ?_, ?_, ?_⟩
  · rw [reports_ofTokens, ← List.reverse_append, ← hreports]
  · intro r hr
    exact invalid_of_mem_reports_start config tokens r (List.mem_reverse.mp hr)
  · intro r hr
    obtain ⟨hproblem, hstands, -⟩ := hmade r (List.mem_reverse.mp hr)
    refine ⟨hproblem, hstands.imp ?_ id⟩
    rintro ⟨hfatal, w, hw, hrange⟩
    obtain ⟨htoken, hkind⟩ := token_mem_of_mem_words config tokens w hw
    exact ⟨hfatal, w.token, htoken, hkind, hrange⟩
  · exact List.pairwise_reverse.mpr horder

/-! ### Sorted diagnostics -/

theorem mem_errors {p : Parse} {d : Diagnostic} :
    d ∈ p.errors ↔ ∃ r ∈ p.reports, r.toDiagnostic = d := by
  rw [errors, List.mem_mergeSort, List.mem_map]

theorem pairwise_errors (p : Parse) :
    p.errors.Pairwise fun d e => d.range.start ≤ e.range.start := by
  rw [errors]
  apply List.Pairwise.imp fun {_ _} h => of_decide_eq_true h
  apply List.pairwise_mergeSort
  · intro d e f hde hef
    simp only [decide_eq_true_eq] at hde hef ⊢
    omega
  · intro d e
    simp only [Bool.or_eq_true, decide_eq_true_eq]
    omega

end Parse

/-- The diagnostic points at one token of the text, at an invalid one if its code is lexical and
at a significant one if not; or it is fatal and points at the end of the text. -/
def Diagnostic.Points (text : String) (d : Diagnostic) : Prop :=
  (d.fatal = false ∧ ∃ t ∈ tokenize text, d.range = t.range ∧
    if d.code.number / 100 = 1 then t.kind = .invalid else t.kind.isSignificant = true) ∨
  (d.fatal = true ∧ d.range = .empty text.utf8ByteSize)

theorem Diagnostic.points_of_invalid {text : String} {t : Token} (ht : t ∈ tokenize text)
    (hkind : t.kind = .invalid) : (Report.ofInvalid t).toDiagnostic.Points text := by
  have hclass := LexicalFault.toClass_code (.ofText t.text)
  refine .inl ⟨rfl, t, ht, rfl, ?_⟩
  show if (LexicalFault.ofText t.text).code.number / 100 = 1 then _ else _
  rw [if_pos ((Code.toClass_eq_lexical_iff _).mp hclass)]
  exact hkind

theorem Diagnostic.points_of_significant {text : String} {r : Report} {t : Token}
    (hproblem : r.problem.OfGrammar) (hfatal : r.fatal = false) (ht : t ∈ tokenize text)
    (hkind : t.kind.isSignificant = true) (hrange : r.range = t.range) :
    r.toDiagnostic.Points text := by
  refine .inl ⟨hfatal, t, ht, hrange, ?_⟩
  show if r.problem.code.number / 100 = 1 then _ else _
  rw [if_neg fun h => hproblem ((Code.toClass_eq_lexical_iff _).mpr h)]
  exact hkind

/-- Where the end of the text is reached, what is sorted by place is split into what is not fatal
and what is. -/
theorem Diagnostic.fatal_suffix {text : String} {ds : List Diagnostic}
    (hpoints : ∀ d ∈ ds, d.Points text)
    (hsorted : ds.Pairwise fun d e => d.range.start ≤ e.range.start) :
    ∃ front back, ds = front ++ back ∧ (∀ d ∈ front, d.fatal = false) ∧
      ∀ d ∈ back, d.fatal = true := by
  induction ds with
  | nil => exact ⟨[], [], rfl, by simp, by simp⟩
  | cons d ds ih =>
    obtain ⟨hle, hsorted⟩ := List.pairwise_cons.mp hsorted
    have hds := fun e he => hpoints e (List.mem_cons_of_mem _ he)
    rcases hpoints d List.mem_cons_self with ⟨hfatal, -⟩ | ⟨hfatal, hend⟩
    · obtain ⟨front, back, rfl, hfront, hback⟩ := ih hds hsorted
      refine ⟨d :: front, back, rfl, ?_, hback⟩
      intro e he
      rcases List.mem_cons.mp he with rfl | he
      · exact hfatal
      · exact hfront e he
    · -- behind the end of the text no token starts
      refine ⟨[], d :: ds, rfl, by simp, ?_⟩
      intro e he
      rcases List.mem_cons.mp he with rfl | he
      · exact hfatal
      rcases hds e he with ⟨-, t, ht, hrange, -⟩ | ⟨hfatal, -⟩
      · have hbounds := (placed_tokenize text).bounds ht
        have hsize := size_tokenize text
        have hstart := hle e he
        rw [hend, hrange] at hstart
        have hplace : text.utf8ByteSize ≤ t.start := hstart
        omega
      · exact hfatal

namespace Parse

/-- Where the fatal diagnostics come last, the last one tells whether the reading has failed. -/
theorem isSome_failure?_iff {p : Parse} {front back : List Diagnostic}
    (herrors : p.errors = front ++ back) (hfront : ∀ d ∈ front, d.fatal = false)
    (hback : ∀ d ∈ back, d.fatal = true) :
    p.failure?.isSome = true ↔ ∃ d, p.errors.getLast? = some d ∧ d.fatal = true := by
  rw [failure?, herrors, List.find?_isSome]
  constructor
  · rintro ⟨d, hd, hfatal⟩
    have hd' : d ∈ back := by
      rcases List.mem_append.mp hd with hd | hd
      · exact absurd hfatal (by simp [hfront d hd])
      · exact hd
    cases hlast : back.getLast? with
    | none => simp [List.getLast?_eq_none_iff.mp hlast] at hd'
    | some e => exact ⟨e, by simp [hlast], hback e (List.mem_of_getLast? hlast)⟩
  · rintro ⟨d, hlast, hfatal⟩
    exact ⟨d, List.mem_of_getLast? hlast, hfatal⟩

/-- Diagnostics are in their places and in order, whatever the text, the configuration and the
entry. Each points at one token, and then it is not fatal, or it is fatal and points at the end of
the text; a lexical one is never fatal. Those of the grammar are made in the order of their places,
all are sorted by their places, and the fatal ones come last, so that the reading has failed if and
only if the last diagnostic is fatal. -/
theorem diagnostics_in_place (config : ParseConfig) (entry : Entry) (text : String) :
    (∀ d ∈ (ofText config entry text).errors, d.Points text) ∧
    (∀ d ∈ (ofText config entry text).errors, d.kind = .lexical → d.fatal = false) ∧
    (((ofText config entry text).reports.filter fun r => r.problem.code.toClass != .lexical).Pairwise
      fun r later => r.range.start ≤ later.range.start) ∧
    ((ofText config entry text).errors.Pairwise fun d e => d.range.start ≤ e.range.start) ∧
    (∃ front back, (ofText config entry text).errors = front ++ back ∧
      (∀ d ∈ front, d.fatal = false) ∧ ∀ d ∈ back, d.fatal = true) ∧
    ((ofText config entry text).failure?.isSome = true ↔
      ∃ d, (ofText config entry text).errors.getLast? = some d ∧ d.fatal = true) := by
  obtain ⟨lexical, made, hreports, hlexical, hmade, horder⟩ :=
    reports_split (placed_tokenize text) config entry
  have hclass : ∀ r ∈ lexical, r.problem.code.toClass = .lexical := by
    intro r hr
    obtain ⟨t, -, -, rfl⟩ := hlexical r hr
    exact LexicalFault.toClass_code (.ofText t.text)
  have hcases : ∀ d ∈ (ofText config entry text).errors,
      (∃ r ∈ lexical, r.toDiagnostic = d) ∨ ∃ r ∈ made, r.toDiagnostic = d := by
    intro d hd
    obtain ⟨r, hr, rfl⟩ := mem_errors.mp hd
    have hr' : r ∈ lexical ++ made := hreports ▸ hr
    exact (List.mem_append.mp hr').imp (fun h => ⟨r, h, rfl⟩) fun h => ⟨r, h, rfl⟩
  have hpoints : ∀ d ∈ (ofText config entry text).errors, d.Points text := by
    intro d hd
    rcases hcases d hd with ⟨r, hr, rfl⟩ | ⟨r, hr, rfl⟩
    · obtain ⟨t, ht, hkind, rfl⟩ := hlexical r hr
      exact Diagnostic.points_of_invalid ht hkind
    · obtain ⟨hproblem, ⟨hfatal, t, ht, hkind, hrange⟩ | ⟨hfatal, hrange⟩⟩ := hmade r hr
      · exact Diagnostic.points_of_significant hproblem hfatal ht hkind hrange
      · exact .inr ⟨hfatal, by rw [← listStop_tokenize]; exact hrange⟩
  have hsorted := pairwise_errors (ofText config entry text)
  obtain ⟨front, back, herrors, hfront, hback⟩ := Diagnostic.fatal_suffix hpoints hsorted
  refine ⟨hpoints, ?_, ?_, hsorted, ⟨front, back, herrors, hfront, hback⟩,
    isSome_failure?_iff herrors hfront hback⟩
  · intro d hd hkind
    rcases hcases d hd with ⟨r, hr, rfl⟩ | ⟨r, hr, rfl⟩
    · obtain ⟨t, -, -, rfl⟩ := hlexical r hr
      rfl
    · exact absurd hkind (hmade r hr).1
  · have hfilter : (ofText config entry text).reports.filter
        (fun r => r.problem.code.toClass != .lexical) = made := by
      rw [ofText, hreports, List.filter_append, List.filter_eq_nil_iff.mpr, List.nil_append,
        List.filter_eq_self]
      · intro r hr
        simpa using (hmade r hr).1
      · intro r hr
        simp [hclass r hr]
    rw [hfilter]
    exact horder

end Parse
end RelLang
