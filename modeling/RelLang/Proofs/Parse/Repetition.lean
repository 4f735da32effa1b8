import RelLang.Proofs.Parse.Layout
import RelLang.Proofs.Parse.Placement
import RelLang.Proofs.Rule.Echo

/-!
# Layout can only repeat diagnostics

Two texts with the same tokens but for trivia and invalid ones get the same diagnostics, in the
same order, if of equal ones only the last is kept: trivia and invalid tokens can make a diagnostic
come twice, but they never make or hide one. They do make some come twice.
-/

namespace RelLang

namespace Grammar

open Rule

variable {μ : Type} [DecidableEq μ] {setting₁ setting₂ : Setting} {text₁ text₂ : List Word}
variable {enter₁ enter₂ : Nonterminal → State → Bool × State}
variable {c : Comparison μ setting₁ setting₂ text₁ text₂}

section

variable (henter₁ : Steady enter₁) (henter₂ : Steady enter₂)

include henter₁ henter₂

theorem echo_qualName :
    Echo c ((ignore qualName).run setting₁ enter₁) ((ignore qualName).run setting₂ enter₂) :=
  .ignore <| .ofElementary henter₁ henter₂ elementary_qualName (advances_qualName henter₁).ends
    (advances_qualName henter₂).ends

theorem echo_boundValue (hcall : ∀ symbol, Echo c (enter₁ symbol) (enter₂ symbol)) :
    Echo c (boundValue.run setting₁ enter₁) (boundValue.run setting₂ enter₂) := by
  refine .node _ <| .bind henter₁ henter₂ (.peek 0) (.peek 0) fun first =>
    .bind henter₁ henter₂ (.peek 1) (.peek 1) fun second => ?_
  split
  · exact .bump
  · exact .bind henter₁ henter₂ .bump .bump fun _ => .bump
  · exact .ignore (hcall _)
  · exact echo_qualName henter₁ henter₂
  · exact .report _

theorem echo_optionDecl :
    Echo c (optionDecl.run setting₁ enter₁) (optionDecl.run setting₂ enter₂) := by
  have htext : Echo c (Rule.currentText.run setting₁ enter₁)
      (Rule.currentText.run setting₂ enter₂) := .ofLooking (fun _ => rfl) fun _ => rfl
  have hvalue : Echo c (optionValue.run setting₁ enter₁) (optionValue.run setting₂ enter₂) :=
    .ofElementary henter₁ henter₂ elementary_optionValue (ends_optionValue henter₁)
      (ends_optionValue henter₂)
  exact .node _ <| .bind henter₁ henter₂ .bump .bump fun _ =>
    .bind henter₁ henter₂ .currentText htext fun _ =>
    .bind henter₁ henter₂ (alike_qualName henter₁ henter₂) (echo_qualName henter₁ henter₂) fun _ =>
    .bind henter₁ henter₂ .currentText htext fun _ =>
    .bind henter₁ henter₂ (alike_optionValue henter₁ henter₂) hvalue fun _ =>
    .ite .admitTemporal (.done ())

/-- Orderly rules echo each other, if their loops advance and their calls run alike and echo each
other. -/
theorem Orderly.echo (hdecided : Decided setting₂ enter₂)
    (halike : ∀ symbol, Rule.Alike (enter₁ symbol) (enter₂ symbol))
    (hcall : ∀ symbol, Echo c (enter₁ symbol) (enter₂ symbol)) {α : Type}
    {rule : Rule Nonterminal α} (h : Orderly rule) (h₁ : Ends setting₁ enter₁ rule)
    (h₂ : Ends setting₂ enter₂ rule) :
    Echo c (rule.run setting₁ enter₁) (rule.run setting₂ enter₂) := by
  have hruns {β : Type} {rule : Rule Nonterminal β} (h : Orderly rule)
      (h₁ : Ends setting₁ enter₁ rule) (h₂ : Ends setting₂ enter₂ rule) :
      Rule.Alike (rule.run setting₁ enter₁) (rule.run setting₂ enter₂) :=
    h.alike henter₁ henter₂ hdecided halike h₁ h₂
  induction h with
  | done a => exact .done a
  | andThen hfirst _ ihfirst ihnext =>
    exact .bind henter₁ henter₂ (hruns hfirst h₁.1 h₂.1) (ihfirst h₁.1 h₂.1)
      fun a => ihnext a (h₁.2 a) (h₂.2 a)
  | peek n => exact .peek n
  | ahead test => exact .ofLooking (fun _ => rfl) fun _ => rfl
  | atRecoveryPoint => exact .ofLooking (fun _ => rfl) fun _ => rfl
  | bump => exact .bump
  | node _ _ hbody => exact .node _ (hbody h₁.2 h₂.2)
  | group _ hbody => exact .group (hbody h₁ h₂)
  | enclose _ _ hbody => exact .enclose _ (hbody h₁.2 h₂.2)
  | within context _ hbody => exact .within context (hbody h₁ h₂)
  | report _ => exact .report _
  | requireTemporal => exact .requireTemporal
  | loop a hbody ihbody =>
    exact .loop henter₁ henter₂ h₁.1 h₂.1 (fun a => hruns (hbody a) (h₁.2 a) (h₂.2 a))
      (fun a => ihbody a (h₁.2 a) (h₂.2 a)) a
  | opener _ hplace hnext => exact .opener hplace fun r => hnext r (h₁.2 r) (h₂.2 r)
  | skipToken _ => exact .skipToken henter₁ henter₂ _
  | skipUntil stops hproblem =>
    have hskip : Elementary (fun _ => true) (Rule.skipUntil _ stops : Rule Nonterminal Unit) :=
      .skipUntil stops hproblem rfl
    exact .ofElementary henter₁ henter₂ hskip h₁ h₂
  | @items closer code item _ hitem hidle ihitem =>
    have hends₁ : Ends setting₁ enter₁ item := by simpa [items] using h₁.2
    have hends₂ : Ends setting₂ enter₂ item := by simpa [items] using h₂.2
    exact RoundsEcho.repeated henter₁ henter₂ (moves_item henter₁ _ _ _) (moves_item henter₂ _ _ _)
      (roundsEcho_items henter₁ henter₂ _ _ (hidle _ _ henter₂ hdecided)
        (hruns hitem hends₁ hends₂) (ihitem hends₁ hends₂))
  | progress _ _ hbody => exact .progress (hbody h₁ h₂)
  | expression level => exact hcall _
  | boundValue => exact echo_boundValue henter₁ henter₂ hcall
  | optionDecl => exact echo_optionDecl henter₁ henter₂
  | behindExpression =>
    exact .ofElementary henter₁ henter₂ elementary_behindExpression h₁ h₂

end

/-- Whatever is read, the same is said about it, however deep it is nested. -/
theorem echo_enter (c : Comparison μ setting₁ setting₂ text₁ text₂) (levels : Nat)
    (symbol : Nonterminal) :
    Echo c (language.enter setting₁ levels symbol) (language.enter setting₂ levels symbol) := by
  induction levels generalizing symbol with
  | zero =>
    exact .ofElementary (steady_of_empty _) (steady_of_empty _) (elementary_beyond symbol)
      (advances_beyond setting₁ _ symbol).ends (advances_beyond setting₂ _ symbol).ends
  | succ levels ih =>
    have henter₁ := language.steady_enter setting₁ levels
    have henter₂ := language.steady_enter setting₂ levels
    exact (orderly_body symbol).echo henter₁ henter₂ (decided_enter setting₂ levels)
      (alike_enter setting₁ setting₂ levels) ih (ends_body henter₁ symbol)
      (ends_body henter₂ symbol)

end Grammar

/-! ### Places -/

/-- What a diagnostic says, and the number of tokens in front of the place that it is about. -/
structure Remark where
  code : Code
  message : String
  hint : Option String
  fatal : Bool
  place : Nat
  deriving DecidableEq, Repr

/-- The diagnostic as a remark on a text with the tokens. -/
def Diagnostic.remark (tokens : List Token) (d : Diagnostic) : Remark where
  code := d.code
  message := d.message
  hint := d.hint
  fatal := d.fatal
  place := tokens.countP (·.start < d.range.start)

/-- The tokens of a text that the grammar sees. -/
def visibleTokens (text : String) : List Token := (tokenize text).filter (·.kind.isSignificant)

namespace Parse

/-- The tokens that the grammar sees are those of the words that have been taken, and those of the
words to come. -/
theorem visibleTokens_eq {config : ParseConfig} {text : String} {words : List Word}
    (h : words <:+ (start config (tokenize text)).words) :
    ∃ front, visibleTokens text = front ++ words.map (·.token) := by
  have hwords := (valid_start config (tokenize text)).filter_rest
  rw [rest_start] at hwords
  obtain ⟨taken, htaken⟩ := h
  refine ⟨taken.map (·.token), ?_⟩
  rw [visibleTokens, hwords, ← htaken, List.map_append]

/-- In front of the current place are the tokens that have been taken. -/
theorem countP_place {config : ParseConfig} {text : String} {s : State}
    (h : s.words <:+ (start config (tokenize text)).words) :
    (visibleTokens text).countP (·.start < (s.currentRange (setting config (tokenize text))).start)
      + s.words.length = (visibleTokens text).length := by
  have htokens := placed_tokenize text
  have horder : (visibleTokens text).Pairwise fun t u => t.start < u.start :=
    htokens.pairwise_start.filter _
  obtain ⟨front, hfront⟩ := visibleTokens_eq h
  have hend : ∀ t ∈ front, t.start < Token.listStop (tokenize text) := by
    intro t ht
    have hvisible : t ∈ visibleTokens text := hfront ▸ List.mem_append_left _ ht
    have hbounds := htokens.bounds (List.mem_filter.mp hvisible).1
    rw [listStop_tokenize, ← size_tokenize]
    omega
  rw [hfront, List.pairwise_append] at horder
  obtain ⟨-, hback, hcross⟩ := horder
  have hbefore : ∀ t ∈ front,
      t.start < (s.currentRange (setting config (tokenize text))).start := by
    intro t ht
    rw [State.start_currentRange, Setting.place]
    cases hw : s.words with
    | nil => exact hend t ht
    | cons w ws => exact hcross t ht _ (by rw [hw]; exact List.mem_cons_self)
  have hbehind : ∀ t ∈ s.words.map (·.token),
      ¬ t.start < (s.currentRange (setting config (tokenize text))).start := by
    intro t ht
    rw [State.start_currentRange, Setting.place]
    cases hw : s.words with
    | nil =>
      rw [hw] at ht
      cases ht
    | cons w ws =>
      rw [hw, List.map_cons] at hback ht
      rcases List.mem_cons.mp ht with rfl | ht
      · exact Nat.lt_irrefl _
      · exact Nat.lt_asymm ((List.pairwise_cons.mp hback).1 t ht)
  rw [hfront, List.countP_append, List.countP_eq_length.mpr (by simpa using hbefore),
    List.countP_eq_zero.mpr (by simpa using hbehind), List.length_append, List.length_map,
    Nat.add_zero]

/-- What alike states of the readings of two texts say is the same as a remark. -/
theorem remark_said {config : ParseConfig} {text₁ text₂ : String}
    (h : seenTokens text₁ = seenTokens text₂) {s t : State} (problem : Problem)
    (hs : s.words <:+ (start config (tokenize text₁)).words)
    (ht : t.words <:+ (start config (tokenize text₂)).words) (halike : s.Alike t) :
    (Report.said ⟨problem, s.found, s.context, s.currentRange (setting config (tokenize text₁)),
        s.words.isEmpty⟩).remark (visibleTokens text₁)
      = (Report.said ⟨problem, t.found, t.context, t.currentRange (setting config (tokenize text₂)),
        t.words.isEmpty⟩).remark (visibleTokens text₂) := by
  have hlength : (visibleTokens text₁).length = (visibleTokens text₂).length := by
    have hlength := congrArg List.length h
    rwa [seenTokens, seenTokens, List.length_map, List.length_map] at hlength
  have hwords := halike.length_words
  have hplace₁ := countP_place hs
  have hplace₂ := countP_place ht
  have hplace : (visibleTokens text₁).countP
        (·.start < (s.currentRange (setting config (tokenize text₁))).start)
      = (visibleTokens text₂).countP
        (·.start < (t.currentRange (setting config (tokenize text₂))).start) := by
    omega
  have hend : s.words.isEmpty = t.words.isEmpty := by
    rw [Bool.eq_iff_iff, List.isEmpty_iff_length_eq_zero, List.isEmpty_iff_length_eq_zero, hwords]
  simp only [Diagnostic.remark, Report.said, Report.toDiagnostic, hplace, hend, halike.found_eq,
    halike.context_eq]
  rfl

/-- Diagnostics about two texts with the same visible tokens are compared as remarks on the
texts. -/
def comparison {config : ParseConfig} (hkeep : config.maxDiagnostics = none) {text₁ text₂ : String}
    (h : seenTokens text₁ = seenTokens text₂) :
    Comparison Remark (setting config (tokenize text₁)) (setting config (tokenize text₂))
      (start config (tokenize text₁)).words (start config (tokenize text₂)).words where
  mark₁ := Diagnostic.remark (visibleTokens text₁)
  mark₂ := Diagnostic.remark (visibleTokens text₂)
  mark_eq := remark_said h
  uncapped₁ := hkeep
  uncapped₂ := hkeep
  mode_eq := rfl

/-- What is said about the tokens that the grammar sees, in the order of their places. -/
def remarks (config : ParseConfig) (entry : Entry) (text : String) : List Remark :=
  ((ofText config entry text).errors.filter (·.kind != .lexical)).map
    (·.remark (visibleTokens text))

/-- The remarks are what was said behind the reports of invalid tokens. -/
theorem remarks_eq {config : ParseConfig} {entry : Entry} {text : String} {said : List Diagnostic}
    (h : (final config entry (tokenize text)).said
      = said.reverse ++ (start config (tokenize text)).said) :
    remarks config entry text = said.map (·.remark (visibleTokens text)) := by
  obtain ⟨made, hreports, hmade, horder⟩ := (told_final (placed_tokenize text) config entry).made
  have hsaid : said = made.reverse.map Report.said := by
    rw [State.said, hreports, List.map_append] at h
    rw [List.map_reverse, List.append_cancel_right h, List.reverse_reverse]
  have hfilter : (ofText config entry text).reports.filter
      (fun r => r.toDiagnostic.kind != .lexical) = made.reverse := by
    have hlexical : ∀ r ∈ (start config (tokenize text)).reports.reverse,
        r.problem.code.toClass = .lexical := by
      intro r hr
      obtain ⟨t, -, -, rfl⟩ :=
        invalid_of_mem_reports_start config (tokenize text) r (List.mem_reverse.mp hr)
      exact LexicalFault.toClass_code (.ofText t.text)
    have hgrammar : ∀ r ∈ made.reverse, r.problem.code.toClass ≠ .lexical :=
      fun r hr => (hmade r (List.mem_reverse.mp hr)).1
    rw [ofText, reports_ofTokens, hreports, List.reverse_append, List.filter_append,
      List.filter_eq_nil_iff.mpr fun r hr => by simp [Report.toDiagnostic, hlexical r hr],
      List.filter_eq_self.mpr fun r hr => by simpa [Report.toDiagnostic] using hgrammar r hr]
    rfl
  have hsorted : (made.reverse.map Report.toDiagnostic).Pairwise fun d e =>
      decide (d.range.start ≤ e.range.start) = true := by
    rw [List.pairwise_map]
    exact (List.pairwise_reverse.mpr horder).imp fun h => decide_eq_true h
  rw [remarks, filter_errors, hfilter, errors, List.mergeSort_of_pairwise hsorted, hsaid,
    List.map_map, List.map_map]
  rfl

/-- Layout can only repeat diagnostics. Two texts with the same tokens but for trivia and invalid
ones, from whose beginning on temporal constructs are admitted alike, get the same diagnostics about
these tokens, at the same tokens and in the same order, if of equal ones only the last is kept. -/
theorem layout_repeats_diagnostics (config : ParseConfig) (hkeep : config.maxDiagnostics = none)
    (entry : Entry) {text₁ text₂ : String} (h : seenTokens text₁ = seenTokens text₂)
    (htemporal : config.admitsTemporal (ofText config entry text₁).language
      = config.admitsTemporal (ofText config entry text₂).language) :
    (remarks config entry text₁).dedup = (remarks config entry text₂).dedup := by
  have hpaired : State.Paired _ _ (start config (tokenize text₁)) (start config (tokenize text₂)) :=
    ⟨valid_start config _, valid_start config _, List.suffix_refl _, List.suffix_refl _,
      alike_start config config h, by rw [temporal_start, temporal_start]; exact htemporal⟩
  have henter₁ := Grammar.language.steady_enter (setting config (tokenize text₁)) nestingLimit
  have henter₂ := Grammar.language.steady_enter (setting config (tokenize text₂)) nestingLimit
  have hecho := (Grammar.orderly_entry entry).echo henter₁ henter₂
    (Grammar.decided_enter _ nestingLimit) (Grammar.alike_enter _ _ nestingLimit)
    (Grammar.echo_enter (comparison hkeep h) nestingLimit) (entry.ends_rule henter₁)
    (entry.ends_rule henter₂) _ _ hpaired
  obtain ⟨said₁, said₂, hsaid₁, hsaid₂, hsame⟩ := hecho.said
  rw [remarks_eq hsaid₁, remarks_eq hsaid₂]
  exact hsame

/-- A space in front of a stray closing mark makes no other remarks. -/
theorem remarks_of_spaced_closer :
    seenTokens "pred p { ) }" = seenTokens "pred p {) }" ∧
      (remarks {} .wholeModule "pred p { ) }").dedup
        = (remarks {} .wholeModule "pred p {) }").dedup := by
  have htokens : seenTokens "pred p { ) }" = seenTokens "pred p {) }" := by
    rw [seenTokens, seenTokens, tokenize_eq, tokenize_eq]
    rfl
  exact ⟨htokens, layout_repeats_diagnostics {} rfl .wholeModule htokens rfl⟩

/-- It makes one of them come twice: what is no item of the block is tried once more where the space
has been put into the tree. -/
theorem space_repeats_diagnostic :
    seenTokens "pred p { ) }" = seenTokens "pred p {) }" ∧
      (∀ t ∈ tokenize "pred p { ) }" ++ tokenize "pred p {) }", t.kind ≠ .invalid) ∧
      (ofText {} .wholeModule "pred p { ) }").errors.length = 3 ∧
      (ofText {} .wholeModule "pred p {) }").errors.length = 2 := by
  simp only [errors, List.length_mergeSort, List.length_map, seenTokens, ofText_eq, tokenize_eq]
  decide

end Parse
end RelLang
