import RelLang.Proofs.Grammar.Guarded
import RelLang.Proofs.Grammar.Maintain
import RelLang.Proofs.Grammar.Operand
import RelLang.Proofs.Parse.Placement
import RelLang.Proofs.Syntax.Nested

/-!
# Groups that are not closed

The report of a missing closing mark notes where the group was opened. The note is the range of the
opening mark: every rule that closes a group is called only in front of its opening mark, looks at
the place there, and takes the mark. The two rules that expect an opening brace themselves look at
the place before a stray word in front of the brace is skipped, so they note that word.
-/

namespace RelLang

/-- The group that a mark closes has been opened in front of the words to come. The range is that of
the opening mark, or that of a stray word which was reported and skipped in front of an opening
brace. -/
inductive Opened (setting : Setting) (text words : List Word) (reports : List Report) :
    Punct → ByteRange → Prop
  | opener {closer opener : Punct} {w : Word} {ws : List Word}
    (hcloses : closer.opener? = some opener) (hkind : w.token.kind = .punct opener)
    (htext : w :: ws <:+ text) (hwords : words <:+ ws) :
    Opened setting text words reports closer w.token.range
  | stray {v w : Word} {ws : List Word} (hkind : w.token.kind = .punct .lbrace)
    (htext : v :: w :: ws <:+ text) (hwords : words <:+ ws)
    (hreported : setting.maxDiagnostics = none →
      ∃ r ∈ reports, r.problem = .stray (.punct .lbrace) ∧ r.range = v.token.range) :
    Opened setting text words reports .rbrace v.token.range

/-- A group that has been opened stays opened. -/
theorem Opened.mono {setting : Setting} {text ws vs : List Word} {reports reports' : List Report}
    {closer : Punct} {range : ByteRange} (h : Opened setting text ws reports closer range)
    (hvs : vs <:+ ws) (hreports : reports ⊆ reports') :
    Opened setting text vs reports' closer range := by
  cases h with
  | opener hcloses hkind htext hwords => exact .opener hcloses hkind htext (hvs.trans hwords)
  | stray hkind htext hwords hreported =>
    refine .stray hkind htext (hvs.trans hwords) fun hkeep => ?_
    obtain ⟨r, hr, hproblem⟩ := hreported hkeep
    exact ⟨r, hreports hr, hproblem⟩

/-- What the report notes is where a group was opened in front of it. -/
def Report.Traced (setting : Setting) (text : List Word) (reports : List Report) (r : Report) :
    Prop :=
  ∀ kind code range, r.problem = .missing kind code (some range) →
    ∃ closer words, kind = .punct closer ∧ Opened setting text words reports closer range ∧
      r.range.start = setting.place words

/-- The words to come are of the text, and what the reports note is where groups were opened. -/
structure Traced (setting : Setting) (text words : List Word) (reports : List Report) : Prop where
  words : words <:+ text
  reports : ∀ r ∈ reports, r.Traced setting text reports

abbrev State.Traced (setting : Setting) (text : List Word) (s : State) : Prop :=
  RelLang.Traced setting text s.words s.reports

/-- The problem notes nothing. -/
abbrev Problem.Plain (problem : Problem) : Prop := problem.notes = []

section

variable {setting : Setting} {text : List Word} {s : State}

/-- A report may note a group that has been opened. -/
theorem Traced.report (h : s.Traced setting text) {problem : Problem}
    (hproblem : ∀ kind code range, problem = .missing kind code (some range) →
      ∃ closer, kind = .punct closer ∧ Opened setting text s.words s.reports closer range) :
    Traced setting text s.words (s.report setting problem).reports := by
  refine ⟨h.words, ?_⟩
  rcases State.reports_keep setting
    { problem, found := s.found, context := s.context, range := s.currentRange setting
      fatal := s.words.isEmpty } s with hsame | hadded
  · rw [State.report, hsame]
    exact h.reports
  · rw [State.report, hadded]
    refine List.forall_mem_cons.mpr ⟨fun kind code range hmissing => ?_,
      fun r hr kind code range hmissing => ?_⟩
    · obtain ⟨closer, hkind, hopened⟩ := hproblem kind code range hmissing
      exact ⟨closer, s.words, hkind,
        hopened.mono (List.suffix_refl _) (List.subset_cons_self _ _),
        State.start_currentRange setting s⟩
    · obtain ⟨closer, words, hkind, hopened, hstart⟩ := h.reports r hr kind code range hmissing
      exact ⟨closer, words, hkind,
        hopened.mono (List.suffix_refl _) (List.subset_cons_self _ _), hstart⟩

theorem keeping_traced : Rule.Keeping setting Problem.Plain (Traced setting text) where
  taken hvs h := ⟨hvs.trans h.words, h.reports⟩
  reported hplain h := by
    refine Traced.report h fun kind code range hmissing => ?_
    subst hmissing
    cases hplain

end

namespace Rule

variable {ν α : Type} {setting : Setting} {enter : ν → State → Bool × State} {text : List Word}

/-- A token is taken where it is expected, or behind a stray one, or it is reported as missing. -/
theorem run_expectToken (setting : Setting) (enter : ν → State → Bool × State) (kind : TokenKind)
    (code : Code) (opener : Option ByteRange) (s : State) :
    s.kindAt 0 = some kind ∧
        (expectToken kind code opener : Rule ν Bool).run setting enter s = (true, s.bump) ∨
      s.kindAt 0 ≠ some kind ∧ s.kindAt 1 = some kind ∧
        (expectToken kind code opener : Rule ν Bool).run setting enter s
          = (true, ((skipToken (.stray kind) : Rule ν Unit).run setting enter s).2.bump) ∨
      (expectToken kind code opener : Rule ν Bool).run setting enter s
        = (false, s.report setting (.missing kind code opener)) := by
  simp only [expectToken, run_bind, run_eat, run_ite, run_pure, run_nthIs, run_atRecoveryPoint,
    run_report]
  by_cases hpresent : s.kindAt 0 = some kind
  · simp [hpresent]
  · rw [beq_eq_false_iff_ne.mpr hpresent]
    by_cases hstray : (!s.atRecoveryPoint && s.kindAt 1 == some kind) = true
    · have hbehind := eq_of_beq (Bool.and_eq_true_iff.mp hstray).2
      exact .inr (.inl ⟨hpresent, hbehind, by simp [hstray]⟩)
    · exact .inr (.inr (by simp [hstray]))

/-- A stray token is reported and skipped. -/
theorem state_skipToken (setting : Setting) (enter : ν → State → Bool × State)
    (problem : Problem) (s : State) :
    ((skipToken problem : Rule ν Unit).run setting enter s).2.words = s.words.tail ∧
      ((skipToken problem : Rule ν Unit).run setting enter s).2.reports
        = (s.report setting problem).reports := by
  have hwords := State.report_words setting problem s
  have hkind : (s.report setting problem).kindAt 0 = s.kindAt 0 := kindAt_congr hwords 0
  simp only [skipToken, run_bind, run_report, run_atEnd, hkind]
  cases hw : s.words with
  | nil =>
    rw [State.kindAt_zero_eq_none.mpr hw]
    exact ⟨hwords.trans hw, rfl⟩
  | cons w ws =>
    have hopen : (s.kindAt 0).isNone = false := by rw [State.kindAt, hw]; rfl
    have hbump := State.bump_of_words_eq_cons
      (s := { (s.report setting problem).attachPending with siblings := [] }) (hwords.trans hw)
    rw [hopen, Bool.not_false, run_when_true, run_node, run_bump, hbump]
    exact ⟨rfl, rfl⟩

theorem traced_skipToken {problem : Problem} (hplain : problem.Plain) {s : State}
    (h : s.Traced setting text) :
    ((skipToken problem : Rule ν Unit).run setting enter s).2.Traced setting text := by
  obtain ⟨hwords, hreports⟩ := state_skipToken setting enter problem s
  rw [State.Traced, hwords, hreports]
  exact keeping_traced.taken (List.tail_suffix _) (keeping_traced.reported hplain h)

/-- A closing mark may be missing where its group has been opened. -/
theorem traced_expectToken {kind : TokenKind} {code : Code} {opener : Option ByteRange} {s : State}
    (h : s.Traced setting text) (hopened : ∀ range, opener = some range →
      ∃ closer, kind = .punct closer ∧ Opened setting text s.words s.reports closer range) :
    ((expectToken kind code opener : Rule ν Bool).run setting enter s).2.Traced setting text := by
  obtain ⟨-, hrun⟩ | ⟨-, -, hrun⟩ | hrun := run_expectToken setting enter kind code opener s
  · rw [hrun]
    exact keeping_traced.bump h
  · rw [hrun]
    exact keeping_traced.bump (traced_skipToken rfl h)
  · rw [hrun]
    rw [State.Traced, State.report_words]
    refine h.report fun kind' code' range hmissing => ?_
    cases hmissing
    exact hopened range rfl

end Rule

namespace Grammar

open Rule

section

variable {α β : Type} {setting : Setting} {text : List Word}

/-- What the rule notes is where groups were opened, if its calls note nothing else. -/
def Traces (setting : Setting) (text : List Word) (rule : Rule Nonterminal α) : Prop :=
  ∀ enter, Steady enter → MaintainingCalls (State.Traced setting text) enter →
    Maintains (State.Traced setting text) (rule.run setting enter)

namespace Traces

theorem ofLooking {rule : Rule Nonterminal α} (h : ∀ enter s, (rule.run setting enter s).2 = s) :
    Traces setting text rule :=
  fun enter _ _ => Maintains.ofLooking (h enter)

theorem pure (a : α) : Traces setting text (Pure.pure a) := ofLooking fun _ _ => rfl

theorem peek (n : Nat) : Traces setting text (.peek n) := ofLooking fun _ _ => rfl

theorem currentIs {kind : TokenKind} : Traces setting text (currentIs kind) :=
  ofLooking fun _ _ => rfl

theorem currentIn {kinds : List TokenKind} : Traces setting text (currentIn kinds) :=
  ofLooking fun _ _ => rfl

theorem atEnd : Traces setting text atEnd := ofLooking fun _ _ => rfl

theorem ahead (test : List TokenKind → Bool) : Traces setting text (.ahead test) :=
  ofLooking fun _ _ => rfl

theorem bind {first : Rule Nonterminal α} {next : α → Rule Nonterminal β}
    (hfirst : Traces setting text first) (hnext : ∀ a, Traces setting text (next a)) :
    Traces setting text (first >>= next) :=
  fun enter henter hcalls => Maintains.bind henter (hfirst enter henter hcalls)
    fun a => hnext a enter henter hcalls

theorem ite {c : Prop} [Decidable c] {yes no : Rule Nonterminal α}
    (hyes : Traces setting text yes) (hno : Traces setting text no) :
    Traces setting text (if c then yes else no) :=
  fun enter henter hcalls => Maintains.ite (hyes enter henter hcalls) (hno enter henter hcalls)

theorem «when» {condition : Bool} {rule : Rule Nonterminal Unit}
    (hrule : Traces setting text rule) : Traces setting text (when condition rule) :=
  ite hrule (pure ())

theorem pick {condition : Bool} {yes no : Rule Nonterminal α} (hyes : Traces setting text yes)
    (hno : Traces setting text no) : Traces setting text (pick condition yes no) :=
  ite hyes hno

theorem ignore {rule : Rule Nonterminal α} (hrule : Traces setting text rule) :
    Traces setting text (ignore rule) :=
  bind hrule fun _ => pure ()

theorem bump : Traces setting text .bump := fun _ _ _ _ _ h => keeping_traced.bump h

theorem report {problem : Problem} (hplain : problem.Plain) :
    Traces setting text (.report problem) :=
  fun _ _ _ _ _ h => keeping_traced.report hplain h

theorem requireTemporal : Traces setting text .requireTemporal := by
  intro enter _ _ s _ h
  rw [Rule.run]
  split
  · exact h
  · exact keeping_traced.report rfl h

theorem admitTemporal : Traces setting text .admitTemporal := by
  intro enter _ _ s _ h
  rw [Rule.run]
  split <;> exact h

theorem node {kind : NodeKind} {body : Rule Nonterminal α} (hbody : Traces setting text body) :
    Traces setting text (.node kind body) :=
  fun enter henter hcalls s hs h =>
    hbody enter henter hcalls { s.attachPending with siblings := [] } hs.opened h

theorem group {body : Rule Nonterminal α} (hbody : Traces setting text body) :
    Traces setting text (.group body) :=
  fun enter henter hcalls s hs h =>
    hbody enter henter hcalls { s.attachPending with siblings := [] } hs.opened h

theorem enclose {kind : NodeKind} {body : Rule Nonterminal α} (hbody : Traces setting text body) :
    Traces setting text (.enclose kind body) :=
  hbody

theorem within (context : Context) {body : Rule Nonterminal α} (hbody : Traces setting text body) :
    Traces setting text (.within context body) :=
  fun enter henter hcalls s hs h =>
    hbody enter henter hcalls { s with contexts := context :: s.contexts } (hs.of_eq rfl rfl rfl) h

theorem progress {body : Rule Nonterminal α} (hbody : Traces setting text body) :
    Traces setting text (.progress body) :=
  hbody

theorem skipToken {problem : Problem} (hplain : problem.Plain) :
    Traces setting text (skipToken problem) := fun _ _ _ _ _ h => traced_skipToken hplain h

theorem loop {σ : Type} (a : σ) {body : σ → Rule Nonterminal (σ × Bool)}
    (hbody : ∀ a, Traces setting text (body a)) : Traces setting text (.loop a body) :=
  fun enter henter hcalls =>
    Maintains.loop henter (fun _ h => h) a fun b => hbody b enter henter hcalls

theorem repeated {body : Rule Nonterminal Bool} (hbody : Traces setting text body) :
    Traces setting text (repeated body) :=
  loop () fun _ => bind hbody fun _ => pure _

theorem items (closer : Punct) (code : Code) {item : Rule Nonterminal Unit}
    (hitem : Traces setting text item) : Traces setting text (items closer code item) :=
  fun enter henter hcalls => Maintains.items henter (fun _ h => h) closer code
    (hitem enter henter hcalls) fun _ _ h _ => traced_skipToken rfl h

theorem expect (kind : TokenKind) : Traces setting text (expect kind) :=
  fun _ _ _ _ _ h => traced_expectToken h nofun

theorem elementary {passes : NodeKind → Bool} {rule : Rule Nonterminal α}
    (h : Elementary passes rule) (hplain : rule.Tells Problem.Plain) :
    Traces setting text rule := by
  induction h with
  | done a => exact pure a
  | andThen _ _ hfirst hnext => exact bind (hfirst hplain.1) fun a => hnext a (hplain.2 a)
  | peek n => exact peek n
  | atRecoveryPoint => exact ofLooking fun _ _ => rfl
  | bump => exact bump
  | node _ _ hbody => exact node (hbody hplain)
  | report _ => exact report hplain
  | loop a _ hbody => exact loop a fun b => hbody b (hplain b)

theorem eat {kind : TokenKind} : Traces setting text (eat kind) :=
  elementary (.eat : Elementary (fun _ => true) _) (by simp)

theorem skipUntil {problem : Problem} (stops : List TokenKind) (hproblem : problem.ofRule = true)
    (hplain : problem.Plain) : Traces setting text (skipUntil problem stops) :=
  elementary (.skipUntil stops hproblem rfl : Elementary (fun _ => true) _) (by simpa using hplain)

end Traces

end

/-! ### Rules that note nothing themselves -/

section Plain

variable {ν : Type}

theorem plain_qualName : (qualName : Rule ν Bool).Tells Problem.Plain := by
  simp +decide [qualName, atQualName]

theorem plain_name : (name : Rule ν Bool).Tells Problem.Plain := by
  simp +decide [name]

theorem plain_nameList : (nameList : Rule ν Bool).Tells Problem.Plain := by
  simp [nameList, atCommaName, plain_name]

theorem plain_qualNameList : (qualNameList : Rule ν Unit).Tells Problem.Plain := by
  simp [qualNameList, plain_qualName]

theorem plain_optionalMult (allowed : List TokenKind) :
    (optionalMult allowed : Rule ν Unit).Tells Problem.Plain := by
  simp [optionalMult]

theorem plain_expect (kind : TokenKind) : (expect kind : Rule ν Bool).Tells Problem.Plain :=
  tells_expectToken rfl rfl

theorem plain_skipNested : (skipNested : Rule ν Unit).Tells Problem.Plain := by
  simp +decide [skipNested]

end Plain

theorem plain_exprAt (level : Nat) : (exprAt level).Tells Problem.Plain := by
  simp +decide [exprAt]

theorem plain_expr : expr.Tells Problem.Plain := plain_exprAt 0

theorem plain_operand (level : Nat) (after : TokenKind) :
    (operand level after).Tells Problem.Plain := by
  simp [operand, Problem.Plain, Problem.notes]

theorem plain_arguments : arguments.Tells Problem.Plain := by
  simp [arguments, plain_expr]

theorem plain_quantDecls : quantDecls.Tells Problem.Plain := by
  simp [quantDecls, quantDecl, plain_nameList, plain_expect, plain_optionalMult, plain_expr]

theorem plain_letDecl : letDecl.Tells Problem.Plain := by
  simp [letDecl, plain_name, plain_expect, plain_expr]

theorem plain_extend (level : Nat) : (extend level).Tells Problem.Plain := by
  have hinfix (node : NodeKind) (operandLevel : Nat) (operator : TokenKind) :
      (infixTail node operandLevel operator).Tells Problem.Plain := by
    have hoperator : (infixOperator node).Tells Problem.Plain := by
      unfold infixOperator
      split <;> simp [compareOperator, arrowOperator, atQuantifier]
    simp [infixTail, hoperator, plain_operand]
  have hpostfix (operator : TokenKind) : (postfixTail operator).Tells Problem.Plain := by
    have hcloser : (expectToken Punct.rbracket .unclosedBoxJoin none :
        Rule Nonterminal Bool).Tells Problem.Plain := tells_expectToken rfl rfl
    simp [postfixTail, plain_arguments, hcloser]
  refine (tells_repeated _).mpr ⟨trivial, fun first => ⟨trivial, fun second => ?_⟩⟩
  dsimp only
  split
  · trivial
  · split
    · trivial
    · simp only [tells_ite, tells_bind, tells_when, tells_requireTemporal, tells_enclose]
      refine ⟨fun _ => trivial, fun _ => ⟨fun _ => rfl, fun _ => ⟨?_, fun _ => trivial⟩⟩⟩
      split
      · exact hinfix _ _ _
      · exact hpostfix _

theorem plain_boundUnion : boundUnion.Tells Problem.Plain := by
  have hvalue : boundValue.Tells Problem.Plain := by
    refine ⟨trivial, fun first => ⟨trivial, fun second => ?_⟩⟩
    dsimp only
    split <;> simp +decide [plain_qualName]
  simp [boundUnion, boundProduct, hvalue]

theorem plain_bound : bound.Tells Problem.Plain := by
  simp +decide [bound, boundLhs, plain_qualName, plain_boundUnion]

theorem plain_scope : scope.Tells Problem.Plain := by
  simp +decide [scope, typescopes, typescope, atTypescope, plain_qualName, plain_expect]

theorem plain_optionalReceiver : optionalReceiver.Tells Problem.Plain := by
  simp [optionalReceiver, plain_qualName]

theorem plain_paraItem (closer : Punct) : (paraItem closer).Tells Problem.Plain := by
  simp +decide [paraItem, paraDecl, plain_nameList, plain_expect, plain_optionalMult, plain_expr]

theorem plain_sigModifier : sigModifier.Tells Problem.Plain := by
  simp +decide [sigModifier]

theorem plain_sigExt : sigExt.Tells Problem.Plain := by
  simp [sigExt, plain_qualName]

theorem plain_fieldItem : fieldItem.Tells Problem.Plain := by
  simp +decide [fieldItem, fieldDecl, fieldEnd, atField, plain_nameList, plain_expect,
    plain_optionalMult, plain_exprAt]

/-! ### Groups -/

section

variable {α β : Type} {setting : Setting} {text : List Word}
  {enter : Nonterminal → State → Bool × State}

/-- What the rule notes is where groups were opened, if it is called in front of a token of the
kind. -/
def TracesAt (setting : Setting) (text : List Word) (kind : TokenKind) (rule : Rule Nonterminal α) :
    Prop :=
  ∀ enter, Steady enter → MaintainingCalls (State.Traced setting text) enter → ∀ s, s.Valid →
    s.Traced setting text → s.kindAt 0 = some kind →
    (rule.run setting enter s).2.Traced setting text

namespace TracesAt

variable {kind : TokenKind}

theorem node {node : NodeKind} {body : Rule Nonterminal α}
    (hbody : TracesAt setting text kind body) : TracesAt setting text kind (.node node body) :=
  fun enter henter hcalls s hs h hk =>
    hbody enter henter hcalls { s.attachPending with siblings := [] } hs.opened h hk

theorem group {body : Rule Nonterminal α} (hbody : TracesAt setting text kind body) :
    TracesAt setting text kind (.group body) :=
  fun enter henter hcalls s hs h hk =>
    hbody enter henter hcalls { s.attachPending with siblings := [] } hs.opened h hk

theorem bind {first : Rule Nonterminal α} {next : α → Rule Nonterminal β}
    (hfirst : TracesAt setting text kind first) (hnext : ∀ a, Traces setting text (next a)) :
    TracesAt setting text kind (first >>= next) :=
  fun enter henter hcalls s hs h hk => hnext _ enter henter hcalls _
    (valid_run setting henter first hs) (hfirst enter henter hcalls s hs h hk)

/-- A rule that is called only in front of a token of the kind. -/
theorem ifCurrent {yes no : Rule Nonterminal α} (hyes : TracesAt setting text kind yes)
    (hno : Traces setting text no) : Traces setting text (do
      let present ← currentIs kind
      if present then yes else no) := by
  intro enter henter hcalls s hs h
  simp only [run_bind, run_currentIs, run_ite]
  split
  · next hk => exact hyes enter henter hcalls s hs h (eq_of_beq hk)
  · exact hno enter henter hcalls s hs h

theorem whenCurrent {rule : Rule Nonterminal Unit} (hrule : TracesAt setting text kind rule) :
    Traces setting text (do
      let present ← currentIs kind
      when present rule) :=
  hrule.ifCurrent (.pure ())

end TracesAt

/-- A group has been opened by the current token, once that has been taken. -/
theorem opened_bump {closer opener : Punct} (hcloses : closer.opener? = some opener)
    {s : State} (h : s.Traced setting text) (hk : s.kindAt 0 = some (.punct opener)) :
    Opened setting text s.bump.words s.bump.reports closer (s.currentRange setting) := by
  cases hw : s.words with
  | nil =>
    rw [State.kindAt, hw] at hk
    cases hk
  | cons w ws =>
    rw [State.kindAt, hw] at hk
    rw [State.bump_of_words_eq_cons hw, State.currentRange, State.current?, hw]
    exact .opener hcloses (Option.some.inj hk) (hw ▸ h.words) (List.suffix_refl ws)

/-- A group has been opened by the second token, once a stray one in front has been skipped. -/
theorem opened_skipToken {s : State} (h : s.Traced setting text)
    (hk : s.kindAt 1 = some (.punct .lbrace)) :
    let skipped := ((skipToken (.stray Punct.lbrace)).run setting enter s).2
    Opened setting text skipped.bump.words skipped.bump.reports .rbrace
      (s.currentRange setting) := by
  intro skipped
  obtain ⟨hwords, hreports⟩ := state_skipToken setting enter (.stray Punct.lbrace) s
  unfold State.kindAt at hk
  match hw : s.words with
  | [] | [_] =>
    rw [hw] at hk
    cases hk
  | v :: w :: ws =>
    have hplace : s.currentRange setting = v.token.range := by
      rw [State.currentRange, State.current?, hw]
      rfl
    rw [hw] at hk hwords
    rw [hplace, State.bump_of_words_eq_cons hwords]
    refine .stray (Option.some.inj hk) (hw ▸ h.words) (List.suffix_refl ws) fun hkeep => ?_
    rw [State.reports_report hkeep] at hreports
    exact ⟨_, hreports ▸ List.mem_cons_self, rfl, hplace⟩

/-- What stands in a group, and its closing mark. -/
theorem traced_group {closer : Punct} {range : ByteRange} {body : Rule Nonterminal Unit}
    (hbody : Traces setting text body) (henter : Steady enter)
    (hcalls : MaintainingCalls (State.Traced setting text) enter) {s : State} (hs : s.Valid)
    (h : s.Traced setting text)
    (hopened : Opened setting text s.words s.reports closer range) :
    ((do body; ignore (expectCloser closer range)).run setting enter s).2.Traced setting text := by
  have hreaches := reaches_run setting henter body s
  have hclosed : ((expectCloser closer range).run setting enter
      (body.run setting enter s).2).2.Traced setting text :=
    traced_expectToken (hbody enter henter hcalls s hs h)
      fun _ hrange => ⟨closer, rfl, Option.some.inj hrange ▸
        hopened.mono hreaches.words hreaches.reports.subset⟩
  exact hclosed

/-- A group that begins with the current token. -/
theorem Traces.opening {body : Rule Nonterminal Unit} (hbody : Traces setting text body)
    {closer opener : Punct} (hcloses : closer.opener? = some opener) :
    TracesAt setting text (.punct opener) (do
      let range ← currentRange
      Rule.bump
      body
      Rule.ignore (expectCloser closer range)) :=
  fun _ henter hcalls s hs h hk => traced_group hbody henter hcalls
    ((State.reaches_bump s).valid hs) (keeping_traced.bump h) (opened_bump hcloses h hk)

/-- A group in braces, of which the opening one is expected. -/
theorem Traces.braces {body : Rule Nonterminal Unit} (hbody : Traces setting text body) :
    Traces setting text (do
      let range ← currentRange
      let opened ← Rule.expect Punct.lbrace
      Rule.when opened do
        body
        Rule.ignore (expectCloser Punct.rbrace range)) := by
  intro enter henter hcalls s hs h
  have hvalid := valid_run setting henter (Rule.expect Punct.lbrace) hs
  have hexpect := run_expectToken setting enter Punct.lbrace (.ofMissing Punct.lbrace) none s
  show State.Traced setting text ((Rule.expect Punct.lbrace >>= fun opened => Rule.when opened (do
    body
    Rule.ignore (expectCloser Punct.rbrace (s.currentRange setting)))).run setting enter s).2
  rw [run_bind]
  obtain ⟨hk, hrun⟩ | ⟨-, hk, hrun⟩ | hrun := hexpect
  · rw [Rule.expect, hrun] at hvalid ⊢
    exact traced_group hbody henter hcalls hvalid (keeping_traced.bump h) (opened_bump rfl h hk)
  · -- the place was looked at in front of the stray token, so that is what is noted
    rw [Rule.expect, hrun] at hvalid ⊢
    exact traced_group hbody henter hcalls hvalid (keeping_traced.bump (traced_skipToken rfl h))
      (opened_skipToken h hk)
  · rw [Rule.expect, hrun]
    exact keeping_traced.report rfl h

/-- Looking changes nothing. -/
theorem traced_look {first : Rule Nonterminal α} {next : α → Rule Nonterminal β} {s : State} {a : α}
    (hfirst : first.run setting enter s = (a, s))
    (hnext : ((next a).run setting enter s).2.Traced setting text) :
    ((first >>= next).run setting enter s).2.Traced setting text := by
  rwa [run_bind, hfirst]

/-- What is taken as a name has gone from in front of the text. -/
theorem kindAt_name {s : State} (hk : s.kindAt 0 = some .ident) (n : Nat) :
    ((name : Rule Nonterminal Bool).run setting enter s).2.kindAt n = s.kindAt (n + 1) := by
  have hbump : ((name : Rule Nonterminal Bool).run setting enter s).2.kindAt n
      = { s.attachPending with siblings := [] }.bump.kindAt n := by
    simp only [name, run_bind, run_currentIs, hk]
    rfl
  rw [hbump, State.kindAt_bump]
  rfl

end

/-! ### The grammar -/

section

variable {α : Type} {setting : Setting} {text : List Word}

theorem traces_atQualName : Traces setting text atQualName :=
  .elementary elementary_atQualName (by simp [atQualName])

theorem traces_name : Traces setting text name := .elementary elementary_name plain_name

theorem traces_nameList : Traces setting text nameList :=
  .elementary elementary_nameList plain_nameList

theorem traces_qualName : Traces setting text qualName :=
  .elementary elementary_qualName plain_qualName

/-- Groups of bound values are called only in front of their opening mark. -/
theorem traces_boundValue : Traces setting text boundValue := by
  refine .node fun enter henter hcalls s hs h => ?_
  simp only [run_bind, run_peek]
  split
  · exact keeping_traced.bump h
  · exact keeping_traced.bump (keeping_traced.bump h)
  · next hform => exact hcalls.2 s hs h (kindAt_of_group hform)
  · exact traces_qualName.ignore enter henter hcalls s hs h
  · exact keeping_traced.report rfl h

theorem traces_optionDecl : Traces setting text optionDecl := by
  have hvalue : optionValue.Tells Problem.Plain := by
    simp +decide [optionValue, atQualName, plain_qualName]
  exact .node <| .bind .bump fun _ => .bind (.ofLooking fun _ _ => rfl) fun _ =>
    .bind traces_qualName.ignore fun _ => .bind (.ofLooking fun _ _ => rfl) fun _ =>
    .bind (.elementary elementary_optionValue hvalue) fun _ => .when .admitTemporal

/-- An orderly rule that notes nothing itself. -/
theorem Orderly.traces {rule : Rule Nonterminal α} (h : Orderly rule)
    (hplain : rule.Tells Problem.Plain) : Traces setting text rule := by
  have hskips {β : Type} {rule : Rule Nonterminal β} (hrule : Elementary (fun _ => true) rule) :
      rule.Tells Problem.Plain → Traces setting text rule := .elementary hrule
  induction h with
  | done a => exact .pure a
  | andThen _ _ hfirst hnext => exact .bind (hfirst hplain.1) fun a => hnext a (hplain.2 a)
  | peek n => exact .peek n
  | ahead test => exact .ahead test
  | atRecoveryPoint => exact .ofLooking fun _ _ => rfl
  | bump => exact .bump
  | node _ _ hbody => exact .node (hbody hplain)
  | group _ hbody => exact .group (hbody hplain)
  | enclose _ _ hbody => exact .enclose (hbody hplain)
  | within context _ hbody => exact .within context (hbody hplain)
  | report _ => exact .report hplain
  | requireTemporal => exact .requireTemporal
  | loop a _ hbody => exact .loop a fun b => hbody b (hplain b)
  | opener _ _ hnext => exact .bind (.ofLooking fun _ _ => rfl) fun r => hnext r (hplain.2 r)
  | skipToken hproblem => exact hskips (.skipToken hproblem rfl) hplain
  | skipUntil stops hproblem => exact hskips (.skipUntil stops hproblem rfl) hplain
  | @items closer code item _ _ _ hitem =>
    have hparts : item.Tells Problem.Plain ∧ (Problem.listItem code).Plain := by
      simpa [Rule.items] using hplain
    exact .items closer code (hitem hparts.1)
  | progress _ _ hbody => exact .progress (hbody hplain)
  | expression level => exact fun _ _ hcalls => hcalls.1 level
  | boundValue => exact traces_boundValue
  | optionDecl => exact traces_optionDecl
  | behindExpression => exact hskips elementary_behindExpression hplain

/-- A guarded rule that notes nothing itself. -/
theorem Traces.quiet {rule : Rule Nonterminal α} (hrule : Guarded false rule)
    (hplain : rule.Tells Problem.Plain) : Traces setting text rule :=
  hrule.orderly.traces hplain

/-! ### Blocks and binders -/

theorem traces_expr : Traces setting text expr := .quiet guarded_expr plain_expr

theorem traces_quantDecls : Traces setting text quantDecls :=
  .quiet guarded_quantDecls plain_quantDecls

/-- A block expects its opening brace too, but it is called only where that is present. -/
theorem tracesAt_block : TracesAt setting text (.punct .lbrace) block := by
  refine .node fun enter henter hcalls s hs h hk => ?_
  have hbody : Traces setting text
      (within .block <| items .rbrace .missingExpression <| ignore expr) :=
    .within _ <| .items _ _ traces_expr.ignore
  have hpresent : (expect Punct.lbrace : Rule Nonterminal Bool).run setting enter s
      = (true, s.bump) := by
    simp [expect, expectToken, run_eat, hk]
  have hplace : (currentRange : Rule Nonterminal ByteRange).run setting enter s
      = (s.currentRange setting, s) := rfl
  refine traced_look hplace ?_
  rw [run_bind, run_ignore, hpresent]
  exact traced_group hbody henter hcalls ((State.reaches_bump s).valid hs) (keeping_traced.bump h)
    (opened_bump rfl h hk)

theorem traces_binderBody : Traces setting text binderBody :=
  .bind .eat fun _ => .ite traces_expr.ignore <| tracesAt_block.ifCurrent (.report rfl)

theorem traces_bindings (kind : NodeKind) : Traces setting text (bindings kind) := by
  have hletDecl : Traces setting text letDecl := .quiet guarded_letDecl plain_letDecl
  have hmore : Traces setting text atCommaName :=
    .elementary elementary_atCommaName (by simp [atCommaName])
  exact .node <| .bind .bump fun _ => .bind hletDecl fun _ =>
    .bind (.repeated <| .bind hmore fun _ => .bind (.when <| .bind .bump fun _ => hletDecl) fun _ =>
      .pure _) fun _ =>
    traces_binderBody

theorem traces_binder (keyword : TokenKind) : Traces setting text (binder keyword) := by
  unfold binder
  split
  · exact traces_bindings _
  · exact traces_bindings _
  · exact .node <| .bind .bump fun _ => .bind (.ahead _) fun _ =>
      .bind (.pick traces_quantDecls (.report rfl)) fun _ => traces_binderBody

/-! ### Expressions -/

theorem tracesAt_parenthesized : TracesAt setting text (.punct .lparen) parenthesized :=
  .node <| (Traces.within _ traces_expr.ignore).opening rfl

theorem tracesAt_comprehension : TracesAt setting text (.punct .lbrace) comprehension := by
  have hbody : Traces setting text (within .block do
      quantDecls
      let bar ← eat Punct.bar
      if bar then ignore expr
      else
        let brace ← currentIs Punct.lbrace
        when brace block) :=
    .within _ <| .bind traces_quantDecls fun _ => .bind .eat fun _ =>
      .ite traces_expr.ignore tracesAt_block.whenCurrent
  exact .node <| hbody.opening rfl

theorem traces_atom : Traces setting text atom := by
  intro enter henter hcalls s hs h
  simp only [atom, run_bind, run_peek]
  split
  · next form hform =>
    show State.Traced setting text (form.rule.run setting enter s).2
    cases form with
    | oneToken kind => exact keeping_traced.bump h
    | negativeNumber => exact keeping_traced.bump (keeping_traced.bump h)
    | nameRef => exact traces_qualName.ignore.node enter henter hcalls s hs h
    | atName => exact keeping_traced.bump (keeping_traced.bump h)
    | parenthesized =>
      exact tracesAt_parenthesized enter henter hcalls s hs h (kindAt_of_parenthesized hform)
    | braced =>
      have hk := kindAt_of_braced hform
      simp only [AtomForm.rule, run_bind, run_ahead, run_ite]
      split
      · exact tracesAt_comprehension enter henter hcalls s hs h hk
      · exact tracesAt_block enter henter hcalls s hs h hk
  · exact h

theorem traces_operandHead : Traces setting text operandHead := by
  have hatBinder : Traces setting text atBinder :=
    .quiet guarded_atBinder (by simp [atBinder, atQuantifier])
  refine .bind (.peek 0) fun first => .bind hatBinder fun isBinder => ?_
  split
  · exact .pure _
  · refine .ite (.bind (traces_binder _) fun _ => .pure _) ?_
    split
    · exact .bind (.node <| .bind (.when .requireTemporal) fun _ => .bind .bump fun _ =>
        .quiet (guarded_operand _ _) (plain_operand _ _)) fun _ => .pure _
    · exact traces_atom

theorem traces_extend (level : Nat) : Traces setting text (extend level) :=
  .quiet (guarded_extend level) (plain_extend level)

theorem traces_expression (level : Nat) : Traces setting text (expression level) :=
  .group <| .bind traces_operandHead fun _ => .bind (.when (traces_extend level)) fun _ => .pure _

/-! ### Bounds -/

theorem tracesAt_boundGroup : TracesAt setting text (.punct .lparen) boundGroup := by
  have hunion : Traces setting text boundUnion := .quiet guarded_boundUnion plain_boundUnion
  intro enter henter hcalls s hs h hk
  have hgroup := hunion.opening (show Punct.rparen.opener? = some .lparen from rfl) enter henter
    hcalls s hs h hk
  simp only [boundGroup, run_bind, run_pure] at hgroup ⊢
  exact hgroup

theorem traces_bounds : Traces setting text bounds := by
  have hitem : Traces setting text (do
      let present ← atBound
      when present bound) :=
    .quiet (.bind (.orElse .currentIn guarded_atQualName) fun _ => .when guarded_bound)
      (by simp [atBound, atQualName, plain_bound])
  have hgroup := (Traces.within .bounds <| .items .rbrace .malformedBound hitem).opening
    (show Punct.rbrace.opener? = some .lbrace from rfl)
  exact .node <| .bind (.ignore .eat) fun _ => hgroup.ifCurrent <|
    .bind traces_atQualName fun _ => .ite traces_qualName.ignore (.report rfl)

/-! ### Commands and instances -/

theorem traces_atScope : Traces setting text atScope := .quiet guarded_atScope (by simp [atScope])

theorem traces_scope : Traces setting text scope := .quiet guarded_scope plain_scope

theorem traces_scopeAndBounds : Traces setting text scopeAndBounds :=
  .bind traces_atScope fun _ => .bind (.when traces_scope) fun _ => .bind .eat fun _ =>
    .when traces_bounds

theorem traces_optionalTarget : Traces setting text optionalTarget := by
  intro enter henter hcalls s hs h
  refine traced_look (run_atQualName s) <| traced_look (run_currentIs _ s) ?_
  split
  · exact traces_qualName.ignore enter henter hcalls s hs h
  · rw [run_when]
    split
    · next hbrace => exact tracesAt_block enter henter hcalls s hs h (eq_of_beq hbrace)
    · exact h

theorem traces_cmdDecl : Traces setting text cmdDecl :=
  .node <| .bind .currentIs fun _ =>
    .bind (.when <| .bind traces_name.ignore fun _ => .bump) fun _ => .bind .currentIn fun _ =>
    .bind (.pick .bump (.report rfl)) fun _ => .bind traces_optionalTarget fun _ =>
    traces_scopeAndBounds

theorem traces_instDecl : Traces setting text instDecl :=
  .node <| .bind .bump fun _ => .bind traces_name.ignore fun _ => .bind traces_bounds fun _ =>
    .bind traces_atScope fun _ => .when traces_scope

/-! ### Predicates, functions and facts -/

theorem traces_declBody (owner : BodyOwner) : Traces setting text (declBody owner) :=
  tracesAt_block.ifCurrent (.report rfl)

theorem traces_optionalReceiver : Traces setting text optionalReceiver :=
  .quiet guarded_optionalReceiver plain_optionalReceiver

/-- Parameters are closed by the mark that closes their opening one. -/
theorem tracesAt_paraDecls {opener : Punct} (hopener : opener = .lparen ∨ opener = .lbracket) :
    TracesAt setting text (.punct opener) paraDecls := by
  have hitems (closer : Punct) : Traces setting text
      (within .parameterList <| repeated <| paraItem closer) :=
    .within _ <| .repeated <| .quiet (guarded_paraItem closer) (plain_paraItem closer)
  refine .node fun enter henter hcalls s hs h hk => traced_look (run_currentIs _ s) ?_
  rw [hk]
  cases hopener with
  | inl hparen =>
    subst hparen
    exact (hitems .rparen).opening rfl enter henter hcalls s hs h hk
  | inr hbracket =>
    subst hbracket
    exact (hitems .rbracket).opening rfl enter henter hcalls s hs h hk

theorem traces_optionalParaDecls : Traces setting text optionalParaDecls := by
  intro enter henter hcalls s hs h
  refine traced_look (run_currentIn _ s) ?_
  rw [run_when]
  split
  · next hpresent =>
    obtain ⟨kind, hk, hmem⟩ := (Option.any_eq_true _ _).mp hpresent
    have hopener : kind = .punct .lparen ∨ kind = .punct .lbracket := by simpa using hmem
    cases hopener with
    | inl hparen => exact tracesAt_paraDecls (.inl rfl) enter henter hcalls s hs h (hparen ▸ hk)
    | inr hbracket => exact tracesAt_paraDecls (.inr rfl) enter henter hcalls s hs h (hbracket ▸ hk)
  · exact h

theorem traces_predDecl : Traces setting text predDecl :=
  .node <| .bind .bump fun _ => .bind .currentIs fun _ => .bind (.when <| .node .bump) fun _ =>
    .bind traces_optionalReceiver fun _ => .bind traces_name.ignore fun _ =>
    .bind traces_optionalParaDecls fun _ => traces_declBody _

theorem traces_funDecl : Traces setting text funDecl := by
  have hmult : Traces setting text (optionalMult Operator.typeMultiplicities) :=
    .quiet (guarded_optionalMult _) (plain_optionalMult _)
  exact .node <| .bind .bump fun _ => .bind traces_optionalReceiver fun _ =>
    .bind traces_name.ignore fun _ => .bind traces_optionalParaDecls fun _ =>
    .bind (.ignore <| .expect _) fun _ => .bind hmult fun _ => .bind traces_expr.ignore fun _ =>
    traces_declBody _

theorem traces_factDecl : Traces setting text factDecl :=
  .node <| .bind .bump fun _ => .bind .currentIs fun _ => .bind (.when traces_name.ignore) fun _ =>
    traces_declBody _

/-! ### Signatures -/

theorem traces_sigDecl : Traces setting text sigDecl := by
  have hfieldList : Traces setting text fieldList :=
    .node <| .braces <| .within _ <| .repeated <| .quiet guarded_fieldItem plain_fieldItem
  have hkeyword : Traces setting text (expectToken Keyword.sigKw .missingSig none) :=
    fun _ _ _ _ _ h => traced_expectToken h nofun
  exact .node <| .bind (.repeated <| .quiet guarded_sigModifier plain_sigModifier) fun _ =>
    .bind hkeyword.ignore fun _ => .bind traces_nameList.ignore fun _ => .bind .currentIn fun _ =>
    .bind (.when <| .quiet guarded_sigExt plain_sigExt) fun _ => .bind hfieldList fun _ =>
    tracesAt_block.whenCurrent

/-! ### Assertions -/

theorem traces_assertionTail (form : AssertionForm) : Traces setting text (assertionTail form) := by
  have hnamed (kind : TokenKind) {rule : Rule Nonterminal Unit} (hrule : Traces setting text rule) :
      Traces setting text (do
        ignore (expect kind)
        ignore name
        rule) :=
    .bind (.ignore <| .expect kind) fun _ => .bind traces_name.ignore fun _ => hrule
  have harguments : Traces setting text optionalArguments :=
    ((Traces.quiet guarded_arguments plain_arguments).opening rfl).whenCurrent
  refine .bind .bump fun _ => .bind .currentIs fun failing => .bind .bump fun _ => ?_
  cases form with
  | property | consistency => exact hnamed _ traces_scopeAndBounds
  | quantifiedProperty => exact hnamed _ <| .bind harguments fun _ => traces_scopeAndBounds
  | satisfiability => exact .bind (.when <| .ignore .eat) fun _ => traces_scopeAndBounds

theorem traces_asserted : Traces setting text asserted := by
  have hblock : TracesAt setting text (.punct .lbrace) (do
      group do
        block
        extend 0
      let tagged ← currentIs Keyword.isKw
      return if tagged then Asserted.expression else .plain) :=
    .bind (.group <| .bind tracesAt_block fun _ => traces_extend 0) fun _ =>
      .bind .currentIs fun _ => .pure _
  have hatProperty : Traces setting text atProperty :=
    .quiet (.andAlso .currentIs (.nthPasses _ _)) (by simp [atProperty])
  have hquantified : Traces setting text (group do
      bump
      quantDecls
      binderBody
      let property ← atProperty
      if property then return Asserted.quantified
      else do
        enclose .quantExpr (return ())
        return .expression) :=
    .group <| .bind .bump fun _ => .bind traces_quantDecls fun _ => .bind traces_binderBody fun _ =>
      .bind hatProperty fun _ => .ite (.pure _) <| .bind (.enclose <| .pure ()) fun _ => .pure _
  have hexpression : Traces setting text (do
      ignore expr
      return Asserted.expression) :=
    .bind traces_expr.ignore fun _ => .pure _
  intro enter henter hcalls s hs h
  have hnamed : (andAlso (currentIs .ident) (nthIs 1 Punct.lbrace) :
      Rule Nonterminal Bool).run setting enter s
        = (s.kindAt 0 == some .ident && s.kindAt 1 == some (.punct .lbrace), s) := by
    rw [run_andAlso, run_currentIs, run_nthIs]
    cases s.kindAt 0 == some .ident <;> rfl
  have hdeclaration (c : Bool) : (andAlso (return c) (ahead declarationBehind) :
      Rule Nonterminal Bool).run setting enter s = (c && declarationBehind s.kinds, s) := by
    rw [run_andAlso, run_ahead]
    cases c <;> rfl
  refine traced_look hnamed <| traced_look (run_currentIs _ s) <| traced_look (run_currentIs _ s) <|
    traced_look (hdeclaration _) ?_
  split
  · next hat =>
    obtain ⟨hident, hbrace⟩ := Bool.and_eq_true_iff.mp hat
    -- the brace is the second token here, and the block is called behind the name
    have hname := traces_name.ignore enter henter hcalls s hs h
    have hbehind : ((ignore name : Rule Nonterminal Unit).run setting enter s).2.kindAt 0
        = some (.punct .lbrace) := by
      rw [run_ignore, kindAt_name (eq_of_beq hident), eq_of_beq hbrace]
    simp only [run_bind, run_pure]
    exact tracesAt_block enter henter hcalls _ (valid_run setting henter _ hs) hname hbehind
  · split
    · next hat =>
      exact hblock enter henter hcalls s hs h (eq_of_beq (Bool.and_eq_true_iff.mp hat).1)
    · exact Traces.ite hquantified hexpression enter henter hcalls s hs h

theorem traces_assertion : Traces setting text assertion := by
  refine .group <| .bind .bump fun _ => .bind traces_asserted fun body =>
    .ite (.bind (.enclose <| .pure ()) fun _ => .pure _) <| .bind .currentIs fun tagged =>
    .bind (.peek 1) fun tag => ?_
  split
  · exact .bind (.enclose <| traces_assertionTail _) fun _ => .pure _
  · exact .bind (.enclose <| .report rfl) fun _ => .pure _

/-! ### Tests and examples -/

theorem traces_testBlock (context : Context) {item : Rule Nonterminal Unit}
    (hitem : Traces setting text item) : Traces setting text (testBlock context item) :=
  .node <| .braces <| .within _ <| .items _ _ hitem

theorem traces_testDecl : Traces setting text testDecl := by
  have hlabelled : Traces setting text (andAlso (currentIs .ident) (nthIs 1 Punct.colon)) :=
    .quiet (.andAlso .currentIs (.nthIs _ _)) (by simp)
  have hresult : Traces setting text testResult :=
    .bind .currentIn fun _ => .bind .currentIs fun _ => .ite .bump <|
      .ite (.bind .bump fun _ => .ignore .eat) (.report rfl)
  exact .node <| .bind hlabelled fun _ =>
    .bind (.when <| .bind traces_name.ignore fun _ => .bump) fun _ =>
    .bind traces_optionalTarget fun _ => .bind traces_scopeAndBounds fun _ =>
    .bind (.ignore <| .expect _) fun _ => hresult

theorem traces_testExpectDecl : Traces setting text testExpectDecl := by
  have hpresent : Traces setting text (orElse (currentIs Punct.lbrace) atQualName) :=
    .quiet (.orElse .currentIs guarded_atQualName) (by simp [atQualName])
  exact .node <| .bind (.ignore .eat) fun _ => .bind (.ignore <| .expect _) fun _ =>
    .bind .currentIs fun _ => .bind (.when traces_name.ignore) fun _ =>
    traces_testBlock _ <| .bind hpresent fun _ => .when traces_testDecl

theorem traces_exampleDecl : Traces setting text exampleDecl :=
  .node <| .bind .bump fun _ => .bind traces_name.ignore fun _ =>
    .bind (.ignore <| .expect _) fun _ => .bind traces_expr.ignore fun _ =>
    .bind (.ignore <| .expect _) fun _ => traces_bounds

theorem traces_suiteItem : Traces setting text suiteItem := by
  refine .bind (.peek 0) fun first => .bind (.peek 1) fun second => ?_
  split
  · exact traces_exampleDecl
  · exact traces_testExpectDecl
  · exact .bind traces_assertion fun _ => .when (.report rfl)
  · exact .ite traces_testExpectDecl <| .bind (.ofLooking fun _ _ => rfl) fun _ =>
      .when (.skipToken rfl)

theorem traces_testSuiteDecl : Traces setting text testSuiteDecl :=
  .node <| .bind .bump fun _ => .bind .bump fun _ => .bind (.ignore <| .expect _) fun _ =>
    .bind traces_name.ignore fun _ => traces_testBlock _ traces_suiteItem

/-! ### Modules -/

theorem traces_moduleDecl : Traces setting text moduleDecl :=
  .node <| .bind .bump fun _ => .bind traces_atQualName fun _ =>
    .bind (.pick traces_qualName.ignore (.report rfl)) fun _ =>
    (traces_nameList.ignore.opening rfl).whenCurrent

theorem traces_importDecl : Traces setting text importDecl := by
  have hnames : Traces setting text qualNameList := .quiet guarded_qualNameList plain_qualNameList
  have htarget : Traces setting text importTarget :=
    .bind traces_atQualName fun _ => .bind .currentIs fun _ =>
      .ite (.bind traces_qualName.ignore fun _ => (hnames.opening rfl).whenCurrent) <|
      .ite .bump (.report rfl)
  exact .node <| .within _ <| .bind .bump fun _ => .bind htarget fun _ => .bind .eat fun _ =>
    .when traces_name.ignore

theorem traces_paragraph (form : ParagraphStart) : Traces setting text form.rule := by
  cases form with
  | sig => exact traces_sigDecl
  | pred => exact traces_predDecl
  | func => exact traces_funDecl
  | fact => exact traces_factDecl
  | assertion => exact .ignore traces_assertion
  | command => exact traces_cmdDecl
  | testSuite => exact traces_testSuiteDecl
  | testExpect => exact traces_testExpectDecl
  | exampleTest => exact traces_exampleDecl
  | inst => exact traces_instDecl
  | option => exact traces_optionDecl
  | sexpr => exact .node .bump

theorem traces_declaration (seen : Seen) : Traces setting text (declaration seen) := by
  have heval : Traces setting text evalDecl := .node <| .bind .bump fun _ => traces_expr.ignore
  refine .bind (.peek 0) fun first => .bind (.peek 1) fun second => .bind (.peek 2) fun third => ?_
  split
  · exact .bind (.report rfl) fun _ => .bind traces_moduleDecl fun _ => .pure _
  · exact .bind (.when <| .report rfl) fun _ => .bind traces_importDecl fun _ => .pure _
  · exact .bind (.when <| .report rfl) fun _ => .bind heval fun _ => .pure _
  · split
    · exact .bind (.when <| .report rfl) fun _ => .bind (traces_paragraph _) fun _ => .pure _
    · exact .pure _

/-! ### Whole grammars -/

/-- Whatever a text is read as, what the rule for it notes is where groups were opened. -/
theorem traces_entry (entry : Entry) : Traces setting text entry.rule := by
  cases entry with
  | wholeModule =>
    have hitem (seen : Seen) : Traces setting text (moduleItem seen) :=
      .bind .atEnd fun _ => .ite (.pure _) <| .bind (.progress <| traces_declaration seen) fun _ =>
        .bind .atEnd fun _ => .bind (.when <| .skipUntil [] rfl rfl) fun _ => .pure _
    exact .bind .currentIs fun _ => .bind (.when traces_moduleDecl) fun _ =>
      .ignore <| .loop _ hitem
  | oneExpression =>
    exact .within _ <| .bind traces_expr.ignore fun _ =>
      .elementary elementary_behindExpression (by simp +decide)

/-- What a reading notes is where groups were opened, however deep the text is nested. -/
theorem maintainingCalls_traced (levels : Nat) :
    MaintainingCalls (State.Traced setting text) (language.enter setting levels) := by
  have hexpression (level : Nat) : Traces setting text (language.body (.expression level)) :=
    traces_expression level
  have hgroup : TracesAt setting text (.punct .lparen) (language.body .boundGroup) :=
    tracesAt_boundGroup
  refine maintainingCalls_enter (fun enter s _ _ h _ _ => ?_) (fun enter henter hcalls => ?_) levels
  · exact keeping_traced.run nofun skipNested plain_skipNested h
  · dsimp only [MaintainingCalls]
    exact ⟨fun level => hexpression level enter henter hcalls, hgroup enter henter hcalls⟩

end

end Grammar
end RelLang
