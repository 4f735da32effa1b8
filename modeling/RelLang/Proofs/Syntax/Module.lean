import RelLang.Proofs.Syntax.Declaration

/-!
# What tests and modules are read from

The rules for tests, imports and paragraphs read the forms of these names, and the
loop of a module reads the declarations that may stand behind those that have been
read.
-/

namespace RelLang.Grammar

open Rule
open Tree (kinds)

variable {r : Reader} {pre : List TokenKind → Prop}

/-! ### Tests -/

/-- The results of a test that are one word. -/
def plainResults : List TokenKind := [.keyword .satKw, .keyword .unsatKw, .keyword .theoremKw]

theorem reads_testResult (hr : r.Faithful) :
    Reads r pre anyhow (fun _ => Form.result plainResults) testResult := by
  have hread : Reads r pre anyhow (fun _ => .given (Form.atAny plainResults) (.token plainResults)
      (.given (Form.at? (.keyword .forgeErrorKw))
        (.token [.keyword .forgeErrorKw] ++ .optional .filePath) .never)) testResult :=
    (looks_currentIn plainResults).branch hr
      ((looks_currentIs (.keyword .forgeErrorKw)).same hr fun _ =>
        reads_bump fun _ hp => front_of_atAny hp.1.2)
      ((looks_currentIs (.keyword .forgeErrorKw)).branch hr
        (.bumpThen hr (fun _ hp => front_of_at? hp.2) (reads_optional hr))
        (rejects_report hr _).reads)
  refine hread.congr fun n _ ts behind => ?_
  rw [Form.result, Form.derives_given, Form.derives_given, Form.derives_given]
  by_cases hplain : Form.atAny plainResults (kinds ts ++ behind) = true
  · obtain ⟨k, rest, hks, hk, -⟩ := front_of_atAny hplain
    have hne : ¬ Form.at? (.keyword .forgeErrorKw) (kinds ts ++ behind) = true := by
      rw [hks]
      simp only [Form.at?, List.getElem?_cons_zero, beq_iff_eq, Option.some.injEq]
      rintro rfl
      revert hk
      decide
    rw [if_pos hplain, if_neg hne]
  · rw [if_neg hplain]
    split
    · rfl
    · refine ⟨fun hts => absurd ?_ hplain, fun hts => absurd hts Form.not_derives_never⟩
      exact (Form.begins_token fun _ => List.contains_iff_mem.mpr).any _ _ _ hts

theorem looks_labelled :
    Looks (andAlso (currentIs .ident) (nthIs 1 Punct.colon) : Rule Nonterminal Bool)
      Form.labelAhead :=
  (looks_currentIs _).andAlso (looks_nthIs _ _)

theorem front_of_labelAhead {ks : List TokenKind} (h : Form.labelAhead ks = true) :
    Front [.ident] (Front [.punct .colon] anything) ks := by
  obtain ⟨hident, hcolon⟩ := Bool.and_eq_true_iff.mp h
  exact front_front_of_eq (beq_iff_eq.mp hident) (beq_iff_eq.mp hcolon)

theorem reads_testDecl (hr : r.Faithful) :
    Reads r pre anyhow (fun _ => Form.testDecl) testDecl :=
  .node (looks_labelled.whenThen hr ((reads_label hr).weaken fun _ hp => front_of_labelAhead hp.2) <|
    .then hr (reads_optionalTarget hr) <| .then hr (reads_scopeAndBounds hr) <|
    .then hr (reads_expect hr _) (reads_testResult hr)) _

theorem looks_atTest : Looks (orElse (currentIs Punct.lbrace) atQualName) Form.testAhead :=
  (looks_currentIs _).orElse looks_atQualName

theorem reads_testItem (hr : r.Faithful) :
    Reads r (Form.testAhead · = true) anyhow (fun _ => Form.testItem) testDecl :=
  (reads_testDecl hr).reshape hr
    (fun _ _ _ _ hp hts => Form.derives_given.mpr (by rwa [if_pos hp]))
    fun _ _ _ _ hp _ hts => by rwa [Form.testItem, Form.derives_given, if_pos hp] at hts

theorem tries_testItem (hr : r.Faithful) : Tries r Form.testItem testItem :=
  looks_atTest.tries (reads_testItem hr) Form.shows_given_never

theorem reads_testBlock (hr : r.Faithful) {item : Form} {rule : Rule Nonterminal Unit}
    (context : Context) (h : Tries r item rule) (hbegins : item.Begins (· ≠ .punct .rbrace)) :
    Reads r pre anyhow (fun _ => Form.testBlock item) (testBlock context rule) :=
  .node (.currentRange fun opener => .thenTrue hr (reads_expectToken hr _ _ _)
    (.closed hr (.within (reads_items hr h hbegins) _) (reads_expectCloser hr _ opener))) _

theorem begins_testDecl : Form.testDecl.Begins fun _ => True := by
  have his : (Form.token [.keyword .isKw]).Begins fun _ => True := Form.begins_token fun _ _ => trivial
  exact .node (.appendRight (.appendRight (.appendRight (his.append _) _) _) _) _

theorem begins_testItem : Form.testItem.Begins (· ≠ .punct .rbrace) := by
  intro n ts behind hts
  have htest := Form.shows_given_never n ts behind hts
  rw [Form.testItem, Form.derives_given, if_pos htest] at hts
  obtain ⟨k, ks, hk, -⟩ := begins_testDecl _ _ _ hts
  refine ⟨k, ks, hk, ?_⟩
  rintro rfl
  simp [hk, Form.testAhead, Form.qualNameAhead, Form.at?, TokenKind.isNameSegment] at htest

theorem reads_testExpectDecl (hr : r.Faithful) :
    Reads r pre anyhow (fun _ => Form.testExpectDecl) testExpectDecl :=
  .node (.then hr (reads_optional hr) <| .then hr (reads_expect hr _) <|
    (looks_currentIs _).whenThen hr (reads_name hr).ignore
      (reads_testBlock hr _ (tries_testItem hr) begins_testItem)) _

theorem reads_exampleDecl (hr : r.Faithful) :
    Reads r (Form.at? (.keyword .exampleKw) · = true) anyhow (fun _ => Form.exampleDecl)
      exampleDecl :=
  .node (.bumpThen hr (fun _ => front_of_at?) <| .then hr (reads_name hr).ignore <|
    .then hr (reads_expect hr _) <| .then hr (reads_expr hr) <| .then hr (reads_expect hr _)
      (reads_bounds hr)) _

/-- A test block that is an item of a suite. -/
def expectAhead (ks : List TokenKind) : Bool :=
  Form.at? (.keyword .expectKw) ks
    || (Form.at? (.keyword .testKw) ks && ks[1]? == some (.keyword .expectKw))

/-- An assertion that may stand in a suite. -/
def suiteAssertion : Rule Nonterminal Unit := do
  let admitted ← assertion
  when (!admitted) (report .assertionInSuite)

/-- What is no item of a suite. -/
def strayItem : Rule Nonterminal Unit := do
  let recovered ← atRecoveryPoint
  when (!recovered) (skipToken .suiteItem)

/-- An item of a suite, told by what is ahead. -/
def suiteItemAhead : Rule Nonterminal Unit :=
  currentIs Keyword.exampleKw >>= fun present => if present then exampleDecl else
    ahead expectAhead >>= fun present => if present then testExpectDecl else
      currentIs Keyword.assertKw >>= fun present => if present then suiteAssertion else strayItem

theorem run_suiteItem {setting : Setting} {enter : Nonterminal → State → Bool × State} (s : State) :
    suiteItem.run setting enter s = suiteItemAhead.run setting enter s := by
  have hexpect : expectAhead s.kinds = (s.kindAt 0 == some (.keyword .expectKw)
      || (s.kindAt 0 == some (.keyword .testKw) && s.kindAt 1 == some (.keyword .expectKw))) := by
    rw [State.kindAt_eq, State.kindAt_eq]
    rfl
  simp only [suiteItem, suiteItemAhead, run_bind, run_peek, run_currentIs, run_ahead, run_ite,
    hexpect]
  generalize s.kindAt 0 = first
  generalize s.kindAt 1 = second
  split
  · rfl
  · rfl
  · rfl
  · next hexample hexpect hassert =>
    have hexample : ¬ (first == some (.keyword .exampleKw)) = true := by simpa using hexample
    have hexpect : (first == some (.keyword .expectKw)) = false := by simpa using hexpect
    have hassert : ¬ (first == some (.keyword .assertKw)) = true := by simpa using hassert
    rw [if_neg hexample, if_neg hassert, hexpect, Bool.false_or]
    split <;> rfl

theorem tries_strayItem (hr : r.Faithful) : Tries r .never strayItem := by
  refine ⟨fun s hs hclean => ?_, fun _ _ _ _ _ _ hts => absurd hts Form.not_derives_never⟩
  rw [strayItem, run_bind, run_atRecoveryPoint] at hclean ⊢
  dsimp only at hclean ⊢
  cases hrecovered : s.atRecoveryPoint with
  | true => exact .inl rfl
  | false =>
    rw [hrecovered] at hclean
    exact absurd hclean (rejects_skipToken hr _ s)

theorem reads_suiteAssertion (hr : r.Faithful) :
    Reads r (Form.at? (.keyword .assertKw) · = true) anyhow (fun _ => Form.assertion true)
      suiteAssertion := by
  have hadmitted : ∀ admitted : Bool, Reads r anything anyhow
      (fun _ => if admitted then .nothing else .never)
      (when (!admitted) (report .assertionInSuite)) := by
    intro admitted
    cases admitted with
    | true => exact reads_done
    | false => exact (rejects_report hr _).reads
  refine (reads_assertion hr).bind hr hadmitted (fun n _ ts behind => ?_)
    (fun _ _ _ _ _ _ => trivial) fun _ _ _ _ _ _ => trivial
  simp

theorem shows_expectAhead : Form.testExpectDecl.Shows expectAhead := by
  refine .node (fun n ts behind hts => ?_) _
  obtain ⟨us, vs, rfl, htest, hrest⟩ := Form.derives_row_cons.mp hts
  obtain ⟨vs, ws, rfl, hexpect, -⟩ := Form.derives_row_cons.mp hrest
  obtain ⟨k, text, hk, rfl⟩ := Form.derives_token.mp hexpect
  obtain rfl := List.mem_singleton.mp hk
  rw [Form.optional, Form.ifAhead, Form.derives_given] at htest
  split at htest
  · obtain ⟨k, text, hk, rfl⟩ := Form.derives_token.mp htest
    obtain rfl := List.mem_singleton.mp hk
    rfl
  · obtain rfl := Form.derives_nothing.mp htest
    rfl

theorem beginsWith_assertion (admitted : Bool) :
    Form.BeginsWith (.keyword .assertKw) (Form.assertion admitted) := by
  have hhead : ∀ body, Form.BeginsWith (.keyword .assertKw) (Form.assertionHead body) :=
    fun _ => (Form.beginsWith_token _).append _
  cases admitted with
  | false => exact (hhead .plain).node _
  | true =>
    intro n ts behind hts
    obtain ⟨⟨body, form⟩, -, hts⟩ := derives_assertion_true.mp hts
    exact ((hhead body).append _).node _ _ _ _ hts

theorem beginsWith_exampleDecl : Form.BeginsWith (.keyword .exampleKw) Form.exampleDecl :=
  ((Form.beginsWith_token _).append _).node _

theorem tries_suiteItem (hr : r.Faithful) : Tries r Form.suiteItem suiteItem := by
  have hnever : ∀ {v}, Form.never.Shows v := fun _ _ _ h => absurd h Form.not_derives_never
  have hfirst : Form.Shows (Form.at? (.keyword .assertKw)) (.either (Form.assertion true) .never) :=
    (beginsWith_assertion true).at?.either hnever
  have hexpect : ∀ {ks}, Form.at? (.keyword .assertKw) ks = true → (!expectAhead ks) = true := by
    intro ks h
    rw [expectAhead, at?_eq_false h (by decide), at?_eq_false h (by decide)]
    rfl
  have hexample : ∀ {ks}, expectAhead ks = true →
      (!Form.at? (.keyword .exampleKw) ks) = true := by
    intro ks h
    obtain h | h := Bool.or_eq_true_iff.mp h
    · rw [at?_eq_false h (by decide)]
      rfl
    · rw [at?_eq_false (Bool.and_eq_true_iff.mp h).1 (by decide)]
      rfl
  refine Tries.ofRun ((looks_currentIs _).triesOr (reads_exampleDecl hr)
    ((looks_ahead expectAhead).triesOr (reads_testExpectDecl hr)
      ((looks_currentIs _).triesOr (reads_suiteAssertion hr) (tries_strayItem hr)
        (beginsWith_assertion true).at? hnever)
      shows_expectAhead (hfirst.mono fun _ => hexpect))
    beginsWith_exampleDecl.at? ((shows_expectAhead.mono fun _ => hexample).either
      (hfirst.mono fun _ h => by rw [at?_eq_false h (by decide)]; rfl))) fun s => run_suiteItem s

theorem begins_suiteItem : Form.suiteItem.Begins (· ≠ .punct .rbrace) := by
  have hexpect : Form.testExpectDecl.Begins (· ≠ .punct .rbrace) := by
    have hbegins : Form.testExpectDecl.Begins fun _ => True :=
      .node (.appendRight ((Form.begins_token fun _ _ => trivial).append _) _) _
    intro n ts behind hts
    obtain ⟨k, ks, hk, -⟩ := hbegins _ _ _ hts
    refine ⟨k, ks, hk, ?_⟩
    rintro rfl
    have hahead := shows_expectAhead _ _ _ hts
    simp [hk, expectAhead, Form.at?] at hahead
  exact (beginsWith_exampleDecl.mono fun _ h => by rw [h]; decide).either (hexpect.either
    (((beginsWith_assertion true).mono fun _ h => by rw [h]; decide).either Form.begins_never))

theorem reads_testSuiteDecl (hr : r.Faithful) :
    Reads r (fun ks => Form.at? (.keyword .testKw) ks = true
        ∧ ks[1]? = some (.keyword .suiteKw)) anyhow
      (fun _ => Form.testSuiteDecl) testSuiteDecl :=
  .node (.bumpThen hr (fun _ hp => front_front_of_eq (beq_iff_eq.mp hp.1) hp.2) <|
    .bumpThen hr (fun _ => id) <| .then hr (reads_expect hr _) <| .then hr (reads_name hr).ignore
      (reads_testBlock hr _ (tries_suiteItem hr) begins_suiteItem)) _

/-! ### Imports, options and evaluations -/

theorem reads_moduleDecl (hr : r.Faithful) :
    Reads r (Form.at? (.keyword .moduleKw) · = true) anyhow (fun _ => Form.moduleDecl)
      moduleDecl := by
  have hbracket : Reads r anything anyhow (fun _ => .ifAhead (Form.at? (.punct .lbracket))
      (.row [.token [.punct .lbracket], Form.nameList, .token [.punct .rbracket]])) (do
        let bracket ← currentIs Punct.lbracket
        when bracket do
          let opener ← currentRange
          bump
          ignore nameList
          ignore (expectCloser Punct.rbracket opener)) :=
    (looks_currentIs _).when hr <| .currentRange fun opener =>
      .bumpThen hr (fun _ h => front_of_at? h.2) <| .then hr (reads_nameList hr).ignore
        (reads_expectCloser hr _ opener)
  refine .node (.bumpThen hr (fun _ => front_of_at?) ?_) _
  exact looks_atQualName.require hr (.then hr (reads_qualName hr).ignore hbracket)
    ((rejects_report hr _).bind hr _) fun _ => Form.shows_qualName.append _

theorem reads_importTarget (hr : r.Faithful) :
    Reads r pre anyhow (fun _ => Form.importTarget) importTarget := by
  have hbracket : Reads r anything anyhow (fun _ => .ifAhead (Form.at? (.punct .lbracket))
      (.row [.token [.punct .lbracket], Form.qualNameList, .token [.punct .rbracket]])) (do
        let bracket ← currentIs Punct.lbracket
        when bracket do
          let opener ← currentRange
          bump
          qualNameList
          ignore (expectCloser Punct.rbracket opener)) :=
    (looks_currentIs _).when hr <| .currentRange fun opener =>
      .bumpThen hr (fun _ h => front_of_at? h.2) <| .then hr (reads_qualNameList hr)
        (reads_expectCloser hr _ opener)
  exact looks_atQualName.branch hr ((looks_currentIs .filePath).same hr fun _ =>
      .then hr (reads_qualName hr).ignore hbracket)
    ((looks_currentIs .filePath).require hr (reads_bump fun _ hp => front_of_at? hp.2)
      (rejects_report hr _) fun _ => (Form.beginsWith_token _).at?)

theorem reads_importDecl (hr : r.Faithful) :
    Reads r (Form.at? (.keyword .openKw) · = true) anyhow (fun _ => Form.importDecl) importDecl :=
  .node (.within (.bumpThen hr (fun _ => front_of_at?) <| .then hr (reads_importTarget hr) <|
    reads_eat_when hr (reads_name hr).ignore) _) _

/-- The value of an option that begins with two tokens. -/
def valueAhead (first second : Option TokenKind) : Form :=
  if first == some .filePath || first == some .number then .token [.filePath, .number]
  else if first == some (.punct .minus) && second == some .number
    then .token [.punct .minus] ++ .token [.number]
  else Form.qualName

theorem derives_optionValue {n : Nat} {ts : List Tree} {behind : List TokenKind} :
    Form.optionValue.Derives n ts behind ↔
      (Form.ahead fun ks => valueAhead ks[0]? ks[1]?).Derives n ts behind := by
  rw [Form.optionValue, Form.derives_given, Form.derives_given, Form.derives_ahead]
  have hplain : Form.atAny [.filePath, .number] (kinds ts ++ behind)
      = ((kinds ts ++ behind)[0]? == some .filePath
        || (kinds ts ++ behind)[0]? == some .number) := by
    cases kinds ts ++ behind with
    | nil => rfl
    | cons k ks => simp [Form.atAny, Bool.beq_eq_decide_eq]
  rw [valueAhead, hplain]
  split
  · rfl
  by_cases hminus : Form.at? (.punct .minus) (kinds ts ++ behind) = true
  · have hfirst : ((kinds ts ++ behind)[0]? == some (.punct .minus)) = true := hminus
    rw [if_pos hminus, hfirst, Bool.true_and]
    split
    · rfl
    · next hnumber =>
      refine ⟨fun hts => absurd ?_ hnumber, fun hts => ?_⟩
      · obtain ⟨us, vs, rfl, hus, hvs⟩ := Form.derives_append.mp hts
        obtain ⟨k, text, -, rfl⟩ := Form.derives_token.mp hus
        obtain ⟨k', text', hk', rfl⟩ := Form.derives_token.mp hvs
        rw [List.mem_singleton.mp hk']
        rfl
      · obtain ⟨k, rest, hks, hk, -⟩ := front_of_at? hminus
        have hname := Form.shows_qualName _ _ _ hts
        rw [hks, List.mem_singleton.mp hk] at hname
        cases hname
  · have hfirst : ((kinds ts ++ behind)[0]? == some (.punct .minus)) = false :=
      Bool.eq_false_iff.mpr hminus
    rw [if_neg hminus, hfirst, Bool.false_and, if_neg Bool.false_ne_true]

theorem reads_optionValue (hr : r.Faithful) :
    Reads r pre anyhow (fun _ => Form.optionValue) optionValue := by
  refine Reads.congr (reads_peekTwo hr (g := fun first second _ => valueAhead first second)
    fun first second => ?_) fun _ _ _ _ => derives_optionValue
  rw [valueAhead]
  split
  · next hfirst =>
    refine looks_atQualName.same hr fun _ => (reads_bump fun ks hp => front_of_atAny ?_)
    obtain rfl | rfl : first = some .filePath ∨ first = some .number := by simpa using hfirst
    all_goals
      rw [Form.atAny, hp.1.2.1]
      rfl
  split
  · next hfirst =>
    obtain ⟨rfl, rfl⟩ : first = some (.punct .minus) ∧ second = some .number := by
      simpa using hfirst
    exact looks_atQualName.same hr fun _ =>
      reads_bump_bump hr fun ks hp => front_front_of_eq hp.1.2.1 hp.1.2.2
  · exact looks_atQualName.require hr (reads_qualName hr).ignore (rejects_report hr _)
      fun _ => Form.shows_qualName

theorem reads_optionDecl (hr : r.Faithful) :
    Reads r (Form.at? (.keyword .optionKw) · = true) anyhow (fun _ => Form.optionDecl)
      optionDecl := by
  have hallowed : ∀ temporal : Bool, Reads r anything anyhow (fun _ => .nothing)
      (when temporal admitTemporal) := by
    intro temporal
    cases temporal with
    | true => exact reads_admitTemporal
    | false => exact reads_done
  have hvalue : ∀ temporal : Bool, Reads r anything anyhow (fun _ => Form.optionValue ++ .nothing)
      (optionValue >>= fun _ => when temporal admitTemporal) := fun temporal =>
    .then hr (reads_optionValue hr) (hallowed temporal)
  exact .node (.bumpThen hr (fun _ => front_of_at?) <| .currentText fun key =>
    .then hr (reads_qualName hr).ignore <| .currentText fun value => (hvalue _).congr
      fun _ _ _ _ => Form.derives_append_nothing.symm) _

theorem reads_evalDecl (hr : r.Faithful) :
    Reads r (Form.at? (.keyword .evalKw) · = true) anyhow (fun _ => Form.evalDecl) evalDecl :=
  .node (.bumpThen hr (fun _ => front_of_at?) (reads_expr hr)) _

theorem reads_sexprDecl :
    Reads r (Form.at? .sexpr · = true) anyhow (fun _ => Form.sexprDecl) sexprDecl :=
  reads_tokenNode _ fun _ => front_of_at?

/-! ### Paragraphs -/

/-- What the first two tokens of a paragraph are. -/
def ParagraphStart.Opens (first second : Option TokenKind) : ParagraphStart → Prop
  | .pred => first = some (.keyword .predKw)
  | .func => first = some (.keyword .funKw)
  | .fact => first = some (.keyword .factKw)
  | .assertion => first = some (.keyword .assertKw)
  | .command => first = some .ident → second = some (.punct .colon)
  | .testSuite => first = some (.keyword .testKw) ∧ second = some (.keyword .suiteKw)
  | .exampleTest => first = some (.keyword .exampleKw)
  | .inst => first = some (.keyword .instKw)
  | .option => first = some (.keyword .optionKw)
  | .sexpr => first = some .sexpr
  | .sig | .testExpect => True

theorem tokens_of_paragraph {first second third : Option TokenKind} {start : ParagraphStart}
    (h : ParagraphStart.ofTokens? first second third = some start) :
    start.Opens first second := by
  unfold ParagraphStart.ofTokens? at h
  split at h
  case h_7 =>
    split at h
    · next hcolon =>
      cases h
      exact fun _ => beq_iff_eq.mp (Bool.and_eq_true_iff.mp hcolon).1
    · cases h
  case h_8 =>
    split at h
    · next hsuite =>
      cases h
      exact ⟨rfl, beq_iff_eq.mp hsuite⟩
    split at h
    · cases h
      trivial
    · cases h
  case h_17 =>
    split at h
    · cases h
      trivial
    · cases h
  all_goals cases h
  all_goals first | rfl | trivial | nofun

theorem reads_paragraphStart (hr : r.Faithful) (start : ParagraphStart) :
    Reads r (fun ks => ParagraphStart.ofTokens? ks[0]? ks[1]? ks[2]? = some start) anyhow
      (fun _ => Form.ofParagraph start) start.rule := by
  cases start with
  | sig => exact reads_sigDecl hr
  | pred => exact (reads_predDecl hr).weaken fun _ h => beq_iff_eq.mpr (tokens_of_paragraph h)
  | func => exact (reads_funDecl hr).weaken fun _ h => beq_iff_eq.mpr (tokens_of_paragraph h)
  | fact => exact (reads_factDecl hr).weaken fun _ h => beq_iff_eq.mpr (tokens_of_paragraph h)
  | assertion =>
    have hassertion : Reads r (Form.at? (.keyword .assertKw) · = true) anyhow
        (fun _ => .either (Form.assertion true) (Form.assertion false)) (ignore assertion) := by
      have hdone : ∀ _ : Bool, Reads r anything anyhow (fun _ => .nothing)
          (pure () : Rule Nonterminal Unit) := fun _ => reads_done
      refine (reads_assertion hr).bind hr hdone (fun n _ ts behind => ?_)
        (fun _ _ _ _ _ _ => trivial) fun _ _ _ _ _ _ => trivial
      simp [Form.derives_either, or_comm]
    exact hassertion.weaken fun _ h => beq_iff_eq.mpr (tokens_of_paragraph h)
  | command =>
    exact (reads_cmdDecl hr).weaken fun _ h hident =>
      tokens_of_paragraph h (beq_iff_eq.mp hident)
  | testSuite =>
    exact (reads_testSuiteDecl hr).weaken fun _ h =>
      (tokens_of_paragraph h).imp_left beq_iff_eq.mpr
  | testExpect => exact reads_testExpectDecl hr
  | exampleTest =>
    exact (reads_exampleDecl hr).weaken fun _ h => beq_iff_eq.mpr (tokens_of_paragraph h)
  | inst => exact (reads_instDecl hr).weaken fun _ h => beq_iff_eq.mpr (tokens_of_paragraph h)
  | option => exact (reads_optionDecl hr).weaken fun _ h => beq_iff_eq.mpr (tokens_of_paragraph h)
  | sexpr => exact reads_sexprDecl.weaken fun _ h => beq_iff_eq.mpr (tokens_of_paragraph h)

theorem begins_paragraphStart (start : ParagraphStart) :
    (Form.ofParagraph start).Begins fun _ => True := by
  have htoken : ∀ {ks}, (Form.token ks).Begins fun _ => True :=
    Form.begins_token fun _ _ => trivial
  cases start with
  | sig => exact .node (.appendRight (htoken.append _) _) _
  | assertion =>
    exact ((beginsWith_assertion true).mono fun _ _ => trivial).either
      ((beginsWith_assertion false).mono fun _ _ => trivial)
  | command => exact .node (.appendRight (htoken.append _) _) _
  | testExpect => exact .node (.appendRight (htoken.append _) _) _
  | sexpr => exact .node htoken _
  | _ => exact .node (htoken.append _) _

/-! ### Modules -/

/-- What a declaration begins with. -/
inductive Beginning where
  | lateModule | importing | eval | paragraph (start : ParagraphStart)

namespace Beginning

/-- What three tokens begin. -/
def ofTokens? (first second third : Option TokenKind) : Option Beginning :=
  match first with
  | some (.keyword .moduleKw) => some .lateModule
  | some (.keyword .openKw) => some .importing
  | some (.keyword .evalKw) => some .eval
  | _ => (ParagraphStart.ofTokens? first second third).map .paragraph

/-- The declaration behind a beginning. -/
def rule (seen : Seen) : Beginning → Rule Nonterminal Seen
  | .lateModule => do
    report .lateModule
    moduleDecl
    return seen
  | .importing => do
    when seen.paragraph (report .lateImport)
    importDecl
    return seen
  | .eval => do
    let mixes := seen.paragraph && !seen.mixed
    when mixes (report .evalAmongParagraphs)
    evalDecl
    return { seen with eval := true, mixed := seen.mixed || mixes }
  | .paragraph start => do
    let mixes := seen.eval && !seen.mixed
    when mixes (report .paragraphAfterEval)
    start.rule
    return { seen with paragraph := true, mixed := seen.mixed || mixes }

/-- What is read for what has been read behind the declaration. -/
def form (seen : Seen) (next : Seen) : Beginning → Form
  | .lateModule => .never
  | .importing => if seen.paragraph then .never else .yields seen Form.importDecl next
  | .eval =>
    if seen.paragraph then .never else .yields { seen with eval := true } Form.evalDecl next
  | .paragraph start =>
    if seen.eval then .never else .yields { seen with paragraph := true } (Form.ofParagraph start) next

end Beginning

theorem run_declaration {setting : Setting} {enter : Nonterminal → State → Bool × State}
    (seen : Seen) (s : State) : (declaration seen).run setting enter s =
      match Beginning.ofTokens? s.kinds[0]? s.kinds[1]? s.kinds[2]? with
      | some beginning => (beginning.rule seen).run setting enter s
      | none => (seen, s) := by
  rw [declaration, run_bind, run_peek, run_bind, run_peek, run_bind, run_peek, State.kindAt_eq,
    State.kindAt_eq, State.kindAt_eq]
  dsimp only
  generalize s.kinds[0]? = first
  generalize s.kinds[1]? = second
  generalize s.kinds[2]? = third
  split
  · rfl
  · rfl
  · rfl
  · next hmodule hopen heval =>
    have hnone : Beginning.ofTokens? first second third
        = (ParagraphStart.ofTokens? first second third).map .paragraph := by
      unfold Beginning.ofTokens?
      split
      · exact absurd rfl hmodule
      · exact absurd rfl hopen
      · exact absurd rfl heval
      · rfl
    rw [hnone]
    cases ParagraphStart.ofTokens? first second third <;> rfl

/-- A declaration with what is required of its place. -/
theorem reads_placed (hr : r.Faithful) (misplaced : Bool) (problem : Problem) (next : Seen)
    {f : Form} {rule : Rule Nonterminal Unit} (h : Reads r pre anyhow (fun _ => f) rule) :
    Reads r pre anyhow (fun after => if misplaced then .never else .yields next f after)
      (when misplaced (report problem) >>= fun _ => rule >>= fun _ => pure next) := by
  cases misplaced with
  | true => exact ((rejects_report hr _).bind hr _).reads
  | false =>
    have hread : Reads r pre anyhow (fun after => f ++ .yields next .nothing after)
        (rule >>= fun _ => pure next) := .then hr h (reads_pure next)
    refine (Reads.behindNothing hr reads_done hread).congr fun n after ts behind => ?_
    simp [Form.derives_yields]

namespace Beginning

/-- What is known of the tokens in front of a declaration. -/
def Opens (ks : List TokenKind) : Beginning → Prop
  | .lateModule => True
  | .importing => Form.at? (.keyword .openKw) ks = true
  | .eval => Form.at? (.keyword .evalKw) ks = true
  | .paragraph start => ParagraphStart.ofTokens? ks[0]? ks[1]? ks[2]? = some start

theorem opens {ks : List TokenKind} {beginning : Beginning}
    (h : ofTokens? ks[0]? ks[1]? ks[2]? = some beginning) : beginning.Opens ks := by
  unfold ofTokens? at h
  split at h
  · cases h
    trivial
  · next hopen =>
    cases h
    exact beq_iff_eq.mpr hopen
  · next heval =>
    cases h
    exact beq_iff_eq.mpr heval
  · obtain ⟨start, hstart, rfl⟩ := Option.map_eq_some_iff.mp h
    exact hstart

theorem reads_rule (hr : r.Faithful) {seen : Seen} (hseen : seen.mixed = false)
    (beginning : Beginning) :
    Reads r (fun ks => ofTokens? ks[0]? ks[1]? ks[2]? = some beginning) anyhow
      (beginning.form seen) (beginning.rule seen) := by
  obtain ⟨paragraph, eval, mixed⟩ := seen
  obtain rfl : mixed = false := hseen
  cases beginning with
  | lateModule => exact ((rejects_report hr _).bind hr _).reads
  | importing =>
    exact (reads_placed hr paragraph .lateImport _ (reads_importDecl hr)).weaken fun ks h =>
      (opens h : Opens ks .importing)
  | eval =>
    cases paragraph with
    | true => exact ((rejects_report hr _).bind hr _).reads
    | false =>
      exact (reads_placed hr false .evalAmongParagraphs _ (reads_evalDecl hr)).weaken fun ks h =>
        (opens h : Opens ks .eval)
  | paragraph start =>
    cases eval with
    | true => exact ((rejects_report hr _).bind hr _).reads
    | false =>
      exact (reads_placed hr false .paragraphAfterEval _ (reads_paragraphStart hr start)).weaken
        fun ks h => (opens h : Opens ks (.paragraph start))

end Beginning

/-- A declaration that may stand behind those that have been read, and what has been read behind
it. -/
def declared (seen next : Seen) : Form := .ahead fun ks =>
  match Beginning.ofTokens? ks[0]? ks[1]? ks[2]? with
  | some beginning => beginning.form seen next
  | none => .never

theorem Beginning.begins_form (beginning : Beginning) (seen next : Seen) :
    (beginning.form seen next).Begins fun _ => True := by
  have htoken : ∀ {ks}, (Form.token ks).Begins fun _ => True :=
    Form.begins_token fun _ _ => trivial
  have hplaced : ∀ {misplaced : Bool} {a : Seen} {f : Form}, f.Begins (fun _ => True) →
      Form.Begins (fun _ => True) (if misplaced then .never else .yields a f next) := by
    intro misplaced a f hf
    cases misplaced with
    | true => exact Form.begins_never
    | false => exact fun _ _ _ h => hf _ _ _ (Form.derives_yields.mp h).2
  cases beginning with
  | lateModule => exact Form.begins_never
  | importing => exact hplaced (.node (htoken.append _) _)
  | eval => exact hplaced (.node (htoken.append _) _)
  | paragraph start => exact hplaced (begins_paragraphStart start)

/-- One round of the declarations of a module. -/
def moduleRound (seen : Seen) (next : Seen × Bool) : Form :=
  if next.2 then declared seen next.1 else .yields seen (.look List.isEmpty) next.1

theorem run_moduleItem {setting : Setting} {enter : Nonterminal → State → Bool × State}
    {seen : Seen} {s : State} {beginning : Beginning}
    (h : Beginning.ofTokens? s.kinds[0]? s.kinds[1]? s.kinds[2]? = some beginning) :
    (moduleItem seen).run setting enter s =
      ((((beginning.rule seen).run setting enter s).1, true),
        ((when (!(((beginning.rule seen).run setting enter s).2.left != s.left)
          && !((beginning.rule seen).run setting enter s).2.kinds[0]?.isNone)
            (skipUntil .paragraph [])).run setting enter
              ((beginning.rule seen).run setting enter s).2).2) := by
  have hopen : ¬ s.kinds[0]?.isNone = true := by
    intro hended
    rw [Option.isNone_iff_eq_none.mp hended] at h
    cases h
  simp only [moduleItem, run_bind, run_atEnd, run_progress, run_pure, State.kindAt_eq,
    run_declaration, h, if_neg hopen]

theorem run_moduleItem_of_none {setting : Setting} {enter : Nonterminal → State → Bool × State}
    {seen : Seen} {s : State}
    (h : Beginning.ofTokens? s.kinds[0]? s.kinds[1]? s.kinds[2]? = none) :
    (moduleItem seen).run setting enter s =
      if s.kinds[0]?.isNone then ((seen, false), s)
      else ((seen, true), ((skipUntil .paragraph []).run setting enter s).2) := by
  simp only [moduleItem, run_bind, run_atEnd, run_ite, run_progress, run_pure, State.kindAt_eq,
    run_declaration, h]
  split
  · rfl
  · next hopen => simp [hopen]

theorem reads_moduleItem (hr : r.Faithful) {seen : Seen} (hseen : seen.mixed = false) :
    Reads r anything anyhow (moduleRound seen) (moduleItem seen) := by
  -- What a declaration takes is not empty, so nothing is skipped behind it.
  have hrest : ∀ {s t : State} {ts : List Tree} {beginning : Beginning} {next : Seen} {n behind},
      s.Ready → s.Reaches t → t.bare = s.bare ++ ts →
      (beginning.form seen next).Derives n ts behind →
      (!(t.left != s.left) && !t.kinds[0]?.isNone) = false := by
    intro s t ts beginning next n behind hs hreach hbare hts
    have hlt := hreach.left_lt hs hbare ((beginning.begins_form seen next).kinds_ne_nil hts)
    rw [show (t.left != s.left) = true by simpa using Nat.ne_of_lt hlt]
    rfl
  refine ⟨fun s hs _ hclean => ?_, fun s next ts behind hs ht _ hinput _ hts hpass => ?_⟩
  · cases hbeginning : Beginning.ofTokens? s.kinds[0]? s.kinds[1]? s.kinds[2]? with
    | none =>
      rw [run_moduleItem_of_none hbeginning] at hclean ⊢
      split at hclean
      · next hended =>
        rw [if_pos hended]
        refine ⟨[], (List.append_nil _).symm, Form.derives_yields.mpr ⟨rfl, ?_⟩⟩
        exact Form.derives_look.mpr ⟨rfl, by cases hks : s.kinds <;> simp_all⟩
      · exact absurd hclean (rejects_skipUntil hr _ _ s)
    | some beginning =>
      rw [run_moduleItem hbeginning] at hclean ⊢
      have hreach := reaches_run r.setting hr.steady (beginning.rule seen) s
      obtain ⟨ts, hbare, hts⟩ := (Beginning.reads_rule hr hseen beginning).sound s hs hbeginning
        ((reaches_run r.setting hr.steady (when _ (skipUntil .paragraph [])) _).reports_eq_nil
          hclean)
      rw [hreach.kinds_eq hs hbare] at hbeginning
      rw [hrest hs hreach hbare hts, run_when_false]
      refine ⟨ts, hbare, Form.derives_ahead.mpr ?_⟩
      dsimp only
      rw [hbeginning]
      exact hts
  · obtain ⟨next, more⟩ := next
    have hkinds : s.kinds = kinds ts ++ behind.map (·.1) := by
      rw [State.kinds_eq, hinput, List.map_append, kinds]
    cases more with
    | false =>
      obtain ⟨rfl, hlook⟩ := Form.derives_yields.mp hts
      obtain ⟨rfl, hended⟩ := Form.derives_look.mp hlook
      have hnil : s.kinds = [] := by rw [hkinds, List.isEmpty_iff.mp hended]; rfl
      rw [run_moduleItem_of_none (by rw [hnil]; rfl), hnil]
      exact ⟨rfl, .refl s⟩
    | true =>
      have hts := Form.derives_ahead.mp hts
      rw [← hkinds] at hts
      cases hbeginning : Beginning.ofTokens? s.kinds[0]? s.kinds[1]? s.kinds[2]? with
      | none =>
        rw [hbeginning] at hts
        exact absurd hts Form.not_derives_never
      | some beginning =>
        rw [hbeginning] at hts
        rw [run_moduleItem hbeginning] at hpass ⊢
        have hreach := reaches_run r.setting hr.steady (beginning.rule seen) s
        obtain ⟨hvalue, htook⟩ := (Beginning.reads_rule hr hseen beginning).complete s next ts behind
          hs ht hbeginning hinput trivial hts (hr.passes_of_suffix
            (reaches_run r.setting hr.steady (when _ (skipUntil .paragraph [])) _).reports hpass)
        rw [hrest hs hreach htook.bare hts]
        exact ⟨Prod.ext hvalue rfl, htook⟩

/-- Nothing has been misplaced, so evaluations stand alone. -/
def Seen.Orderly (seen : Seen) : Prop :=
  seen.mixed = false ∧ ¬ (seen.paragraph = true ∧ seen.eval = true)

/-- The declarations of a module up to the end of the text. -/
def untilEnd (seen : Seen) : Form := Form.declarations seen ++ .look List.isEmpty

theorem Beginning.ofTokens?_of_paragraph {first second third : Option TokenKind}
    {start : ParagraphStart} (h : ParagraphStart.ofTokens? first second third = some start) :
    ofTokens? first second third = some (.paragraph start) := by
  unfold ofTokens?
  split
  · cases h
  · cases h
  · cases h
  · rw [h]
    rfl

theorem derives_declared {n : Nat} {seen next : Seen} {ts : List Tree} {behind : List TokenKind} :
    (declared seen next).Derives n ts behind ↔
      (seen.paragraph = false ∧ next = seen ∧ Form.importDecl.Derives n ts behind) ∨
      (seen.paragraph = false ∧ next = { seen with eval := true } ∧
        Form.evalDecl.Derives n ts behind) ∨
      (seen.eval = false ∧ next = { seen with paragraph := true } ∧
        Form.paragraph.Derives n ts behind) := by
  have hplaced : ∀ {misplaced : Bool} {a : Seen} {f : Form},
      Form.Derives n (if misplaced then .never else .yields a f next) ts behind ↔
        misplaced = false ∧ next = a ∧ f.Derives n ts behind := by
    intro misplaced a f
    cases misplaced with
    | true => exact ⟨fun h => absurd h Form.not_derives_never, nofun⟩
    | false => simp [Form.derives_yields]
  have hfirst : ∀ {k f}, Form.BeginsWith k f → f.Derives n ts behind →
      (kinds ts ++ behind)[0]? = some k := fun hf hts => by
    obtain ⟨k, ks, hk, rfl⟩ := hf _ _ _ hts
    rw [hk]
    rfl
  rw [declared, Form.derives_ahead]
  constructor
  · intro hts
    cases hbeginning : Beginning.ofTokens? (kinds ts ++ behind)[0]? (kinds ts ++ behind)[1]?
        (kinds ts ++ behind)[2]? with
    | none =>
      rw [hbeginning] at hts
      exact absurd hts Form.not_derives_never
    | some beginning =>
      rw [hbeginning] at hts
      cases beginning with
      | lateModule => exact absurd hts Form.not_derives_never
      | importing => exact .inl (hplaced.mp hts)
      | eval => exact .inr (.inl (hplaced.mp hts))
      | paragraph start =>
        obtain ⟨heval, hnext, hts⟩ := hplaced.mp hts
        refine .inr (.inr ⟨heval, hnext, Form.derives_ahead.mpr ?_⟩)
        rw [(Beginning.opens hbeginning : Beginning.Opens _ (.paragraph start))]
        exact hts
  · rintro (⟨hseen, hnext, hts⟩ | ⟨hseen, hnext, hts⟩ | ⟨hseen, hnext, hts⟩)
    · rw [hfirst ((Form.beginsWith_token (.keyword .openKw)).append _ |>.node _) hts]
      exact hplaced.mpr ⟨hseen, hnext, hts⟩
    · rw [hfirst ((Form.beginsWith_token (.keyword .evalKw)).append _ |>.node _) hts]
      exact hplaced.mpr ⟨hseen, hnext, hts⟩
    · have hahead := Form.derives_ahead.mp hts
      split at hahead
      · next start hstart =>
        rw [Beginning.ofTokens?_of_paragraph hstart]
        exact hplaced.mpr ⟨hseen, hnext, hahead⟩
      · exact absurd hahead Form.not_derives_never

/-- A declaration and those behind it. -/
theorem derives_declared_append {n : Nat} {seen : Seen} {ts : List Tree}
    {behind : List TokenKind} :
    (∃ next, (declared seen next ++ untilEnd next).Derives n ts behind) ↔
      (seen.paragraph = false ∧ (Form.importDecl ++ untilEnd seen).Derives n ts behind) ∨
      (seen.paragraph = false ∧
        (Form.evalDecl ++ untilEnd { seen with eval := true }).Derives n ts behind) ∨
      (seen.eval = false ∧
        (Form.paragraph ++ untilEnd { seen with paragraph := true }).Derives n ts behind) := by
  simp only [Form.derives_append, derives_declared]
  constructor
  · rintro ⟨next, us, vs, rfl, ⟨hseen, rfl, hus⟩ | ⟨hseen, rfl, hus⟩ | ⟨hseen, rfl, hus⟩, hvs⟩
    · exact .inl ⟨hseen, us, vs, rfl, hus, hvs⟩
    · exact .inr (.inl ⟨hseen, us, vs, rfl, hus, hvs⟩)
    · exact .inr (.inr ⟨hseen, us, vs, rfl, hus, hvs⟩)
  · rintro (⟨hseen, us, vs, rfl, hus, hvs⟩ | ⟨hseen, us, vs, rfl, hus, hvs⟩ |
      ⟨hseen, us, vs, rfl, hus, hvs⟩)
    · exact ⟨_, us, vs, rfl, .inl ⟨hseen, rfl, hus⟩, hvs⟩
    · exact ⟨_, us, vs, rfl, .inr (.inl ⟨hseen, rfl, hus⟩), hvs⟩
    · exact ⟨_, us, vs, rfl, .inr (.inr ⟨hseen, rfl, hus⟩), hvs⟩

theorem derives_untilEnd {n : Nat} {seen : Seen} (hseen : seen.Orderly) {ts : List Tree}
    {behind : List TokenKind} : (untilEnd seen).Derives n ts behind ↔
      (Form.look List.isEmpty).Derives n ts behind ∨
        ∃ next, (declared seen next ++ untilEnd next).Derives n ts behind := by
  rw [derives_declared_append]
  obtain ⟨paragraph, eval, mixed⟩ := seen
  obtain ⟨rfl, halone⟩ := hseen
  cases paragraph with
  | true =>
    obtain rfl : eval = false := by simpa using halone
    simp only [Bool.true_eq_false, false_and, false_or, true_and]
    exact Form.derives_many_append
  | false =>
    cases eval with
    | true =>
      simp only [Bool.true_eq_false, false_and, or_false, true_and]
      exact Form.derives_many_append.trans (or_congr_right Form.derives_either_append)
    | false =>
      simp only [true_and]
      have hparagraphs : ∀ {us}, (Form.many Form.paragraph ++ .look List.isEmpty).Derives n us behind
          ↔ (Form.look List.isEmpty).Derives n us behind
            ∨ (Form.paragraph ++ untilEnd { paragraph := true }).Derives n us behind :=
        Form.derives_many_append
      have hevals : ∀ {us}, ((Form.evalDecl ++ .many (.either Form.importDecl Form.evalDecl))
          ++ .look List.isEmpty : Form).Derives n us behind
          ↔ (Form.evalDecl ++ untilEnd { eval := true }).Derives n us behind :=
        Form.derives_append_assoc
      have himports : ∀ {us}, (untilEnd {}).Derives n us behind ↔ (Form.many Form.importDecl
          ++ (.either (.many Form.paragraph)
            (Form.evalDecl ++ .many (.either Form.importDecl Form.evalDecl))
              ++ .look List.isEmpty) : Form).Derives n us behind :=
        Form.derives_append_assoc
      rw [himports, Form.derives_many_append, Form.derives_either_append, hparagraphs, hevals,
        Form.derives_append_congr himports.symm, or_assoc, or_assoc]
      exact or_congr_right (or_comm.trans ((or_congr_left or_comm).trans or_assoc))

theorem orderly_of_declared {n : Nat} {seen next : Seen} (hseen : seen.Orderly) {ts : List Tree}
    {behind : List TokenKind} (h : (declared seen next).Derives n ts behind) : next.Orderly := by
  obtain ⟨hmixed, halone⟩ := hseen
  obtain ⟨-, rfl, -⟩ | ⟨hparagraph, rfl, -⟩ | ⟨heval, rfl, -⟩ := derives_declared.mp h
  · exact ⟨hmixed, halone⟩
  · exact ⟨hmixed, by simp [hparagraph]⟩
  · exact ⟨hmixed, by simp [heval]⟩

theorem reads_declarations (hr : r.Faithful) :
    Reads r anything anyhow (fun _ => untilEnd {}) (ignore (loop {} moduleItem)) := by
  refine reads_loop_view hr (advancing_moduleItem hr.steady) (I := Seen.Orderly) (fun _ => ())
    (f := moduleRound) (g := fun seen _ => untilEnd seen)
    (fun seen hseen => (reads_moduleItem hr hseen.1).ofAnyhow)
    (fun seen next n ts behind hseen h => orderly_of_declared hseen h)
    (fun seen _ n ts behind hseen => ?_) ⟨rfl, by simp⟩
  have hlast : (Form.look List.isEmpty).Derives n ts behind ↔
      ∃ next, () = () ∧ (moduleRound seen (next, false)).Derives n ts behind := by
    simp [moduleRound, Form.derives_yields]
  exact (derives_untilEnd hseen).trans (or_congr_left hlast)

theorem reads_sourceFile (hr : r.Faithful) :
    Reads r anything anyhow (fun _ => Form.sourceFile) sourceFile := by
  refine (looks_currentIs _).whenThen hr ((reads_moduleDecl hr).weaken fun _ hp => hp.2)
    (reads_declarations hr)

theorem reads_exprRoot (hr : r.Faithful) :
    Reads r pre anyhow (fun _ => Form.exprRoot) exprRoot := by
  have hrest : Reads r anything anyhow (fun _ => .given List.isEmpty .nothing .never) (do
      let ended ← atEnd
      when (!ended) do
        report .afterExpression
        node .error <| repeated do
          let ended ← atEnd
          when (!ended) bump
          return !ended) :=
    looks_atEnd.branch hr reads_done ((rejects_report hr _).bind hr _).reads
  exact .within (.then hr (reads_expr hr) hrest) _

end RelLang.Grammar
