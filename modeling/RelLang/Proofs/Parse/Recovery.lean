import Mathlib
import RelLang.Proofs.Grammar.Operand
import RelLang.Proofs.Parse.Skipped
import RelLang.Proofs.Rule.Frame

/-!
# Recovery spares paragraphs

What is skipped of a module never reaches into the next paragraph. Every rule below the list of
declarations looks whether the current token is a recovery point before it skips it. Two places
have another reason to take a token: text that is nested too deeply is skipped as a group, and
the list of declarations has to take what no declaration begins with. Of the tokens that can
begin a paragraph, that is only a `test` that nothing to be tested follows.
-/

namespace RelLang

/-- What the grammar sees behind the first token taken is what it saw behind the current one. -/
theorem State.Reaches.nextKind_behind_first {s t : State} (hr : s.Reaches t) (hs : s.Valid)
    (hempty : s.siblings = []) (hpending : s.pending = []) {w : Word} {ws : List Word}
    (hw : s.words = w :: ws) {first : TokenKind × String} {others : List (TokenKind × String)}
    (hleaves : Tree.leavesAll t.siblings.reverse = first :: others) :
    nextKind (others ++ t.rest.map Token.toPair) = s.kindAt 1 := by
  have hrest : s.rest = w.token :: s.bump.rest := by
    rw [State.bump_of_words_eq_cons hw, State.rest, hpending, hw, Word.tokens_cons]
    rfl
  have hkept := hr.leaves
  rw [State.leaves, State.leaves, hleaves, hempty, hrest] at hkept
  have hbehind : others ++ t.rest.map Token.toPair = s.bump.rest.map Token.toPair :=
    (List.cons.inj hkept).2
  rw [hbehind, State.nextKind_rest ((State.reaches_bump s).valid hs), State.kindAt_bump]

namespace Grammar

open Rule

section

variable {ν : Type} {setting : Setting} {enter : ν → State → Bool × State}

/-- What is nested too deeply is skipped from where that is reported on. -/
theorem spares_skipNested (henter : Steady enter) (hfull : setting.maxDiagnostics = none)
    {s : State} (hs : s.Valid) (h : s.Spares setting) {kind : TokenKind}
    (hk : s.kindAt 0 = some kind) (hcloser : kind.isCloser = false) :
    ((skipNested : Rule ν Unit).run setting enter s).2.Spares setting := by
  rw [skipNested_eq, run_bind, run_report]
  have hvalid := (State.reaches_report setting .tooDeep s).valid hs
  have hI := invariant_spares setting
  have hreported := hI.report .tooDeep h
  have hkind : (s.report setting .tooDeep).kindAt 0 = some kind := by
    rw [kindAt_congr (State.report_words setting .tooDeep s), hk]
  refine spares_errorNode henter (hI.elementary henter (elementary_nestedText _)) hvalid hreported
    rfl fun _ => .inr ?_
  have hreach := reaches_run setting henter nestedText
    { (s.report setting .tooDeep).attachPending with siblings := [] }
  have htakes : TakesFrom setting enter (s.report setting .tooDeep) nestedText :=
    takesFrom_nestedText henter hkind hcloser
  obtain ⟨r, hr, hproblem, hrange⟩ := kept_report hfull .tooDeep s
  refine ⟨r, hreach.reports.subset hr, hproblem, ?_⟩
  rw [hrange]
  exact hreach.beginsAt hvalid.opened (hI.opened hreported).placed rfl rfl
    (htakes _ hvalid.opened rfl)

end

variable {setting : Setting} {enter : Nonterminal → State → Bool × State}

/-! ### Rules below the declarations -/

/-- Guarded rules spare every paragraph, if their calls do. -/
theorem Guarded.spares (henter : Steady enter)
    (hcalls : MaintainingCalls (State.Spares setting) enter) {clear : Bool} {α : Type}
    {rule : Rule Nonterminal α} (h : Guarded clear rule) {s : State} (hs : s.Valid)
    (hspares : s.Spares setting) (hclear : clear = true → s.Clear) :
    (rule.run setting enter s).2.Spares setting := by
  have hI := invariant_spares setting
  induction h generalizing s with
  | elementary hrule => exact hI.elementary henter hrule s hs hspares
  | ahead test => exact hspares
  | requireTemporal => exact hI.requireTemporal s hs hspares
  | @andThen clear _ _ first next _ _ hfirst hnext =>
    exact hnext _ (valid_run setting henter first hs) (hfirst hs hspares hclear) nofun
  | @look clear _ _ test next clears _ hclears _ hnext =>
    have hlook := hclears setting enter s
    rw [run_andThen, hlook.1]
    refine hnext _ hs hspares fun hknown => ?_
    rcases (Bool.or_eq_true _ _).mp hknown with hyields | hknown
    · exact hlook.2 hyields hspares.top
    · exact hclear hknown
  | node hkind _ hbody =>
    exact hI.node henter hkind (fun s hs h => hbody hs h nofun) s hs hspares
  | group _ hbody => exact hI.group henter (fun s hs h => hbody hs h nofun) s hs hspares
  | enclose hkind _ hbody => exact hI.enclose hkind (fun s hs h => hbody hs h nofun) s hs hspares
  | within context _ hbody =>
    exact hI.within henter context (fun s hs h => hbody hs h nofun) s hs hspares
  | loop a _ hbody =>
    exact Maintains.loop henter (fun _ h => hI.stall h) a (fun a s hs h => hbody a hs h nofun) s hs
      hspares
  | opener _ _ hnext => exact hnext _ hs hspares nofun
  | skipToken hknown _ => exact spares_skipToken henter _ hs hspares (hclear hknown)
  | skipUntil stops hknown _ => exact spares_skipUntil henter _ stops hs hspares (hclear hknown)
  | items closer _ _ _ hitem =>
    exact sparing_items henter closer _ (fun s hs h => hitem hs h nofun) s hs hspares
  | expression level => exact hcalls.1 level s hs hspares
  | boundValue => exact maintains_boundValue hI henter hcalls s hs hspares
  | optionDecl => exact maintains_optionDecl hI henter s hs hspares

theorem Guarded.sparing (henter : Steady enter)
    (hcalls : MaintainingCalls (State.Spares setting) enter) {α : Type}
    {rule : Rule Nonterminal α} (h : Guarded false rule) :
    Sparing setting (rule.run setting enter) :=
  fun _ hs hspares => h.spares henter hcalls hs hspares nofun

/-- Whatever is read, every paragraph is spared, however deep it is nested. -/
theorem sparing_enter (hfull : setting.maxDiagnostics = none) (levels : Nat) :
    MaintainingCalls (State.Spares setting) (language.enter setting levels) :=
  maintainingCalls_enter
    (fun _ _ _ hs h hk hcloser => spares_skipNested (steady_of_empty _) hfull hs h hk hcloser)
    (fun _ henter hcalls => .ofForall fun symbol => (guarded_body symbol).sparing henter hcalls)
    levels

/-! ### Declarations -/

/-- Of the tokens that can begin a paragraph, only `test` may begin none: nothing to be tested
follows it then. -/
theorem eq_test_of_not_starts {k : TokenKind} {second third : Option TokenKind}
    (h : startsDeclaration (some k) second third = false) (hk : k ∈ Context.paragraphStarts) :
    k = .keyword .testKw ∧ second ≠ some (.keyword .suiteKw) ∧
      second ≠ some (.keyword .expectKw) := by
  have hstarts : ∀ k ∈ Context.paragraphStarts, k ≠ .keyword .testKw →
      startsDeclaration (some k) second third = true := by
    simp [Context.paragraphStarts, startsDeclaration, ParagraphStart.ofTokens?]
  by_cases htest : k = .keyword .testKw
  · subst htest
    refine ⟨rfl, ?_, ?_⟩ <;> rintro rfl <;> cases h
  · rw [hstarts k hk htest] at h
    cases h

theorem framed_declaration (seen : Seen) : Framed setting enter (declaration seen) := by
  refine .bind (.peek 0) fun first => .bind (.peek 1) fun second => .bind (.peek 2) fun third => ?_
  split
  · exact .bind (.report _) fun _ => .bind (.node _ _) fun _ => .pure _
  · exact .bind (.when (.report _)) fun _ => .bind (.node _ _) fun _ => .pure _
  · exact .bind (.when (.report _)) fun _ => .bind (.node _ _) fun _ => .pure _
  · split
    · next form _ =>
      have hform : Framed setting enter form.rule := by
        cases form with
        | assertion => exact .ignore (.group _)
        | _ => exact .node _ _
      exact .bind (.when (.report _)) fun _ => .bind hform fun _ => .pure _
    · exact .pure _

/-! ### The list of declarations -/

/-- Skipped text that begins with a `test` that nothing to be tested follows, with no other
beginning of a paragraph in it. -/
def StrayTest (children : List Tree) (behind : List (TokenKind × String)) : Prop :=
  ∃ text others, Tree.leavesAll children = (.keyword .testKw, text) :: others ∧ NoStart others ∧
    nextKind (others ++ behind) ≠ some (.keyword .suiteKw) ∧
    nextKind (others ++ behind) ≠ some (.keyword .expectKw)

/-- The one beginning of a paragraph in a stray `test` is that `test`. -/
theorem StrayTest.eq_nil_of_start {children : List Tree} {behind : List (TokenKind × String)}
    (h : StrayTest children behind) {front back : List (TokenKind × String)}
    {leaf : TokenKind × String} (hleaves : Tree.leavesAll children = front ++ leaf :: back)
    (hstart : leaf.1 ∈ Context.paragraphStarts) : front = [] := by
  obtain ⟨_, others, htest, hclear, -, -⟩ := h
  cases front with
  | nil => rfl
  | cons _ front =>
    obtain ⟨-, hothers⟩ := List.cons.inj (htest.symm.trans hleaves)
    exact absurd hstart (hclear leaf (hothers ▸ List.mem_append_right _ List.mem_cons_self))

/-- Where a beginning of a paragraph stands in skipped text that is spared, nesting was reported to
be too deep at the first token of that text. -/
theorem beginsAt_of_spared {stop : Nat} {reports : List Report} {children : List Tree}
    {behind : List (TokenKind × String)} (h : Spared stop reports .error children behind)
    {leaf : TokenKind × String} (hleaf : leaf ∈ Tree.leavesAll children)
    (hstart : leaf.1 ∈ Context.paragraphStarts) :
    ∃ r ∈ reports, r.problem = .tooDeep ∧ BeginsAt stop r.range children behind :=
  (h rfl).resolve_left fun hclear => hclear leaf hleaf hstart

/-- A node beside the declarations of a module is spared, or it is a stray `test`. -/
def SparedOrTest (stop : Nat) (reports : List Report) (kind : NodeKind) (children : List Tree)
    (behind : List (TokenKind × String)) : Prop :=
  Spared stop reports kind children behind ∨ StrayTest children behind

/-- Among the declarations of a module: stray tests are allowed there, but not below. -/
structure AmongDeclarations (setting : Setting) (s : State) : Prop where
  placed : ∀ {t us}, t :: us <:+ s.rest → t.start + Token.size (t :: us) = setting.stop
  top : .topLevel ∈ s.contexts
  atop : Tree.AtopAll (SparedOrTest setting.stop s.reports) (Spared setting.stop s.reports)
    s.siblings.reverse (s.rest.map Token.toPair)

namespace AmongDeclarations

variable {s t : State}

/-- Trees that are added leave the others as they were. -/
theorem add (h : AmongDeclarations setting s) {added : List Tree} (hr : s.Reaches t)
    (ht : t.siblings = added ++ s.siblings)
    (hadded : Tree.AtopAll (SparedOrTest setting.stop t.reports) (Spared setting.stop t.reports)
      added.reverse (t.rest.map Token.toPair)) : AmongDeclarations setting t where
  placed hus := h.placed (hus.trans hr.rest)
  top := hr.contexts ▸ h.top
  atop := by
    have hleaves := hr.leaves
    rw [State.leaves, State.leaves, ht, List.reverse_append, Tree.leavesAll_append,
      List.append_assoc] at hleaves
    rw [ht, List.reverse_append, Tree.atopAll_append]
    refine ⟨?_, hadded⟩
    rw [List.append_cancel_left hleaves]
    exact h.atop.mono (fun _ _ _ hheld => hheld.imp_left fun h => h.mono hr.reports.subset)
      fun _ _ _ hspared => hspared.mono hr.reports.subset

theorem attachPending (h : AmongDeclarations setting s) :
    AmongDeclarations setting s.attachPending := by
  refine h.add (State.reaches_attachPending s) rfl ?_
  rw [List.reverse_reverse]
  exact (State.spared_skipped _ _).atopAll fun _ _ _ => .inl

/-- What is made with no trees in front. -/
theorem spares (h : AmongDeclarations setting s) :
    State.Spares setting { s with siblings := [] } :=
  ⟨h.placed, h.top, State.sound_of_siblings_eq_nil rfl⟩

/-- A rule that spares every paragraph behind no trees may stand among declarations. -/
theorem run_framed (henter : Steady enter) {α : Type} {rule : Rule Nonterminal α}
    (hframed : Framed setting enter rule) (hsparing : Sparing setting (rule.run setting enter))
    (hs : s.Valid) (h : AmongDeclarations setting s) :
    AmongDeclarations setting (rule.run setting enter s).2 := by
  have hreaches := reaches_run setting henter rule s
  have hspares := hsparing { s with siblings := [] } (hs.of_eq rfl rfl rfl) h.spares
  rw [hframed s] at hreaches ⊢
  exact h.add hreaches rfl (hspares.sound.all.atopAll fun _ _ _ => .inl)

/-- What the list of declarations skips begins no paragraph, or with a stray `test`. -/
theorem skipUntil (henter : Steady enter) (problem : Problem) (stops : List TokenKind)
    (hs : s.Valid) (h : AmongDeclarations setting s)
    (hstarts : startsDeclaration (s.kindAt 0) (s.kindAt 1) (s.kindAt 2) = false) :
    AmongDeclarations setting ((Rule.skipUntil problem stops).run setting enter s).2 := by
  have hvalid := (State.reaches_report setting problem s).valid hs
  have hreported : AmongDeclarations setting (s.report setting problem) :=
    run_framed henter (.report problem) (fun _ _ h => (invariant_spares setting).report problem h)
      hs h
  rw [skipUntil_eq, run_skip, run_node]
  split
  · exact hreported
  · next hsome =>
    obtain ⟨w, ws, hw⟩ := List.exists_cons_of_ne_nil hsome
    have hwords := (State.report_words setting problem s).trans hw
    have hreach := reaches_run setting henter (skippedText stops)
      { (s.report setting problem).attachPending with siblings := [] }
    obtain ⟨-, others, hleaves, hothers⟩ := skips_skippedText henter stops _ w ws hvalid.opened
      hreported.top rfl rfl hwords
    have hbelow := (invariant_spares setting).elementary henter (elementary_skippedText _ stops)
      _ hvalid.opened hreported.attachPending.spares
    refine hreported.attachPending.add ((hreach.wrap .error).behind _)
      (show _ = [Tree.node .error _] ++ _ from rfl) ⟨⟨?_, hbelow.sound.all⟩, trivial⟩
    have hkind : s.kindAt 0 = some w.token.kind := by rw [State.kindAt, hw]; rfl
    by_cases hstart : w.token.kind ∈ Context.paragraphStarts
    · rw [hkind] at hstarts
      obtain ⟨htest, hsuite, hexpect⟩ := eq_test_of_not_starts hstarts hstart
      have hnext := (hreach.nextKind_behind_first hvalid.opened rfl rfl hwords hleaves).trans
        (kindAt_congr (State.report_words setting problem s) 1)
      have hfirst : w.token.toPair = (.keyword .testKw, w.token.text) := by rw [← htest]; rfl
      exact .inr ⟨w.token.text, others, hfirst ▸ hleaves, hothers,
        fun h => hsuite (hnext.symm.trans h), fun h => hexpect (hnext.symm.trans h)⟩
    · refine .inl fun _ => .inl ?_
      rw [hleaves]
      intro l hl
      rcases List.mem_cons.mp hl with rfl | hl
      · exact hstart
      · exact hothers l hl

end AmongDeclarations

/-- A round of the list of declarations reads one, or skips what none begins with. -/
theorem maintains_moduleItem (henter : Steady enter)
    (hcalls : MaintainingCalls (State.Spares setting) enter) (seen : Seen) :
    Maintains (AmongDeclarations setting) ((moduleItem seen).run setting enter) := by
  intro s hs h
  have hdeclaration : Sparing setting ((declaration seen).run setting enter) :=
    (guarded_declaration seen).sparing henter hcalls
  simp only [moduleItem, run_bind, run_atEnd, run_ite, run_pure, run_progress, run_when]
  split
  · exact h
  cases hstarts : startsDeclaration (s.kindAt 0) (s.kindAt 1) (s.kindAt 2) with
  | true =>
    have htakes : TakesFrom setting enter s (declaration seen) :=
      takesFrom_declaration henter seen hstarts
    rw [if_neg (by simp [Nat.ne_of_lt (htakes s hs rfl)])]
    exact h.run_framed henter (framed_declaration seen) hdeclaration hs
  | false =>
    rw [run_declaration_of_not_starts seen hstarts]
    split
    · exact h.skipUntil henter _ _ hs hstarts
    · exact h

theorem maintains_sourceFile (henter : Steady enter)
    (hcalls : MaintainingCalls (State.Spares setting) enter) :
    Maintains (AmongDeclarations setting) (sourceFile.run setting enter) := by
  have hmodule : Sparing setting (moduleDecl.run setting enter) :=
    guarded_moduleDecl.sparing henter hcalls
  refine .bind henter (.ofLooking fun _ => rfl) fun _ => .bind henter (.when fun s hs h => ?_)
    fun _ => .ignore henter <| .loop henter (fun s h => ⟨h.placed, h.top, h.atop⟩) _
      (maintains_moduleItem henter hcalls)
  exact h.run_framed henter (.node _ _) hmodule hs

end Grammar

/-! ### Whole readings -/

namespace Parse

open Grammar

theorem amongDeclarations_final {config : ParseConfig} (hfull : config.maxDiagnostics = none)
    {tokens : List Token} (htokens : Token.Placed 0 tokens) :
    AmongDeclarations (setting config tokens) (final config .wholeModule tokens) := by
  have henter := Grammar.language.steady_enter (setting config tokens) nestingLimit
  have hstart : AmongDeclarations (setting config tokens) (start config tokens) := by
    obtain ⟨_, hstart⟩ := start_eq config tokens
    refine ⟨(flags_start hfull htokens).placed, ?_, ?_⟩ <;> rw [hstart]
    · exact List.mem_cons_self
    · trivial
  exact (maintains_sourceFile henter (sparing_enter hfull nestingLimit) _
    (valid_start config tokens) hstart).attachPending

/-- A node of skipped text in the tree of a module stands between tokens; it is spared, or it is a
stray test directly below the root. -/
theorem skipped_of_amongDeclarations {setting : Setting} {s : State}
    (h : AmongDeclarations setting s) (hrest : s.rest = []) {n : Located}
    (hn : n ∈ Located.nodesOf 0 [] (.node .sourceFile s.siblings.reverse))
    (hkind : n.kind = .error) :
    ∃ front back, Tree.leavesAll s.siblings.reverse = front ++ n.tree.leaves ++ back ∧
      n.start = Tree.bytes front ∧
      (Spared setting.stop s.reports .error n.children back ∨
        n ∈ Located.nodesIn 0 [] s.siblings.reverse ∧ StrayTest n.children back) := by
  have hatop := h.atop
  rw [hrest, List.map_nil] at hatop
  rcases List.mem_cons.mp hn with rfl | hn
  · cases hkind
  obtain ⟨front, back, hsplit, hstart, hheld⟩ := Located.atop_of_mem_allNodesOf hatop hn
  rw [List.append_nil] at hsplit
  rw [Nat.zero_add] at hstart
  refine ⟨front, back, hsplit, hstart, ?_⟩
  rw [hkind] at hheld
  rcases hheld with hspared | ⟨hbelow, hspared | hstray⟩
  · exact .inl hspared
  · exact .inl hspared
  · exact .inr ⟨hbelow, hstray⟩

/-- Recovery spares paragraphs. For every text of a module, if no diagnostics are dropped: a token
in a node of skipped text can begin a paragraph only if that node begins at a token where nesting
was reported to be too deep, or if it is a `test` with neither `suite` nor `expect` behind it that
begins a node directly below the root. -/
theorem recovery_spares_paragraphs (mode : TemporalMode) (text : String) :
    let p := ofText { temporal := mode } .wholeModule text
    ∀ n ∈ Located.nodesOf 0 [] p.tree, n.kind = .error →
      ∀ front token back, n.tree.leaves = front ++ token :: back →
        token.1 ∈ Context.paragraphStarts →
        ∃ (before : List Token) (t : Token) (behind : List Token),
          tokenize text = before ++ t :: behind ∧ n.start = t.start ∧
          n.tree.leaves.head? = some t.toPair ∧
          ((∃ d ∈ p.errors, d.code = .tooDeep ∧ d.range = t.range) ∨
            (front = [] ∧ t.kind = .keyword .testKw ∧
              (∃ root, Located.root? p.tree = some root ∧ root.kind = .sourceFile ∧
                n ∈ root.childNodes) ∧
              ∀ next, behind.find? (·.kind.isSignificant) = some next →
                next.kind ≠ .keyword .suiteKw ∧ next.kind ≠ .keyword .expectKw)) := by
  intro p n hn hkind front token back hnode hstart
  have hfinal : AmongDeclarations (setting { temporal := mode } (tokenize text))
      (final { temporal := mode } .wholeModule (tokenize text)) :=
    amongDeclarations_final rfl (placed_tokenize text)
  have hrest := rest_final { temporal := mode } .wholeModule (tokenize text)
  have htree : p.tree = _ := tree_ofTokens { temporal := mode } .wholeModule (tokenize text)
  have hreports : p.reports = _ :=
    reports_ofTokens { temporal := mode } .wholeModule (tokenize text)
  have hleaves : p.tree.leaves = _ :=
    leaves_ofTokens { temporal := mode } .wholeModule (tokenize text)
  -- from here on the reading is only its tree and its reports
  clear_value p
  generalize final { temporal := mode } .wholeModule (tokenize text) = s
    at hfinal hrest htree hreports
  rw [htree] at hn hleaves
  obtain ⟨ahead, after, hsplit, hplaced, hheld⟩ :=
    skipped_of_amongDeclarations hfinal hrest hn hkind
  obtain ⟨first, others, hfirst⟩ : ∃ first others, n.tree.leaves = first :: others :=
    List.exists_cons_of_ne_nil (by simp [hnode])
  rw [hfirst] at hsplit
  obtain ⟨before, t, behind, htext, hplace, rfl, hbehind, htoken⟩ :=
    exists_first_token (hleaves.symm.trans hsplit)
  refine ⟨before, t, behind, htext, hplaced.trans hplace, by rw [hfirst]; rfl, ?_⟩
  have hchildren : Tree.leavesAll n.children = t.toPair :: others := hfirst
  rcases hheld with hspared | ⟨hbelow, hstray⟩
  · have hmem : token ∈ Tree.leavesAll n.children := by
      rw [hchildren, ← hfirst, hnode]
      exact List.mem_append_right _ List.mem_cons_self
    obtain ⟨r, hr, hproblem, first, others', hblamed, hrange⟩ :=
      beginsAt_of_spared hspared hmem hstart
    obtain ⟨rfl, rfl⟩ := List.cons.inj (hchildren.symm.trans hblamed)
    refine .inl ⟨r.toDiagnostic, mem_errors.mpr ⟨r, ?_, rfl⟩, ?_, hrange.trans htoken⟩
    · rw [hreports]
      exact List.mem_reverse.mpr hr
    · show r.problem.code = .tooDeep
      rw [hproblem]
      rfl
  · have halone : front = [] := hstray.eq_nil_of_start hnode hstart
    obtain ⟨text, others', htest, -, hsuite, hexpect⟩ := hstray
    obtain ⟨htoken, rfl⟩ := List.cons.inj (hchildren.symm.trans htest)
    have hkind : t.kind = .keyword .testKw := congrArg Prod.fst htoken
    have hnext : (behind.find? (·.kind.isSignificant)).map (·.kind)
        = nextKind (others ++ after) := by
      rw [← hbehind, nextKind_map]
    refine .inr ⟨halone, hkind,
      ⟨⟨.sourceFile, s.siblings.reverse, 0, []⟩, by rw [htree]; rfl, rfl, hbelow⟩,
      fun next hfound => ?_⟩
    rw [hfound, Option.map_some] at hnext
    exact ⟨fun h => hsuite (by rw [← hnext, h]), fun h => hexpect (by rw [← hnext, h])⟩

/-- In `test open a` the `test` is skipped alone: nothing to be tested follows it, and the import
behind it is read. -/
theorem test_skipped_before_import :
    ∃ n ∈ Located.nodesOf 0 [] (ofText { temporal := .enabled } .wholeModule "test open a").tree,
      n.kind = .error ∧ n.tree.leaves = [] ++ (.keyword .testKw, "test") :: [] ∧
      ∃ (before : List Token) (t : Token) (behind : List Token),
        tokenize "test open a" = before ++ t :: behind ∧ n.start = t.start ∧
        n.tree.leaves.head? = some t.toPair ∧
        ((∃ d ∈ (ofText { temporal := .enabled } .wholeModule "test open a").errors,
            d.code = .tooDeep ∧ d.range = t.range) ∨
          (([] : List (TokenKind × String)) = [] ∧ t.kind = .keyword .testKw ∧
            (∃ root, Located.root?
                (ofText { temporal := .enabled } .wholeModule "test open a").tree = some root ∧
              root.kind = .sourceFile ∧ n ∈ root.childNodes) ∧
            ∀ next, behind.find? (·.kind.isSignificant) = some next →
              next.kind ≠ .keyword .suiteKw ∧ next.kind ≠ .keyword .expectKw)) := by
  let n : Located := ⟨.error, [.token (.keyword .testKw) "test"], 0, []⟩
  have htree : ∃ children, (ofText { temporal := .enabled } .wholeModule "test open a").tree
      = .node .sourceFile (n.tree :: children) :=
    ⟨[.token .whitespace " ", .node .importDecl [.token (.keyword .openKw) "open",
      .token .whitespace " ", .node .qualName [.token .ident "a"]]], by rw [ofText_eq]; rfl⟩
  have hn : n ∈ Located.nodesOf 0 []
      (ofText { temporal := .enabled } .wholeModule "test open a").tree := by
    obtain ⟨children, htree⟩ := htree
    rw [htree]
    exact List.mem_cons_of_mem _ (List.mem_append_left _ List.mem_cons_self)
  exact ⟨n, hn, rfl, rfl,
    recovery_spares_paragraphs .enabled "test open a" n hn rfl [] _ [] rfl (by decide)⟩

end Parse
end RelLang
