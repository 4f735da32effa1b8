import RelLang.Proofs.Grammar.Decide
import RelLang.Proofs.Grammar.Ending
import RelLang.Proofs.Grammar.Tell
import RelLang.Proofs.Rule.Bare
import RelLang.Proofs.Rule.Build
import RelLang.View.Category

/-!
# The parts of a module

One round of a module adds one node: a declaration, or skipped text. What has been read so far is
told by the nodes alone, and so is what a round says about the place of the node that it adds.
-/

namespace RelLang

/-- A paragraph that is no evaluation. -/
def NodeKind.isPlainParagraph (kind : NodeKind) : Bool :=
  Category.paragraph.admits kind && kind != .evalDecl

/-- What a module is made of: its declarations, and text that is none. -/
def NodeKind.isModulePart (kind : NodeKind) : Bool :=
  kind == .moduleDecl || kind == .importDecl || Category.paragraph.admits kind || kind == .error

theorem NodeKind.isModulePart_of_isPlainParagraph {kind : NodeKind}
    (h : kind.isPlainParagraph = true) : kind.isModulePart = true := by
  simp_all [isPlainParagraph, isModulePart]

namespace Tree

/-- A paragraph that is no evaluation. -/
def isPlainParagraph : Tree → Bool
  | .token .. => false
  | .node kind _ => kind.isPlainParagraph

def isEval : Tree → Bool
  | .token .. => false
  | .node kind _ => kind == .evalDecl

/-- A part of a module, or trivia between the parts. -/
def isModulePart : Tree → Bool
  | .token kind _ => kind.isTrivia
  | .node kind _ => kind.isModulePart

end Tree

namespace Grammar

open Rule

/-- What has been read of a module, told by its trees. -/
def Seen.ofTrees (ts : List Tree) : Seen where
  paragraph := ts.any Tree.isPlainParagraph
  eval := ts.any Tree.isEval
  mixed := ts.any Tree.isPlainParagraph && ts.any Tree.isEval

theorem Seen.ofTrees_other {kind : NodeKind} (hplain : kind.isPlainParagraph = false)
    (heval : (kind == .evalDecl) = false) (before children : List Tree) :
    Seen.ofTrees before = Seen.ofTrees (.node kind children :: before) := by
  simp [ofTrees, Tree.isPlainParagraph, Tree.isEval, hplain, heval]

/-- An evaluation has been read; it is mixed with paragraphs if some were read before. -/
theorem Seen.ofTrees_eval (before children : List Tree) :
    { Seen.ofTrees before with
      eval := true
      mixed := (Seen.ofTrees before).mixed
        || (Seen.ofTrees before).paragraph && !(Seen.ofTrees before).mixed }
      = Seen.ofTrees (.node .evalDecl children :: before) := by
  have hplain : NodeKind.evalDecl.isPlainParagraph = false := rfl
  simp only [ofTrees, List.any_cons, Tree.isPlainParagraph, Tree.isEval, hplain]
  cases before.any Tree.isPlainParagraph <;> cases before.any Tree.isEval <;> rfl

/-- Another paragraph has been read; it is mixed with evaluations if some were read before. -/
theorem Seen.ofTrees_plainParagraph {kind : NodeKind} (hkind : kind.isPlainParagraph = true)
    (before children : List Tree) :
    { Seen.ofTrees before with
      paragraph := true
      mixed := (Seen.ofTrees before).mixed
        || (Seen.ofTrees before).eval && !(Seen.ofTrees before).mixed }
      = Seen.ofTrees (.node kind children :: before) := by
  have heval : (kind == .evalDecl) = false := by
    simpa using (Bool.and_eq_true_iff.mp hkind).2
  simp only [ofTrees, List.any_cons, Tree.isPlainParagraph, Tree.isEval, hkind, heval]
  cases before.any Tree.isPlainParagraph <;> cases before.any Tree.isEval <;> rfl

/-- What is said about the place of a node of a kind behind other trees of a module, the nearest
first. -/
def misplaced (before : List Tree) : NodeKind → List Problem
  | .moduleDecl =>
    if (Tree.leavesAll before.reverse).any (·.1.isSignificant) then [.lateModule] else []
  | .importDecl => if (Seen.ofTrees before).paragraph then [.lateImport] else []
  | .evalDecl =>
    if (Seen.ofTrees before).paragraph && !(Seen.ofTrees before).mixed then [.evalAmongParagraphs]
    else []
  | kind =>
    if kind.isPlainParagraph && ((Seen.ofTrees before).eval && !(Seen.ofTrees before).mixed) then
      [.paragraphAfterEval]
    else []

theorem misplaced_of_isPlainParagraph {before : List Tree} {kind : NodeKind}
    (h : kind.isPlainParagraph = true) :
    misplaced before kind =
      if (Seen.ofTrees before).eval && !(Seen.ofTrees before).mixed then [.paragraphAfterEval]
      else [] := by
  unfold misplaced
  split
  · cases h
  · cases h
  · cases h
  · rw [h, Bool.true_and]

/-! ### Single declarations -/

section

variable {setting : Setting} {enter : Nonterminal → State → Bool × State}

/-- The node of an assertion is made behind what it asserts. -/
theorem builds_assertion :
    Builds setting enter NodeKind.isPlainParagraph assertion := by
  have hform (form : AssertionForm) : form.node.isPlainParagraph = true := by cases form <;> rfl
  refine .group <| .behind _ fun _ => .behind _ fun body => .ite ?_ ?_
  · exact (Encloses.enclose rfl _).yields _
  · refine .behind _ fun tagged => .behind _ fun tag => ?_
    split
    · exact (Encloses.enclose (hform _) _).yields _
    · exact (Encloses.enclose rfl _).yields _

theorem builds_paragraph (form : ParagraphStart) :
    Builds setting enter NodeKind.isPlainParagraph form.rule := by
  cases form with
  | assertion => exact builds_assertion.ignore
  | _ => exact .node rfl _

theorem builds_moduleDecl : Builds setting enter (· == .moduleDecl) moduleDecl := .node rfl _

theorem builds_importDecl : Builds setting enter (· == .importDecl) importDecl := .node rfl _

theorem builds_evalDecl : Builds setting enter (· == .evalDecl) evalDecl := .node rfl _

theorem builds_skipUntil (problem : Problem) (stops : List TokenKind) {s : State}
    (hk : s.kindAt 0 ≠ none) :
    ∃ children, ((skipUntil problem stops).run setting enter s).2.siblings
      = .node .error children :: s.attachPending.siblings := by
  obtain ⟨reports, hreport⟩ := State.report_eq setting problem s
  have hopen : (s.kindAt 0).isNone = false := by
    simpa [Option.isSome_iff_ne_none] using hk
  have hkind : State.kindAt { s with reports } 0 = s.kindAt 0 := rfl
  simp only [skipUntil, run_bind, run_report, run_atEnd, hreport, hkind, hopen, Bool.not_false,
    run_when_true]
  exact ⟨_, rfl⟩

end

/-! ### Rounds -/

theorem Seen.ofTrees_attachPending (s : State) :
    Seen.ofTrees s.attachPending.siblings = Seen.ofTrees s.siblings := by
  have hplain (t : Token) : t.skippedTree.isPlainParagraph = false := by
    unfold Token.skippedTree
    split <;> rfl
  have heval (t : Token) : t.skippedTree.isEval = false := by
    unfold Token.skippedTree
    split <;> rfl
  have hnone {test : Tree → Bool} (htest : ∀ t : Token, test t.skippedTree = false) :
      s.attachPending.siblings.any test = s.siblings.any test := by
    have hfront : ((s.pending.map Token.skippedTree).reverse.any test) = false := by
      simpa [List.any_eq_false] using fun t _ => htest t
    rw [State.attachPending, List.any_append, hfront, Bool.false_or]
  rw [ofTrees, ofTrees, hnone hplain, hnone heval]

/-- The state has one part more than another one, and without a cap the counted problems in its
reports are those before and what is said about the place of that part. -/
structure Adds (setting : Setting) (counted : Problem → Bool) (s t : State) (kind : NodeKind)
    (children : List Tree) : Prop where
  part : kind.isModulePart = true
  siblings : t.siblings = .node kind children :: s.attachPending.siblings
  reports : setting.maxDiagnostics = none →
    t.reports.countP (counted ·.problem) = s.reports.countP (counted ·.problem)
      + (misplaced s.attachPending.siblings kind).countP counted

section

variable {setting : Setting} {enter : Nonterminal → State → Bool × State}
variable {counted : Problem → Bool}

/-- No call changes the number of counted problems. -/
def Uncounted (counted : Problem → Bool) (enter : Nonterminal → State → Bool × State) : Prop :=
  ∀ symbol s, (enter symbol s).2.reports.countP (counted ·.problem)
    = s.reports.countP (counted ·.problem)

theorem uncounted_run
    (hcounted : ∀ problem : Problem, problem.OfDeclaration → counted problem = false)
    (hcalls : Uncounted counted enter) {α : Type} {rule : Rule Nonterminal α}
    (hrule : rule.Tells Problem.OfDeclaration) (s : State) :
    (rule.run setting enter s).2.reports.countP (counted ·.problem)
      = s.reports.countP (counted ·.problem) :=
  (Keeping.countP hcounted _).run (fun symbol s hs => (hcalls symbol s).trans hs) rule hrule rfl

theorem uncounted_enter
    (hcounted : ∀ problem : Problem, problem.OfDeclaration → counted problem = false)
    (setting : Setting) (levels : Nat) : Uncounted counted (language.enter setting levels) :=
  fun symbol s => language.keeping_enter (Keeping.countP hcounted _) tells_body tells_beyond levels
    symbol s rfl

/-- A report, made or not, and behind it a rule that builds a node. -/
theorem adds_behind
    (hcounted : ∀ problem : Problem, problem.OfDeclaration → counted problem = false)
    (hcalls : Uncounted counted enter) {kinds : NodeKind → Bool} {rule : Rule Nonterminal Unit}
    (hrule : Builds setting enter kinds rule)
    (htells : rule.Tells Problem.OfDeclaration) (said : Bool) (problem : Problem) (s : State)
    (hkinds : ∀ kind, kinds kind = true → kind.isModulePart = true ∧
      misplaced s.attachPending.siblings kind = if said then [problem] else []) :
    ∃ kind children, kinds kind = true ∧
      Adds setting counted s
        (rule.run setting enter ((when said (report problem)).run setting enter s).2).2
        kind children := by
  obtain ⟨kind, children, hkind, hsiblings⟩ :=
    hrule ((when said (report problem)).run setting enter s).2
  obtain ⟨hpart, hmisplaced⟩ := hkinds kind hkind
  refine ⟨kind, children, hkind, hpart, hsiblings.trans ?_, ?_⟩
  · rw [run_when]
    split
    · obtain ⟨reports, hreport⟩ := State.report_eq setting problem s
      rw [run_report, hreport]
      rfl
    · rfl
  · intro hkeep
    rw [uncounted_run hcounted hcalls htells, run_when, hmisplaced]
    split
    · rw [run_report, State.reports_report hkeep, List.countP_cons, List.countP_singleton]
    · rfl

/-- A declaration adds a part, and what has been read is told by the trees also behind it. -/
theorem adds_declaration
    (hcounted : ∀ problem : Problem, problem.OfDeclaration → counted problem = false)
    (hcalls : Uncounted counted enter) {s : State}
    (hstarts : startsDeclaration (s.kindAt 0) (s.kindAt 1) (s.kindAt 2) = true)
    (hbegun : s.kindAt 0 = some (.keyword .moduleKw) →
      (Tree.leavesAll s.attachPending.siblings.reverse).any (·.1.isSignificant) = true) :
    ∃ kind children, Adds setting counted s
        ((declaration (Seen.ofTrees s.siblings)).run setting enter s).2 kind children ∧
      ((declaration (Seen.ofTrees s.siblings)).run setting enter s).1
        = Seen.ofTrees (.node kind children :: s.attachPending.siblings) := by
  rw [← Seen.ofTrees_attachPending s]
  generalize hbefore : s.attachPending.siblings = before at hbegun
  have hfits := @adds_behind setting enter counted hcounted hcalls
  simp only [declaration, run_bind, run_peek]
  split
  · next hk =>
    obtain ⟨kind, children, hkind, h⟩ := hfits builds_moduleDecl tells_moduleDecl true .lateModule s
      fun kind hkind => by
        obtain rfl := eq_of_beq hkind
        simp [misplaced, hbefore, hbegun hk, NodeKind.isModulePart]
    obtain rfl := eq_of_beq hkind
    rw [run_when_true] at h
    simp only [run_bind, run_pure]
    exact ⟨_, children, h, Seen.ofTrees_other rfl rfl before children⟩
  · next hk =>
    obtain ⟨kind, children, hkind, h⟩ := hfits builds_importDecl tells_importDecl
      (Seen.ofTrees before).paragraph .lateImport s fun kind hkind => by
        obtain rfl := eq_of_beq hkind
        simp [misplaced, hbefore, NodeKind.isModulePart]
    obtain rfl := eq_of_beq hkind
    simp only [run_bind, run_pure]
    exact ⟨_, children, h, Seen.ofTrees_other rfl rfl before children⟩
  · next hk =>
    obtain ⟨kind, children, hkind, h⟩ := hfits builds_evalDecl tells_evalDecl
      ((Seen.ofTrees before).paragraph && !(Seen.ofTrees before).mixed)
      .evalAmongParagraphs s fun kind hkind => by
        obtain rfl := eq_of_beq hkind
        exact ⟨rfl, by rw [hbefore]; rfl⟩
    obtain rfl := eq_of_beq hkind
    simp only [run_bind, run_pure]
    exact ⟨_, children, h, Seen.ofTrees_eval before children⟩
  · split
    · next form hform =>
      obtain ⟨kind, children, hkind, h⟩ := hfits (builds_paragraph form) (tells_paragraph form)
        ((Seen.ofTrees before).eval && !(Seen.ofTrees before).mixed) .paragraphAfterEval s
        fun kind hkind => ⟨NodeKind.isModulePart_of_isPlainParagraph hkind, by
          rw [hbefore, misplaced_of_isPlainParagraph hkind]⟩
      simp only [run_bind, run_pure]
      exact ⟨kind, children, h, Seen.ofTrees_plainParagraph hkind before children⟩
    · simp_all [startsDeclaration]

/-- A round in front of a token adds a part: a declaration, or text that is none. -/
theorem adds_moduleItem (henter : Steady enter)
    (hcounted : ∀ problem : Problem, problem.OfDeclaration → counted problem = false)
    (hcalls : Uncounted counted enter) {s : State} (hs : s.Valid) (hk : s.kindAt 0 ≠ none)
    (hbegun : s.kindAt 0 = some (.keyword .moduleKw) →
      (Tree.leavesAll s.attachPending.siblings.reverse).any (·.1.isSignificant) = true) :
    ∃ kind children, Adds setting counted s
        ((moduleItem (Seen.ofTrees s.siblings)).run setting enter s).2 kind children ∧
      ((moduleItem (Seen.ofTrees s.siblings)).run setting enter s).1
        = (Seen.ofTrees (.node kind children :: s.attachPending.siblings), true) := by
  have hopen : (s.kindAt 0).isNone = false := by simpa [Option.isSome_iff_ne_none] using hk
  simp only [moduleItem, run_bind, run_atEnd, hopen, Bool.false_eq_true, if_false, run_progress,
    run_pure]
  cases hstarts : startsDeclaration (s.kindAt 0) (s.kindAt 1) (s.kindAt 2) with
  | true =>
    obtain ⟨kind, children, hadds, hseen⟩ : ∃ kind children, Adds setting counted s
        ((declaration (Seen.ofTrees s.siblings)).run setting enter s).2 kind children ∧ _ :=
      adds_declaration hcounted hcalls hstarts hbegun
    have htakes : TakesFrom setting enter s (declaration (Seen.ofTrees s.siblings)) :=
      takesFrom_declaration henter _ hstarts
    have htook := htakes s hs rfl
    refine ⟨kind, children, ?_⟩
    rw [bne_iff_ne.mpr (Nat.ne_of_lt htook), hseen]
    exact ⟨hadds, rfl⟩
  | false =>
    let skipping : Rule Nonterminal Unit := skipUntil .paragraph []
    obtain ⟨children, hskipped⟩ : ∃ children, (skipping.run setting enter s).2.siblings
        = .node .error children :: s.attachPending.siblings := builds_skipUntil .paragraph [] hk
    have hquiet : (skipping.run setting enter s).2.reports.countP (counted ·.problem)
        = s.reports.countP (counted ·.problem) :=
      uncounted_run hcounted hcalls (by simp +decide [skipping]) s
    refine ⟨.error, children, ?_⟩
    simp only [run_declaration_of_not_starts _ hstarts, hopen, bne_self_eq_false, Bool.not_false,
      Bool.and_self, run_when_true]
    refine ⟨⟨rfl, hskipped, fun _ => hquiet⟩, ?_⟩
    rw [← Seen.ofTrees_attachPending s, ← Seen.ofTrees_other rfl rfl]

/-! ### Whole modules -/

/-- What is said about the places of the parts of a module, the last part first. -/
def remarks : List Tree → List Problem
  | [] => []
  | .token .. :: before => remarks before
  | .node kind _ :: before => misplaced before kind ++ remarks before

theorem remarks_attachPending (s : State) :
    remarks s.attachPending.siblings = remarks s.siblings := by
  have hskipped (ts : List Token) (before : List Tree) :
      remarks (ts.map Token.skippedTree ++ before) = remarks before := by
    induction ts with
    | nil => rfl
    | cons t ts ih =>
      rw [List.map_cons, List.cons_append, Token.skippedTree]
      split
      · exact ih
      · exact ih
  rw [State.attachPending, ← List.map_reverse, hskipped]

theorem isModulePart_attachPending {s : State} (hs : s.Valid)
    (h : ∀ t ∈ s.siblings, t.isModulePart = true) :
    ∀ t ∈ s.attachPending.siblings, t.isModulePart = true := by
  intro t ht
  rcases List.mem_append.mp ht with ht | ht
  · obtain ⟨token, htoken, rfl⟩ := List.mem_map.mp (List.mem_reverse.mp ht)
    unfold Token.skippedTree
    split
    · rfl
    · next hvalid => exact State.isTrivia_of_not_significant (hs.pending token htoken) hvalid
  · exact h t ht

/-- Where fewer words are to come, a significant token is in the tree. -/
theorem any_significant {s t : State} (hs : s.Valid) (hempty : s.siblings = [])
    (hr : s.Reaches t) (hlt : t.words.length < s.words.length) :
    (Tree.leavesAll t.siblings.reverse).any (·.1.isSignificant) = true := by
  have hcount (u : State) (hu : u.Valid) :
      u.leaves.countP (·.1.isSignificant)
        = (Tree.leavesAll u.siblings.reverse).countP (·.1.isSignificant) + u.words.length := by
    have hwords := congrArg List.length hu.filter_rest
    rw [List.length_map, ← List.countP_eq_length_filter] at hwords
    rw [State.leaves, List.countP_append, List.countP_map, ← hwords]
    rfl
  have hsame := hcount t (hr.valid hs)
  rw [hr.leaves, hcount s hs, hempty] at hsame
  have hpos : 0 < (Tree.leavesAll t.siblings.reverse).countP (·.1.isSignificant) := by
    simp only [List.reverse_nil, Tree.leavesAll, List.countP_nil] at hsame
    omega
  obtain ⟨leaf, hleaf, hsig⟩ := List.countP_pos_iff.mp hpos
  exact List.any_eq_true.mpr ⟨leaf, hleaf, hsig⟩

/-- How far a module has been read, from its start on: the parts so far, and what was said about
their places. -/
structure SoFar (setting : Setting) (counted : Problem → Bool) (start s : State) (seen : Seen) :
    Prop where
  reached : start.Reaches s
  /-- A module declaration at the start has been read. -/
  begun : start.kindAt 0 = some (.keyword .moduleKw) → s.words.length < start.words.length
  parts : ∀ t ∈ s.siblings, t.isModulePart = true
  seen : seen = Seen.ofTrees s.siblings
  reports : setting.maxDiagnostics = none →
    s.reports.countP (counted ·.problem)
      = start.reports.countP (counted ·.problem) + (remarks s.siblings).countP counted

/-- A round in front of a token reads the module one part further. -/
theorem SoFar.round (henter : Steady enter)
    (hcounted : ∀ problem : Problem, problem.OfDeclaration → counted problem = false)
    (hcalls : Uncounted counted enter) {start s : State} {seen : Seen} (hstart : start.Valid)
    (hempty : start.siblings = []) (h : SoFar setting counted start s seen)
    (hk : s.kindAt 0 ≠ none) :
    SoFar setting counted start ((moduleItem seen).run setting enter s).2
      ((moduleItem seen).run setting enter s).1.1 := by
  obtain rfl := h.seen
  have hs := h.reached.valid hstart
  have hreached := h.reached.trans (State.reaches_attachPending s)
  -- The start of the text is behind: either no module declaration stood there, or it has been read.
  have hbegun (hmodule : s.kindAt 0 = some (.keyword .moduleKw)) :
      (Tree.leavesAll s.attachPending.siblings.reverse).any (·.1.isSignificant) = true := by
    refine any_significant hstart hempty hreached (Nat.lt_of_le_of_ne h.reached.words.length_le ?_)
    intro hlength
    have hwords := h.reached.words.eq_of_length hlength
    have hlt := h.begun (by rwa [← kindAt_congr hwords])
    exact Nat.ne_of_lt hlt hlength
  obtain ⟨kind, children, hadds, hresult⟩ : ∃ kind children, Adds setting counted s
      ((moduleItem (Seen.ofTrees s.siblings)).run setting enter s).2 kind children ∧ _ :=
    adds_moduleItem henter hcounted hcalls hs hk hbegun
  have hr := reaches_run setting henter (moduleItem (Seen.ofTrees s.siblings)) s
  rw [hresult]
  refine ⟨h.reached.trans hr, fun hmodule => ?_, ?_, ?_, fun hkeep => ?_⟩
  · exact Nat.lt_of_le_of_lt hr.words.length_le (h.begun hmodule)
  · rw [hadds.siblings]
    exact List.forall_mem_cons.mpr ⟨hadds.part, isModulePart_attachPending hs h.parts⟩
  · rw [hadds.siblings]
  · rw [hadds.siblings, hadds.reports hkeep, h.reports hkeep, remarks, List.countP_append,
      remarks_attachPending]
    omega

/-- In front of the first significant token, a module declaration is in its place. -/
theorem misplaced_start {s : State} (hs : s.Valid) (hempty : s.siblings = []) :
    misplaced s.attachPending.siblings .moduleDecl = [] := by
  have hnone :
      (Tree.leavesAll s.attachPending.siblings.reverse).any (·.1.isSignificant) = false := by
    rw [State.leavesAll_attachPending, hempty]
    simpa [Tree.leavesAll, Token.toPair, List.any_eq_false] using hs.pending
  simp [misplaced, hnone]

/-- A module declaration takes its keyword. -/
theorem words_moduleDecl (henter : Steady enter) {s : State} (hk : s.kindAt 0 ≠ none) :
    (moduleDecl.run setting enter s).2.words.length < s.words.length := by
  obtain ⟨w, ws, hw⟩ := List.exists_cons_of_ne_nil fun h => hk (State.kindAt_zero_eq_none.mpr h)
  have hbump : State.bump { s.attachPending with siblings := [] } = _ :=
    State.bump_of_words_eq_cons hw
  rw [moduleDecl, run_node, run_bind, run_bump, hbump, hw]
  exact Nat.lt_succ_of_le (reaches_run setting henter _ _).words.length_le

/-- A module declaration at the start of the text, if there is one. -/
theorem soFar_first (henter : Steady enter)
    (hcounted : ∀ problem : Problem, problem.OfDeclaration → counted problem = false)
    (hcalls : Uncounted counted enter) {s : State} (hs : s.Valid) (hempty : s.siblings = []) :
    SoFar setting counted s
      ((when (s.kindAt 0 == some (.keyword .moduleKw)) moduleDecl).run setting enter s).2 {} := by
  cases hk : s.kindAt 0 == some (.keyword .moduleKw) with
  | false =>
    rw [run_when_false]
    refine ⟨.refl s, fun hmodule => ?_, by simp [hempty], by rw [hempty]; rfl, fun _ => ?_⟩
    · simp [hmodule] at hk
    · simp [hempty, remarks]
  | true =>
    rw [run_when_true]
    obtain ⟨kind, children, hkind, hadds⟩ : ∃ kind children, (kind == .moduleDecl) = true ∧
        Adds setting counted s (moduleDecl.run setting enter
          ((when false (report .lateModule)).run setting enter s).2).2 kind children := by
      refine adds_behind hcounted hcalls builds_moduleDecl tells_moduleDecl false .lateModule s ?_
      intro kind hkind
      obtain rfl := eq_of_beq hkind
      exact ⟨rfl, misplaced_start hs hempty⟩
    obtain rfl := eq_of_beq hkind
    rw [run_when_false] at hadds
    have hparts := isModulePart_attachPending hs (by simp [hempty])
    refine ⟨reaches_run setting henter _ s, fun _ => ?_, ?_, ?_, fun hkeep => ?_⟩
    · exact words_moduleDecl henter (State.kindAt_zero_ne_none (eq_of_beq hk))
    · rw [hadds.siblings]
      exact List.forall_mem_cons.mpr ⟨hadds.part, hparts⟩
    · rw [hadds.siblings, ← Seen.ofTrees_other rfl rfl, Seen.ofTrees_attachPending, hempty]
      rfl
    · rw [hadds.siblings, hadds.reports hkeep, remarks, List.countP_append, remarks_attachPending,
        hempty]
      rfl

/-- A module is read to its end part by part. -/
theorem soFar_sourceFile (henter : Steady enter)
    (hcounted : ∀ problem : Problem, problem.OfDeclaration → counted problem = false)
    (hcalls : Uncounted counted enter) {s : State} (hs : s.Valid) (hempty : s.siblings = []) :
    ∃ seen, SoFar setting counted s (sourceFile.run setting enter s).2 seen := by
  have hfirst : SoFar setting counted s
      ((when (s.kindAt 0 == some (.keyword .moduleKw)) moduleDecl).run setting enter s).2 {} :=
    soFar_first henter hcounted hcalls hs hempty
  obtain ⟨seen, t, ht, hsofar, hlast, hrun⟩ := loop_last henter (advancing_moduleItem henter)
    (fun seen t => SoFar setting counted s t seen)
    (fun seen t ht h hmore => h.round henter hcounted hcalls hs hempty fun hk => by
      simp [moduleItem, hk] at hmore)
    (hfirst.reached.valid hs) hfirst
  have hk : t.kindAt 0 = none := by
    by_contra hk
    have hopen : (t.kindAt 0).isNone = false := by simpa [Option.isSome_iff_ne_none] using hk
    simp [moduleItem, hopen] at hlast
  refine ⟨seen, ?_⟩
  simp only [sourceFile, run_bind, run_ignore, run_currentIs, hrun]
  simpa [moduleItem, hk] using hsofar

end

end Grammar
end RelLang
