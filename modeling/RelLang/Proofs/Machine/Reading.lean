import RelLang.Proofs.Machine.Simulation
import RelLang.Proofs.Parse.Lossless

/-!
# The machine reads texts

A call of the machine is a call of the rules, since the levels that are left and the
nesting add up to the limit. So the machine reads every list of tokens without a
fault, and with its root it has built the tree that reading yields.
-/

namespace RelLang

/-! ### Calls -/

namespace Shows

variable {f : Frame} {s : State} {m : Machine}

/-- One call deeper in the frame. -/
theorem enterNesting (h : Shows f s m) :
    Shows { f with nesting := f.nesting + 1 } s { m with nesting := m.nesting + 1 } :=
  ⟨h.state, ⟨h.top.trees, h.top.marks⟩, h.below, h.depth, congrArg (· + 1) h.nesting, h.contexts,
    h.fresh⟩

theorem exitNesting (h : Shows { f with nesting := f.nesting + 1 } s m) :
    Shows f s m.exitNesting :=
  ⟨h.state, ⟨h.top.trees, h.top.marks⟩, h.below, h.depth, congrArg (· - 1) h.nesting, h.contexts,
    h.fresh⟩

end Shows

/-- The machine calls as the rules do, as deep as there are levels. -/
theorem Grammar.mirrors_exec {ν : Type} (g : Grammar ν) (setting : Setting) (rounds : Nat)
    (hbody : ∀ levels symbol, (g.body symbol).Every (fun _ => True)
      (Rule.Advancing setting (g.enter setting levels)))
    (hbeyond : ∀ symbol, (g.beyond symbol).Every (fun _ => True) (Rule.Advancing setting nofun))
    {levels nesting : Nat} (hlimit : levels + nesting = nestingLimit) (symbol : ν) :
    Rule.Mirrors rounds nesting (g.exec setting rounds (levels + 1) symbol)
      (g.enter setting levels symbol) := by
  induction levels generalizing nesting symbol with
  | zero =>
    intro f s m h hs hrounds hnesting
    have hnone : m.enterNesting? = none := if_pos (by rw [h.nesting]; omega)
    simp only [Grammar.exec, hnone]
    refine Rule.mirrors (steady_of_empty _) ?_ _ (hbeyond symbol) h hs hrounds hnesting
    exact fun symbol => symbol.elim
  | succ levels ih =>
    intro f s m h hs hrounds hnesting
    have hsome : m.enterNesting? = some { m with nesting := m.nesting + 1 } :=
      if_neg (by rw [h.nesting]; omega)
    have hdeeper : levels + (nesting + 1) = nestingLimit := by omega
    obtain ⟨m₁, hrun, h₁⟩ := Rule.mirrors (g.steady_enter setting levels) (ih hdeeper) _
      (hbody levels symbol) h.enterNesting hs hrounds (congrArg (· + 1) hnesting)
    have hcall : (g.body symbol).exec setting rounds (g.exec setting rounds (levels + 1)) f.mark
      { m with nesting := m.nesting + 1 } = _ := hrun
    refine ⟨m₁.exitNesting, ?_, h₁.exitNesting⟩
    rw [Grammar.exec, hsome]
    simp only [hcall, ok_bind]
    rfl

theorem Grammar.mirrors_language (setting : Setting) (rounds : Nat) (symbol : Grammar.Nonterminal) :
    Rule.Mirrors rounds 0 (Grammar.language.exec setting rounds (nestingLimit + 1) symbol)
      (Grammar.language.enter setting nestingLimit symbol) :=
  Grammar.language.mirrors_exec setting rounds
    (fun levels symbol => ends_body (Grammar.language.steady_enter setting levels) symbol)
    (fun symbol => (advances_beyond setting _ symbol).ends) rfl symbol

/-! ### The whole text -/

/-- All loops in the rule for a whole text advance. -/
theorem Entry.ends_rule (entry : Entry) {setting : Setting}
    {enter : Grammar.Nonterminal → State → Bool × State} (henter : Steady enter) :
    Grammar.Ends setting enter entry.rule := by
  cases entry with
  | wholeModule => exact Grammar.ends_sourceFile henter
  | oneExpression => exact Grammar.advances_exprRoot.ends

namespace Machine

/-- The frame of a root that has just begun. -/
def rootFrame (kind : NodeKind) : Frame where
  mark := 0
  kept := []
  marks := [(0, 0)]
  below := [(kind, {})]
  nesting := 0
  mark_mem := List.mem_singleton_self _
  marks_le p hp := by simp_all
  below_ne_nil := List.cons_ne_nil _ _

theorem shows_start (config : ParseConfig) (entry : Entry) (tokens : List Token) :
    Shows (rootFrame entry.rootKind) (Parse.start config tokens)
      ((start config tokens).startNode entry.rootKind).2 := by
  obtain ⟨reports, hstart⟩ := Parse.start_eq config tokens
  refine ⟨?_, ⟨?_, fun p hp => ?_⟩, rfl, rfl, rfl, ?_, ?_⟩
  · show Parse.start config tokens = _
    rw [hstart]
  · rw [hstart]
    rfl
  · obtain rfl := List.mem_singleton.mp hp
    rfl
  · rw [hstart]
    exact List.cons_ne_nil _ _
  · have hempty : ({} : Builder).Fresh := by
      intro l hl p hp
      obtain rfl := List.mem_singleton.mp hl
      cases hp
    exact hempty.openNode entry.rootKind [] fun _ hp => hp

/-- The root ends with the skipped tokens that are left. -/
theorem finishNode_root {kind : NodeKind} {t : State} {m : Machine}
    (h : Shows (rootFrame kind) t m) :
    ∃ m', m.finishNode = .ok m' ∧
      m'.state = { t.attachPending with siblings := [] } ∧
      m'.builder.top.trees = [.node kind t.attachPending.siblings.reverse] ∧
      m'.builder.below = [] ∧ m'.depth = 0 ∧ m'.nesting = 0 := by
  have hskip := h.skipTrivia
  have hdepth : m.depth = 1 := h.depth
  have hbelow : m.skipTrivia.builder.below = [(kind, {})] := hskip.below
  have htrees : m.skipTrivia.builder.top.trees = t.attachPending.siblings := by
    rw [hskip.top.trees]
    exact List.append_nil _
  refine ⟨{ m.skipTrivia with
    builder := { m.skipTrivia.builder with
      top := { trees := [.node kind t.attachPending.siblings.reverse] }, below := [] }
    depth := m.skipTrivia.depth - 1 }, ?_, hskip.state, rfl, rfl, ?_, hskip.nesting⟩
  · simp only [finishNode, if_pos hdepth, Builder.finish?, hbelow, htrees]
  · show m.skipTrivia.depth - 1 = 0
    rw [hskip.depth]
    rfl

/-- The machine reads every list of tokens, and builds the tree that reading yields. -/
theorem read_eq (config : ParseConfig) (entry : Entry) (tokens : List Token) :
    ∃ m, read config entry tokens = .ok m ∧
      m.state = { Parse.final config entry tokens with siblings := [] } ∧
      m.builder.top.trees = [(Parse.ofTokens config entry tokens).tree] ∧
      m.builder.below = [] ∧ m.depth = 0 ∧ m.nesting = 0 := by
  have henter := Grammar.language.steady_enter (Parse.setting config tokens) nestingLimit
  have hs := Parse.valid_start config tokens
  have hleft : (Parse.start config tokens).left < tokens.length + 1 := by
    rw [hs.left_eq, Parse.rest_start]
    exact Nat.lt_succ_self _
  have hrule : Grammar.Ends (Parse.setting config tokens) _ entry.rule := entry.ends_rule henter
  obtain ⟨m₁, hrun, h₁⟩ := Rule.mirrors henter
    (Grammar.mirrors_language (Parse.setting config tokens) (tokens.length + 1)) entry.rule
    hrule (shows_start config entry tokens) hs hleft rfl
  obtain ⟨m₂, hfinish, h₂⟩ := finishNode_root h₁
  have hexec : entry.rule.exec (Parse.setting config tokens) (tokens.length + 1)
      (Grammar.language.exec (Parse.setting config tokens) (tokens.length + 1) (nestingLimit + 1))
      ((start config tokens).startNode entry.rootKind).1
      ((start config tokens).startNode entry.rootKind).2 = _ := hrun
  refine ⟨m₂, ?_, h₂⟩
  simp only [read, hexec, ok_bind]
  exact hfinish

end Machine
end RelLang
