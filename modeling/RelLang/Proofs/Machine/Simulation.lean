import RelLang.Proofs.Machine.Run
import RelLang.Proofs.Grammar.Ending

/-!
# The machine does what rules do

A machine *shows* a state if it is at the same place of the text and its builder
holds the trees of the state behind the mark of the innermost node or group. What
stands around them, the open nodes, the marks set before and the nesting, is the
*frame*; a rule leaves the frame as it is. If all loops of a rule advance, the
machine does what the rule does, without a fault.
-/

namespace RelLang

/-- What stands around the trees of the innermost node or group. -/
structure Frame where
  /-- The mark where the innermost node or group began. -/
  mark : Nat
  /-- The trees in front of that mark, the last one first. -/
  kept : List Tree
  /-- The marks that stay in force. -/
  marks : List (Nat × Nat)
  /-- The open nodes. -/
  below : List (NodeKind × Layer)
  nesting : Nat
  mark_mem : (mark, kept.length) ∈ marks
  marks_le : ∀ p ∈ marks, p.2 ≤ kept.length
  below_ne_nil : below ≠ []

/-- The layer holds some trees behind what the frame keeps. -/
structure Layer.Holds (f : Frame) (trees : List Tree) (l : Layer) : Prop where
  trees : l.trees = trees ++ f.kept
  marks : ∀ p ∈ f.marks, l.marks.lookup p.1 = some p.2

/-- The machine is in the state, inside the frame. -/
structure Shows (f : Frame) (s : State) (m : Machine) : Prop where
  state : m.state = { s with siblings := [] }
  top : m.builder.top.Holds f s.siblings
  below : m.builder.below = f.below
  depth : m.depth = f.below.length
  nesting : m.nesting = f.nesting
  contexts : s.contexts ≠ []
  fresh : m.builder.Fresh

variable {f : Frame} {s t : State} {m : Machine}

/-! ### Fresh marks -/

namespace Builder

variable {b : Builder}

theorem Fresh.add (h : b.Fresh) (trees : List Tree) : (b.add trees).Fresh := by
  intro l hl p hp
  obtain rfl | hl := List.mem_cons.mp hl
  · exact h b.top List.mem_cons_self p hp
  · exact h l (List.mem_cons_of_mem _ hl) p hp

theorem Fresh.openNode (h : b.Fresh) (kind : NodeKind) (trees : List Tree) {around : Layer}
    (haround : ∀ p ∈ around.marks, p ∈ b.top.marks) : (b.openNode kind trees around).2.Fresh := by
  intro l hl p hp
  obtain rfl | hl := List.mem_cons.mp hl
  · obtain rfl := List.mem_singleton.mp hp
    exact Nat.lt_succ_self _
  · obtain rfl | hl := List.mem_cons.mp hl
    · exact Nat.lt_succ_of_lt (h b.top List.mem_cons_self p (haround p hp))
    · exact Nat.lt_succ_of_lt (h l (List.mem_cons_of_mem _ hl) p hp)

theorem Fresh.mark (h : b.Fresh) : b.mark.2.Fresh := by
  intro l hl p hp
  obtain rfl | hl := List.mem_cons.mp hl
  · obtain rfl | hp := List.mem_cons.mp hp
    · exact Nat.lt_succ_self _
    · exact Nat.lt_succ_of_lt (h b.top List.mem_cons_self p hp)
  · exact Nat.lt_succ_of_lt (h l (List.mem_cons_of_mem _ hl) p hp)

/-- A mark in force is not the next one. -/
theorem Fresh.lookup_ne (h : b.Fresh) {mark n : Nat}
    (hmark : b.top.marks.lookup mark = some n) : mark ≠ b.nextMark := by
  obtain ⟨front, behind, hmarks, -⟩ := List.lookup_eq_some_iff.mp hmark
  have hlt := h b.top List.mem_cons_self (mark, n) (by simp [hmarks])
  exact Nat.ne_of_lt hlt

end Builder

/-! ### Steps of the machine -/

namespace Shows

/-- A step that opens nothing, with the trees it has added. -/
theorem take (h : Shows f s m) {added : List Tree} (ht : t.siblings = added ++ s.siblings)
    (hcontexts : t.contexts = s.contexts) :
    Shows f t (m.take { t with siblings := added }) where
  state := rfl
  top := by
    refine ⟨?_, h.top.marks⟩
    show added ++ m.builder.top.trees = _
    rw [h.top.trees, ht, List.append_assoc]
  below := h.below
  depth := h.depth
  nesting := h.nesting
  contexts := by rw [hcontexts]; exact h.contexts
  fresh := h.fresh.add _

theorem skipTrivia (h : Shows f s m) : Shows f s.attachPending m.skipTrivia := by
  have hadd : ({ s with siblings := [] } : State).attachPending
      = { s.attachPending with siblings := (s.pending.map Token.skippedTree).reverse } := by
    simp [State.attachPending]
  rw [Machine.skipTrivia, h.state, hadd]
  exact h.take rfl rfl

end Shows

/-- The frame of a group that begins behind the trees of a state. -/
def Frame.group (f : Frame) (trees : List Tree) (mark : Nat) : Frame where
  mark
  kept := trees ++ f.kept
  marks := (mark, (trees ++ f.kept).length) :: f.marks
  below := f.below
  nesting := f.nesting
  mark_mem := List.mem_cons_self
  marks_le p hp := by
    obtain rfl | hp := List.mem_cons.mp hp
    · exact Nat.le_refl _
    · have := f.marks_le p hp
      simp only [List.length_append]
      omega
  below_ne_nil := f.below_ne_nil

/-- The frame of a node. -/
def Frame.node (f : Frame) (kind : NodeKind) (around : Layer) (mark : Nat) : Frame where
  mark
  kept := []
  marks := [(mark, 0)]
  below := (kind, around) :: f.below
  nesting := f.nesting
  mark_mem := List.mem_cons_self
  marks_le p hp := by simp_all
  below_ne_nil := List.cons_ne_nil _ _

namespace Shows

/-- A checkpoint begins a group. -/
theorem checkpoint (h : Shows f s m) :
    Shows (f.group s.attachPending.siblings m.checkpoint.1) { s.attachPending with siblings := [] }
      m.checkpoint.2 := by
  have hskip := h.skipTrivia
  refine ⟨hskip.state, ⟨hskip.top.trees, fun p hp => ?_⟩, hskip.below, hskip.depth, hskip.nesting,
    hskip.contexts, hskip.fresh.mark⟩
  have hlen : m.skipTrivia.builder.top.trees.length
      = (s.attachPending.siblings ++ f.kept).length := by
    rw [hskip.top.trees]
  show List.lookup p.1 ((m.skipTrivia.builder.nextMark, m.skipTrivia.builder.top.trees.length)
    :: m.skipTrivia.builder.top.marks) = _
  obtain rfl | hp := List.mem_cons.mp hp
  · rw [hlen]
    exact List.lookup_cons_self
  · have hne := hskip.fresh.lookup_ne (hskip.top.marks p hp)
    rw [List.lookup_cons, beq_eq_false_iff_ne.mpr hne]
    exact hskip.top.marks p hp

/-- What holds in a group holds around it, with the trees in front of the group. -/
theorem ungroup {trees : List Tree} {mark : Nat} (h : Shows (f.group trees mark) t m) :
    Shows f { t with siblings := t.siblings ++ trees } m where
  state := h.state
  top := by
    refine ⟨?_, fun p hp => h.top.marks p (List.mem_cons_of_mem _ hp)⟩
    rw [List.append_assoc]
    exact h.top.trees
  below := h.below
  depth := h.depth
  nesting := h.nesting
  contexts := h.contexts
  fresh := h.fresh

/-- Opening a node around some trees. -/
theorem openNode (h : Shows f s m) {kind : NodeKind} {trees : List Tree} {around : Layer}
    (haround : ∀ p ∈ around.marks, p ∈ m.builder.top.marks) :
    Shows (f.node kind around (m.builder.openNode kind trees around).1)
      { s with siblings := trees }
      { m with builder := (m.builder.openNode kind trees around).2, depth := m.depth + 1 } := by
  refine ⟨h.state, ⟨(List.append_nil _).symm, fun p hp => ?_⟩, ?_, ?_, h.nesting, h.contexts,
    h.fresh.openNode kind trees haround⟩
  · obtain rfl := List.mem_singleton.mp hp
    exact List.lookup_cons_self
  · exact congrArg _ h.below
  · exact congrArg (· + 1) h.depth

theorem startNode (h : Shows f s m) (kind : NodeKind) :
    Shows (f.node kind m.skipTrivia.builder.top (m.startNode kind).1)
      { s.attachPending with siblings := [] } (m.startNode kind).2 := by
  have hdepth : 0 < m.depth := by
    rw [h.depth]
    exact List.length_pos_iff.mpr f.below_ne_nil
  rw [Machine.startNode, if_pos hdepth]
  exact h.skipTrivia.openNode fun _ hp => hp

/-- Beginning a node at the mark of the innermost node or group. -/
theorem startNodeAt (h : Shows f s m) (kind : NodeKind) :
    ∃ around m' front, m.startNodeAt f.mark kind = .ok (front, m') ∧ around.Holds f [] ∧
      Shows (f.node kind around front) s m' := by
  have hlookup := h.top.marks _ f.mark_mem
  have hsince : m.builder.top.trees.length - f.kept.length = s.siblings.length := by
    rw [h.top.trees, List.length_append]
    omega
  refine ⟨{ trees := f.kept, marks := m.builder.top.marks.filter (·.2 ≤ f.kept.length) }, _, _,
    ?_, ⟨rfl, ?_⟩, h.openNode fun _ hp => (List.mem_filter.mp hp).1⟩
  · simp only [Machine.startNodeAt, Builder.startAt?, hlookup, Option.map_some, hsince]
    rw [h.top.trees, List.take_left, List.drop_left]
  · intro p hp
    exact lookup_filter_le (h.top.marks p hp) (f.marks_le p hp)

/-- Ending a node that is not the root. -/
theorem finishNode {kind : NodeKind} {around : Layer} {mark : Nat} {trees : List Tree}
    (h : Shows (f.node kind around mark) t m) (haround : around.Holds f trees) :
    ∃ m', m.finishNode = .ok m' ∧
      Shows f { t with siblings := .node kind t.siblings.reverse :: trees } m' := by
  have hdepth : m.depth ≠ 1 := by
    have hpos := List.length_pos_iff.mpr f.below_ne_nil
    rw [h.depth]
    show f.below.length + 1 ≠ 1
    omega
  have htrees : m.builder.top.trees = t.siblings := by
    rw [h.top.trees]
    exact List.append_nil _
  have hbelow : m.builder.below = (kind, around) :: f.below := h.below
  refine ⟨{ m with
    builder := { m.builder with
      top := { around with trees := .node kind t.siblings.reverse :: around.trees }
      below := f.below }
    depth := m.depth - 1 }, ?_, ?_⟩
  · simp only [Machine.finishNode, if_neg hdepth, Builder.finish?, hbelow, htrees]
  · refine ⟨h.state, ⟨?_, haround.marks⟩, rfl, ?_, h.nesting, h.contexts, ?_⟩
    · exact congrArg _ haround.trees
    · show m.depth - 1 = _
      rw [h.depth]
      rfl
    · intro l hl p hp
      have hfresh := h.fresh
      rw [Builder.Fresh, hbelow] at hfresh
      obtain rfl | hl := List.mem_cons.mp hl
      · exact hfresh around (by simp) p hp
      · exact hfresh l (List.mem_cons_of_mem _ (List.mem_cons_of_mem _ hl)) p hp

/-- Opening a context and closing it. -/
theorem pushContext (h : Shows f s m) (context : Context) :
    Shows f { s with contexts := context :: s.contexts } (m.pushContext context) where
  state := by rw [Machine.pushContext, h.state]
  top := h.top
  below := h.below
  depth := h.depth
  nesting := h.nesting
  contexts := List.cons_ne_nil _ _
  fresh := h.fresh

theorem popContext (h : Shows f t m) {context : Context} {contexts : List Context}
    (hcontexts : t.contexts = context :: contexts) (hne : contexts ≠ []) :
    Shows f { t with contexts := t.contexts.tail } m.popContext := by
  have hlen : 1 < m.state.contexts.length := by
    have hpos := List.length_pos_iff.mpr hne
    rw [h.state, hcontexts, List.length_cons]
    omega
  rw [Machine.popContext, if_pos hlen, h.state]
  refine ⟨rfl, h.top, h.below, h.depth, h.nesting, ?_, h.fresh⟩
  rw [hcontexts]
  exact hne

/-- A step that adds no tree. -/
theorem look (h : Shows f s m) (hsame : t.siblings = s.siblings) (hcontexts : t.contexts = s.contexts) :
    Shows f t (m.take { t with siblings := [] }) :=
  h.take (by rw [hsame, List.nil_append]) hcontexts

theorem bump (h : Shows f s m) : Shows f s.bump (m.take m.state.bump) := by
  have hadd : ∃ added, s.bump.siblings = added ++ s.siblings ∧
      ({ s with siblings := [] } : State).bump = { s.bump with siblings := added } := by
    cases hw : s.words <;> simp [State.bump, State.attachPending, hw]
  obtain ⟨added, hsiblings, hsame⟩ := hadd
  have hcontexts := (State.reaches_bump s).contexts
  rw [h.state, hsame]
  exact h.take hsiblings hcontexts

theorem report (h : Shows f s m) (setting : Setting) (problem : Problem) :
    Shows f (s.report setting problem) (m.take (m.state.report setting problem)) := by
  have hsame : ({ s with siblings := [] } : State).report setting problem
      = { s.report setting problem with siblings := [] } := by
    simp only [State.report, State.keep]
    split <;> rfl
  obtain ⟨reports, hreports⟩ := State.report_eq setting problem s
  rw [h.state, hsame]
  refine h.look ?_ ?_ <;> rw [hreports]

end Shows

/-! ### Rules -/

namespace Rule

variable {ν α σ : Type} {setting : Setting} {enter : ν → State → Bool × State} {fuel nesting : Nat}
  {call : ν → Nat → Machine → Except Fault (Bool × Machine)}

/-- The machine does what happens to states, without a fault. -/
def Mirrors (fuel nesting : Nat) (exec : Nat → Machine → Except Fault (α × Machine))
    (run : State → α × State) : Prop :=
  ∀ ⦃f s m⦄, Shows f s m → s.Valid → s.left < fuel → f.nesting = nesting →
    ∃ m', exec f.mark m = .ok ((run s).1, m') ∧ Shows f (run s).2 m'

/-- A rule that only looks. -/
theorem mirrors_look {rule : Rule ν α} (value : State → α)
    (hexec : ∀ mark m, rule.exec setting fuel call mark m = .ok (value m.state, m.take m.state))
    (hrun : ∀ s, rule.run setting enter s = (value s, s))
    (hvalue : ∀ s : State, value { s with siblings := [] } = value s) :
    Mirrors fuel nesting (rule.exec setting fuel call) (rule.run setting enter) := by
  intro f s m h _ _ _
  rw [hrun, hexec, h.state, hvalue]
  exact ⟨_, rfl, h.look rfl rfl⟩

theorem mirrors_loop (henter : Steady enter) {body : σ → Rule ν (σ × Bool)}
    (hadvancing : Advancing setting enter σ body)
    (hbody : ∀ a, Mirrors fuel nesting ((body a).exec setting fuel call)
      ((body a).run setting enter)) (a : σ) :
    Mirrors fuel nesting ((Rule.loop a body).exec setting fuel call)
      ((Rule.loop a body).run setting enter) := by
  intro f s m h hs hfuel hnesting
  suffices hrounds : ∀ n a s m, s.Valid → s.left < n → n ≤ fuel → Shows f s m → ∃ m',
      Machine.rounds (fun a m => (body a).exec setting fuel call f.mark m) n a m
        = .ok (((Rule.loop a body).run setting enter s).1, m') ∧
      Shows f ((Rule.loop a body).run setting enter s).2 m' from
    hrounds fuel a s m hs hfuel (Nat.le_refl _) h
  intro n
  induction n with
  | zero => exact fun _ _ _ _ hleft => absurd hleft (Nat.not_lt_zero _)
  | succ n ih =>
    intro a s m hs hleft hn h
    obtain ⟨m₁, hrun, h₁⟩ := hbody a h hs (Nat.lt_of_lt_of_le hleft hn) hnesting
    simp only [run_loop henter hadvancing a hs, Machine.rounds, hrun, ok_bind]
    cases hmore : ((body a).run setting enter s).1.2 with
    | false => exact ⟨m₁, rfl, h₁⟩
    | true =>
      have hlt := hadvancing a s hs hmore
      exact ih ((body a).run setting enter s).1.1 _ m₁ (valid_run _ henter (body a) hs) (by omega)
        (by omega) h₁

/-- A rule whose loops advance is followed by the machine, if its calls are. -/
theorem mirrors (henter : Steady enter)
    (hcall : ∀ symbol, Mirrors fuel nesting (call symbol) (enter symbol)) (rule : Rule ν α)
    (hrule : rule.Every (fun _ => True) (Advancing setting enter)) :
    Mirrors fuel nesting (rule.exec setting fuel call) (rule.run setting enter) := by
  induction rule with
  | done a => exact mirrors_look (fun _ => a) (fun _ _ => rfl) (fun _ => rfl) fun _ => rfl
  | andThen first next ih₁ ih₂ =>
    intro f s m h hs hfuel hnesting
    obtain ⟨m₁, hrun₁, h₁⟩ := ih₁ hrule.1 h hs hfuel hnesting
    have hle := left_run_le setting henter first hs
    obtain ⟨m₂, hrun₂, h₂⟩ := ih₂ _ (hrule.2 _) h₁ (valid_run _ henter first hs)
      (Nat.lt_of_le_of_lt hle hfuel) hnesting
    refine ⟨m₂, ?_, h₂⟩
    rw [exec, hrun₁]
    exact hrun₂
  | peek n =>
    exact mirrors_look (fun s => s.kindAt n) (fun _ _ => rfl) (fun _ => rfl) fun _ => rfl
  | ahead test =>
    exact mirrors_look (fun s => test s.kinds) (fun _ _ => rfl) (fun _ => rfl) fun _ => rfl
  | currentText =>
    exact mirrors_look (fun s => (s.current?.map (·.text)).getD "") (fun _ _ => rfl)
      (fun _ => rfl) fun _ => rfl
  | currentRange =>
    exact mirrors_look (·.currentRange setting) (fun _ _ => rfl) (fun _ => rfl) fun _ => rfl
  | atRecoveryPoint =>
    exact mirrors_look (·.atRecoveryPoint) (fun _ _ => rfl) (fun _ => rfl) fun _ => rfl
  | bump => exact fun f s m h _ _ _ => ⟨_, rfl, h.bump⟩
  | node kind body ih =>
    intro f s m h hs hfuel hnesting
    have hattach := State.reaches_attachPending s
    obtain ⟨m₁, hrun, h₁⟩ := ih hrule.2 (h.startNode kind) ((hattach.valid hs).of_eq rfl rfl rfl)
      (Nat.lt_of_le_of_lt (hattach.left_le hs) hfuel) hnesting
    obtain ⟨m₂, hfinish, h₂⟩ := h₁.finishNode h.skipTrivia.top
    have hbody : body.exec setting fuel call (m.startNode kind).1 (m.startNode kind).2 = _ := hrun
    refine ⟨m₂, ?_, h₂⟩
    simp only [exec, hbody, hfinish, ok_bind]
    rfl
  | group body ih =>
    intro f s m h hs hfuel hnesting
    have hattach := State.reaches_attachPending s
    obtain ⟨m₁, hrun, h₁⟩ := ih hrule h.checkpoint ((hattach.valid hs).of_eq rfl rfl rfl)
      (Nat.lt_of_le_of_lt (hattach.left_le hs) hfuel) hnesting
    exact ⟨m₁, hrun, h₁.ungroup⟩
  | enclose kind body ih =>
    intro f s m h hs hfuel hnesting
    obtain ⟨around, m₀, front, hstart, haround, h₀⟩ := h.startNodeAt kind
    obtain ⟨m₁, hrun, h₁⟩ := ih hrule.2 h₀ hs hfuel hnesting
    obtain ⟨m₂, hfinish, h₂⟩ := h₁.finishNode haround
    have hbody : body.exec setting fuel call front m₀ = _ := hrun
    refine ⟨m₂, ?_, h₂⟩
    simp only [exec, hstart, hbody, hfinish, ok_bind]
    rfl
  | within context body ih =>
    intro f s m h hs hfuel hnesting
    obtain ⟨m₁, hrun, h₁⟩ := ih hrule (h.pushContext context) (hs.of_eq rfl rfl rfl) hfuel hnesting
    have hcontexts := (reaches_run setting henter body
      { s with contexts := context :: s.contexts }).contexts
    refine ⟨_, ?_, h₁.popContext hcontexts h.contexts⟩
    simp only [exec, hrun, ok_bind]
    rfl
  | report problem => exact fun f s m h _ _ _ => ⟨_, rfl, h.report setting problem⟩
  | requireTemporal =>
    intro f s m h _ _ _
    have hreport := h.report setting .temporalDisabled
    have hsame := h.look (t := s) rfl rfl
    refine ⟨_, rfl, ?_⟩
    rw [h.state] at hreport ⊢
    simp only [run]
    split
    · exact hsame
    · exact hreport
  | admitTemporal =>
    intro f s m h _ _ _
    refine ⟨_, rfl, ?_⟩
    rw [h.state]
    simp only [run]
    split
    · exact h.look (t := { s with temporal := true }) rfl rfl
    · exact h.look rfl rfl
  | progress body ih =>
    intro f s m h hs hfuel hnesting
    obtain ⟨m₁, hrun, h₁⟩ := ih hrule h hs hfuel hnesting
    refine ⟨m₁, ?_, h₁⟩
    simp only [exec, hrun, ok_bind, h.state, h₁.state]
    rfl
  | loop a body ih => exact mirrors_loop henter hrule.1 (fun a => ih a (hrule.2 a)) a
  | call symbol => exact hcall symbol

end Rule
end RelLang
