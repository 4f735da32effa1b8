import Mathlib.Data.List.Dedup
import RelLang.Proofs.Rule.Alike

/-!
# Readings that say the same

Two readings that run alike also report alike, up to repetitions: what one of them says more often
than the other, it has said before. Reports stand at places, and the places of two texts differ, so
what is said is compared by *marks*. Rules *echo* each other if from paired states they say what
has the same marks, when of equal ones only the last is kept.

A repetition comes from a list: an item that takes nothing is tried once more where it has put
pending tokens into the tree.
-/

namespace RelLang

/-! ### Lists without repetitions -/

section

variable {μ : Type} [DecidableEq μ]

theorem dedup_union (l m : List μ) : l.dedup ∪ m = l ∪ m := by
  induction l with
  | nil => rfl
  | cons a l ih =>
    by_cases ha : a ∈ l
    · rw [List.dedup_cons_of_mem ha, ih, List.cons_union,
        List.insert_of_mem (List.mem_union_left ha m)]
    · rw [List.dedup_cons_of_notMem ha, List.cons_union, List.cons_union, ih]

theorem dedup_append_congr {l l' m m' : List μ} (hl : l.dedup = l'.dedup)
    (hm : m.dedup = m'.dedup) : (l ++ m).dedup = (l' ++ m').dedup := by
  rw [List.dedup_append, List.dedup_append, ← dedup_union l, ← dedup_union l', hl, hm]

theorem mem_of_dedup_eq {l m : List μ} (h : l.dedup = m.dedup) {a : μ} (ha : a ∈ l) : a ∈ m := by
  rw [← List.mem_dedup, ← h, List.mem_dedup]
  exact ha

end

/-! ### Two readings -/

/-- How what is said in two readings is compared: in alike states the same problem is put into words
that have the same mark. Both readings are configured alike, and all reports are kept. -/
structure Comparison (μ : Type) (setting₁ setting₂ : Setting) (text₁ text₂ : List Word) where
  mark₁ : Diagnostic → μ
  mark₂ : Diagnostic → μ
  mark_eq {s t : State} (problem : Problem) : s.words <:+ text₁ → t.words <:+ text₂ → s.Alike t →
    mark₁ (Report.said ⟨problem, s.found, s.context, s.currentRange setting₁, s.words.isEmpty⟩)
      = mark₂ (Report.said ⟨problem, t.found, t.context, t.currentRange setting₂, t.words.isEmpty⟩)
  uncapped₁ : setting₁.maxDiagnostics = none
  uncapped₂ : setting₂.maxDiagnostics = none
  mode_eq : setting₁.mode = setting₂.mode

namespace State

variable {s t u v x y : State}

/-- Alike states of the readings of two texts. -/
structure Paired (text₁ text₂ : List Word) (s t : State) : Prop where
  valid₁ : s.Valid
  valid₂ : t.Valid
  words₁ : s.words <:+ text₁
  words₂ : t.words <:+ text₂
  alike : s.Alike t
  temporal : s.temporal = t.temporal

section

variable {text₁ text₂ : List Word}

theorem Paired.of_reaches (h : Paired text₁ text₂ s t) (hs : s.Reaches u) (ht : t.Reaches v)
    (halike : u.Alike v) (htemporal : u.temporal = v.temporal) : Paired text₁ text₂ u v :=
  ⟨hs.valid h.valid₁, ht.valid h.valid₂, hs.words.trans h.words₁, ht.words.trans h.words₂, halike,
    htemporal⟩

theorem Paired.opened (h : Paired text₁ text₂ s t) :
    Paired text₁ text₂ { s.attachPending with siblings := [] }
      { t.attachPending with siblings := [] } :=
  ⟨h.valid₁.opened, h.valid₂.opened, h.words₁, h.words₂, h.alike.opened, h.temporal⟩

theorem Paired.entered (h : Paired text₁ text₂ s t) (context : Context) :
    Paired text₁ text₂ { s with contexts := context :: s.contexts }
      { t with contexts := context :: t.contexts } :=
  ⟨h.valid₁.of_eq rfl rfl rfl, h.valid₂.of_eq rfl rfl rfl, h.words₁, h.words₂,
    ⟨h.alike.input, h.alike.sifted, congrArg (context :: ·) h.alike.contexts⟩, h.temporal⟩

end

/-- Going on from `s` to `u` and from `t` to `v` said what has the same marks, without repetitions,
and the same constructs are admitted. -/
structure Echoes {μ : Type} [DecidableEq μ] (mark₁ mark₂ : Diagnostic → μ) (s t u v : State) :
    Prop where
  temporal : u.temporal = v.temporal
  said : ∃ said₁ said₂ : List Diagnostic, u.said = said₁.reverse ++ s.said ∧
    v.said = said₂.reverse ++ t.said ∧ (said₁.map mark₁).dedup = (said₂.map mark₂).dedup

namespace Echoes

variable {μ : Type} [DecidableEq μ] {mark₁ mark₂ : Diagnostic → μ}

/-- Nothing was said. -/
theorem silent (hu : u.said = s.said) (hv : v.said = t.said) (htemporal : u.temporal = v.temporal) :
    Echoes mark₁ mark₂ s t u v :=
  ⟨htemporal, [], [], hu, hv, rfl⟩

theorem symm (h : Echoes mark₁ mark₂ s t u v) : Echoes mark₂ mark₁ t s v u := by
  obtain ⟨said₁, said₂, hu, hv, hsaid⟩ := h.said
  exact ⟨h.temporal.symm, said₂, said₁, hv, hu, hsaid.symm⟩

theorem trans (h₁ : Echoes mark₁ mark₂ s t x y) (h₂ : Echoes mark₁ mark₂ x y u v) :
    Echoes mark₁ mark₂ s t u v := by
  obtain ⟨said₁, said₂, hx, hy, hsaid⟩ := h₁.said
  obtain ⟨more₁, more₂, hu, hv, hmore⟩ := h₂.said
  refine ⟨h₂.temporal, said₁ ++ more₁, said₂ ++ more₂, ?_, ?_, ?_⟩
  · rw [hu, hx, List.reverse_append, List.append_assoc]
  · rw [hv, hy, List.reverse_append, List.append_assoc]
  · rw [List.map_append, List.map_append]
    exact dedup_append_congr hsaid hmore

/-- One of the readings may say twice what the other says once. -/
theorem again (h₁ : Echoes mark₁ mark₂ s t x y) (hy : y.said <:+ v.said)
    (h₂ : Echoes mark₁ mark₂ x t u v) : Echoes mark₁ mark₂ s t u v := by
  obtain ⟨said₁, said₂, hx, hysaid, hsaid⟩ := h₁.said
  obtain ⟨more₁, more₂, hu, hv, hmore⟩ := h₂.said
  refine ⟨h₂.temporal, said₁ ++ more₁, more₂, ?_, hv, ?_⟩
  · rw [hu, hx, List.reverse_append, List.append_assoc]
  · have hsubset : said₂ ⊆ more₂ := by
      obtain ⟨others, hothers⟩ := hy
      rw [hysaid, hv, ← List.append_assoc] at hothers
      have hreverse := List.append_cancel_right hothers
      intro d hd
      rw [← List.mem_reverse, ← hreverse]
      exact List.mem_append_right _ (List.mem_reverse.mpr hd)
    have hsame : said₁.map mark₁ ⊆ more₁.map mark₁ := by
      intro m hm
      obtain ⟨d, hd, rfl⟩ := List.mem_map.mp (mem_of_dedup_eq hsaid hm)
      exact mem_of_dedup_eq hmore.symm (List.mem_map_of_mem (hsubset hd))
    rw [List.map_append, List.Subset.dedup_append_right hsame, hmore]

end Echoes

theorem said_bump (s : State) : s.bump.said = s.said ∧ s.bump.temporal = s.temporal := by
  unfold bump
  dsimp only
  split <;> exact ⟨rfl, rfl⟩

theorem Reaches.said (h : s.Reaches t) : s.said <:+ t.said := h.reports.map _

end State

open State (Paired)

namespace Rule

variable {ν α β σ μ : Type} [DecidableEq μ] {setting₁ setting₂ : Setting}
variable {text₁ text₂ : List Word} {enter₁ enter₂ : ν → State → Bool × State}

/-- From paired states the runs say the same, repetitions apart. -/
def Echo (c : Comparison μ setting₁ setting₂ text₁ text₂) (run₁ run₂ : State → α × State) : Prop :=
  ∀ s t, Paired text₁ text₂ s t → State.Echoes c.mark₁ c.mark₂ s t (run₁ s).2 (run₂ t).2

namespace Echo

variable {c : Comparison μ setting₁ setting₂ text₁ text₂}

theorem ofLooking {run₁ run₂ : State → α × State} (h₁ : ∀ s, (run₁ s).2 = s)
    (h₂ : ∀ s, (run₂ s).2 = s) : Echo c run₁ run₂ := by
  intro s t h
  rw [h₁, h₂]
  exact .silent rfl rfl h.temporal

theorem done (a : α) : Echo c ((Rule.done a).run setting₁ enter₁)
    ((Rule.done a).run setting₂ enter₂) :=
  ofLooking (fun _ => rfl) fun _ => rfl

theorem peek (n : Nat) : Echo c ((Rule.peek n).run setting₁ enter₁)
    ((Rule.peek n).run setting₂ enter₂) :=
  ofLooking (fun _ => rfl) fun _ => rfl

theorem bump : Echo c (Rule.bump.run setting₁ enter₁) (Rule.bump.run setting₂ enter₂) := by
  intro s t h
  obtain ⟨hs, hs'⟩ := State.said_bump s
  obtain ⟨ht, ht'⟩ := State.said_bump t
  exact .silent hs ht (hs'.trans (h.temporal.trans ht'.symm))

theorem report (problem : Problem) : Echo c ((Rule.report problem).run setting₁ enter₁)
    ((Rule.report problem).run setting₂ enter₂) := by
  intro s t h
  obtain ⟨_, hs⟩ := State.report_eq setting₁ problem s
  obtain ⟨_, ht⟩ := State.report_eq setting₂ problem t
  have hsaid₁ := congrArg (List.map Report.said) (State.reports_report c.uncapped₁ problem s)
  have hsaid₂ := congrArg (List.map Report.said) (State.reports_report c.uncapped₂ problem t)
  refine ⟨?_, [_], [_], hsaid₁, hsaid₂, ?_⟩
  · rw [run_report, run_report, hs, ht]
    exact h.temporal
  · rw [List.map_singleton, List.map_singleton, c.mark_eq problem h.words₁ h.words₂ h.alike]

theorem requireTemporal : Echo c (Rule.requireTemporal.run setting₁ enter₁)
    (Rule.requireTemporal.run setting₂ enter₂) := by
  have hreport : Echo c ((Rule.report .temporalDisabled).run setting₁ enter₁)
      ((Rule.report .temporalDisabled).run setting₂ enter₂) := report _
  intro s t h
  rw [Rule.run, Rule.run, ← h.temporal]
  split
  · exact .silent rfl rfl h.temporal
  · exact hreport s t h

theorem admitTemporal : Echo c (Rule.admitTemporal.run setting₁ enter₁)
    (Rule.admitTemporal.run setting₂ enter₂) := by
  intro s t h
  rw [Rule.run, Rule.run, ← c.mode_eq]
  split
  · exact .silent rfl rfl rfl
  · exact .silent rfl rfl h.temporal

theorem ite {p : Prop} [Decidable p] {yes no : Rule ν α}
    (hyes : Echo c (yes.run setting₁ enter₁) (yes.run setting₂ enter₂))
    (hno : Echo c (no.run setting₁ enter₁) (no.run setting₂ enter₂)) :
    Echo c ((if p then yes else no).run setting₁ enter₁)
      ((if p then yes else no).run setting₂ enter₂) := by
  split
  · exact hyes
  · exact hno

theorem node (kind : NodeKind) {body : Rule ν α}
    (hbody : Echo c (body.run setting₁ enter₁) (body.run setting₂ enter₂)) :
    Echo c ((Rule.node kind body).run setting₁ enter₁)
      ((Rule.node kind body).run setting₂ enter₂) := by
  intro s t h
  have hsame := hbody _ _ h.opened
  exact ⟨hsame.temporal, hsame.said⟩

theorem group {body : Rule ν α}
    (hbody : Echo c (body.run setting₁ enter₁) (body.run setting₂ enter₂)) :
    Echo c ((Rule.group body).run setting₁ enter₁) ((Rule.group body).run setting₂ enter₂) := by
  intro s t h
  have hsame := hbody _ _ h.opened
  exact ⟨hsame.temporal, hsame.said⟩

theorem enclose (kind : NodeKind) {body : Rule ν α}
    (hbody : Echo c (body.run setting₁ enter₁) (body.run setting₂ enter₂)) :
    Echo c ((Rule.enclose kind body).run setting₁ enter₁)
      ((Rule.enclose kind body).run setting₂ enter₂) := by
  intro s t h
  have hsame := hbody s t h
  exact ⟨hsame.temporal, hsame.said⟩

theorem within (context : Context) {body : Rule ν α}
    (hbody : Echo c (body.run setting₁ enter₁) (body.run setting₂ enter₂)) :
    Echo c ((Rule.within context body).run setting₁ enter₁)
      ((Rule.within context body).run setting₂ enter₂) := by
  intro s t h
  have hsame := hbody _ _ (h.entered context)
  exact ⟨hsame.temporal, hsame.said⟩

theorem progress {body : Rule ν α}
    (hbody : Echo c (body.run setting₁ enter₁) (body.run setting₂ enter₂)) :
    Echo c ((Rule.progress body).run setting₁ enter₁) ((Rule.progress body).run setting₂ enter₂) :=
  hbody

theorem ignore {rule : Rule ν α}
    (hrule : Echo c (rule.run setting₁ enter₁) (rule.run setting₂ enter₂)) :
    Echo c ((Rule.ignore rule).run setting₁ enter₁) ((Rule.ignore rule).run setting₂ enter₂) :=
  hrule

/-- The place of a token is the same in no two texts, but only a note names it. -/
theorem opener {next : ByteRange → Rule ν α} (hplace : Indifferent next)
    (hnext : ∀ r, Echo c ((next r).run setting₁ enter₁) ((next r).run setting₂ enter₂)) :
    Echo c ((Rule.andThen .currentRange next).run setting₁ enter₁)
      ((Rule.andThen .currentRange next).run setting₂ enter₂) := by
  intro s t h
  have hsame := hnext (s.currentRange setting₁) s t h
  obtain ⟨reports, hrun, hsaid⟩ := hplace setting₂ enter₂ (s.currentRange setting₁)
    (t.currentRange setting₂) t
  obtain ⟨said₁, said₂, hu, hv, hmarks⟩ := hsame.said
  show State.Echoes _ _ s t _ ((next (t.currentRange setting₂)).run setting₂ enter₂ t).2
  rw [hrun]
  exact ⟨hsame.temporal, said₁, said₂, hu, hsaid.trans hv, hmarks⟩

section

variable (henter₁ : Steady enter₁) (henter₂ : Steady enter₂)

include henter₁ henter₂

/-- Where rules run alike and echo each other, what comes behind them begins in paired states. -/
theorem paired_run {rule : Rule ν α} {s t : State}
    (halike : Alike (rule.run setting₁ enter₁) (rule.run setting₂ enter₂))
    (hecho : Echo c (rule.run setting₁ enter₁) (rule.run setting₂ enter₂))
    (h : Paired text₁ text₂ s t) :
    Paired text₁ text₂ (rule.run setting₁ enter₁ s).2 (rule.run setting₂ enter₂ t).2 :=
  h.of_reaches (reaches_run setting₁ henter₁ rule s) (reaches_run setting₂ henter₂ rule t)
    (halike s t h.valid₁ h.valid₂ h.alike).2 (hecho s t h).temporal

theorem bind {first : Rule ν α} {next : α → Rule ν β}
    (halike : Alike (first.run setting₁ enter₁) (first.run setting₂ enter₂))
    (hfirst : Echo c (first.run setting₁ enter₁) (first.run setting₂ enter₂))
    (hnext : ∀ a, Echo c ((next a).run setting₁ enter₁) ((next a).run setting₂ enter₂)) :
    Echo c ((first >>= next).run setting₁ enter₁) ((first >>= next).run setting₂ enter₂) := by
  intro s t h
  rw [run_bind, run_bind, ← (halike s t h.valid₁ h.valid₂ h.alike).1]
  exact (hfirst s t h).trans (hnext _ _ _ (paired_run henter₁ henter₂ halike hfirst h))

/-- Loops that advance go round in step. -/
theorem loop {body : σ → Rule ν (σ × Bool)} (h₁ : Advancing setting₁ enter₁ σ body)
    (h₂ : Advancing setting₂ enter₂ σ body)
    (halike : ∀ a, Alike ((body a).run setting₁ enter₁) ((body a).run setting₂ enter₂))
    (hbody : ∀ a, Echo c ((body a).run setting₁ enter₁) ((body a).run setting₂ enter₂)) (a : σ) :
    Echo c ((Rule.loop a body).run setting₁ enter₁) ((Rule.loop a body).run setting₂ enter₂) := by
  intro s t h
  induction hn : s.left using Nat.strongRecOn generalizing a s t with
  | ind n ih =>
    subst hn
    have hround := hbody a s t h
    rw [run_loop henter₁ h₁ a h.valid₁, run_loop henter₂ h₂ a h.valid₂,
      ← (halike a s t h.valid₁ h.valid₂ h.alike).1]
    split
    · next hmore =>
      exact hround.trans (ih _ (h₁ a s h.valid₁ hmore) _ _ _
        (paired_run henter₁ henter₂ (halike a) (hbody a) h) rfl)
    · exact hround

/-- Elementary rules echo each other, if their loops advance. -/
theorem ofElementary {passes : NodeKind → Bool} {rule : Rule ν α} (h : Elementary passes rule)
    (h₁ : rule.Every (fun _ => True) (Advancing setting₁ enter₁))
    (h₂ : rule.Every (fun _ => True) (Advancing setting₂ enter₂)) :
    Echo c (rule.run setting₁ enter₁) (rule.run setting₂ enter₂) := by
  induction h with
  | done a => exact done a
  | andThen hfirst _ ihfirst ihnext =>
    exact bind henter₁ henter₂ (.ofElementary henter₁ henter₂ hfirst h₁.1 h₂.1) (ihfirst h₁.1 h₂.1)
      fun a => ihnext a (h₁.2 a) (h₂.2 a)
  | peek n => exact peek n
  | atRecoveryPoint => exact ofLooking (fun _ => rfl) fun _ => rfl
  | bump => exact bump
  | node _ _ hbody => exact node _ (hbody h₁.2 h₂.2)
  | report _ => exact report _
  | loop a hbody ihbody =>
    exact loop henter₁ henter₂ h₁.1 h₂.1
      (fun a => .ofElementary henter₁ henter₂ (hbody a) (h₁.2 a) (h₂.2 a))
      (fun a => ihbody a (h₁.2 a) (h₂.2 a)) a

theorem skipToken (problem : Problem) :
    Echo c ((Rule.skipToken problem).run setting₁ enter₁)
      ((Rule.skipToken problem).run setting₂ enter₂) :=
  bind henter₁ henter₂ (.report problem) (report problem) fun _ =>
    bind henter₁ henter₂ (.bind henter₁ henter₂ (.peek 0) fun _ => .done _)
      (ofLooking (fun _ => rfl) fun _ => rfl) fun _ =>
    ite (node _ bump) (done ())

end

end Echo

/-! ### Lists -/

section

variable {c : Comparison μ setting₁ setting₂ text₁ text₂}

/-- Both rounds say the same. Or one of them takes nothing and asks for another round, and the other
one says at least what it has said. -/
def RoundsEcho (c : Comparison μ setting₁ setting₂ text₁ text₂)
    (round₁ round₂ : State → Bool × State) : Prop :=
  ∀ s t, Paired text₁ text₂ s t →
    ((round₁ s).1 = (round₂ t).1 ∧ Paired text₁ text₂ (round₁ s).2 (round₂ t).2 ∧
      State.Echoes c.mark₁ c.mark₂ s t (round₁ s).2 (round₂ t).2) ∨
    ((round₁ s).1 = true ∧ Paired text₁ text₂ (round₁ s).2 t ∧
      ∃ y, State.Echoes c.mark₁ c.mark₂ s t (round₁ s).2 y ∧ y.said <:+ (round₂ t).2.said) ∨
    ((round₂ t).1 = true ∧ Paired text₁ text₂ s (round₂ t).2 ∧
      ∃ x, State.Echoes c.mark₁ c.mark₂ s t x (round₂ t).2 ∧ x.said <:+ (round₁ s).2.said)

theorem said_round_suffix {setting : Setting} {enter : ν → State → Bool × State}
    (henter : Steady enter) {body : Rule ν Bool} (h : Moves setting enter body) {s : State}
    (hs : s.Valid) :
    (body.run setting enter s).2.said <:+ ((Rule.repeated body).run setting enter s).2.said := by
  rw [run_repeated henter h hs]
  split
  · exact (reaches_run setting henter (Rule.repeated body) _).said
  · exact List.suffix_refl _

/-- A round that one of the readings has alone only repeats what is said anyway. -/
theorem RoundsEcho.repeated (henter₁ : Steady enter₁) (henter₂ : Steady enter₂)
    {body : Rule ν Bool} (h₁ : Moves setting₁ enter₁ body) (h₂ : Moves setting₂ enter₂ body)
    (hround : RoundsEcho c (body.run setting₁ enter₁) (body.run setting₂ enter₂)) :
    Echo c ((Rule.repeated body).run setting₁ enter₁)
      ((Rule.repeated body).run setting₂ enter₂) := by
  intro s t h
  induction hn : s.left + t.left using Nat.strongRecOn generalizing s t with
  | ind n ih =>
    subst hn
    have hs := h.valid₁
    have ht := h.valid₂
    rcases hround s t h with ⟨hvalue, hnext, hsame⟩ | ⟨hmore, hnext, y, hsame, hy⟩ |
      ⟨hmore, hnext, x, hsame, hx⟩
    · rw [run_repeated henter₁ h₁ hs, run_repeated henter₂ h₂ ht, ← hvalue]
      split
      · next hmore =>
        have hlt := Nat.add_lt_add (h₁ s hs hmore) (h₂ t ht (hvalue ▸ hmore))
        exact hsame.trans (ih _ hlt _ _ hnext rfl)
      · exact hsame
    · have hrest := ih _ (Nat.add_lt_add_right (h₁ s hs hmore) _) _ _ hnext rfl
      rw [run_repeated henter₁ h₁ hs, if_pos hmore]
      exact hsame.again (hy.trans (said_round_suffix henter₂ h₂ ht)) hrest
    · have hrest := ih _ (Nat.add_lt_add_left (h₂ t ht hmore) _) _ _ hnext rfl
      rw [run_repeated henter₂ h₂ ht, if_pos hmore]
      exact (hsame.symm.again (hx.trans (said_round_suffix henter₁ h₁ hs)) hrest.symm).symm

/-- An item that takes no token of the input has only attached what was pending, and reported. -/
theorem AllOrNothing.paired_of_input_eq (henter₁ : Steady enter₁) (henter₂ : Steady enter₂)
    {item : Rule ν Unit} (hidle : AllOrNothing setting₂ enter₂ item)
    (halike : Alike (item.run setting₁ enter₁) (item.run setting₂ enter₂))
    (hecho : Echo c (item.run setting₁ enter₁) (item.run setting₂ enter₂)) {s t : State}
    (h : Paired text₁ text₂ s t) (hinput : (item.run setting₁ enter₁ s).2.input = s.input) :
    Paired text₁ text₂ (item.run setting₁ enter₁ s).2 t := by
  have hattach : Paired text₁ text₂ s t.attachPending :=
    h.of_reaches (.refl s) (State.reaches_attachPending t)
      (h.alike.trans (State.alike_attachPending h.valid₂)) h.temporal
  obtain ⟨reports, hsame⟩ := hidle.idle_of_input_eq henter₂ halike h.valid₁ h.valid₂ h.alike hinput
  refine h.of_reaches (reaches_run setting₁ henter₁ item s) (.refl t)
    (hidle.alike_of_input_eq henter₂ halike h.valid₁ h.valid₂ h.alike hinput) ?_
  have htemporal := (hecho s t.attachPending hattach).temporal
  rw [hsame] at htemporal
  exact htemporal

/-- Where an item has taken nothing, the round goes on from it. -/
theorem said_suffix_itemsRound {setting : Setting} {enter : ν → State → Bool × State}
    (henter : Steady enter) (code : Code) (u : State) :
    u.said <:+ (if u.atRecoveryPoint then (false, u)
      else (true, ((skipToken (.listItem code)).run setting enter u).2)).2.said := by
  split
  · exact List.suffix_refl _
  · exact (reaches_run setting henter (skipToken (.listItem code)) u).said

/-- An item that takes no token says the same wherever it is tried, so what is said once more has
been said. -/
theorem roundsEcho_items (henter₁ : Steady enter₁) (henter₂ : Steady enter₂) (closer : Punct)
    (code : Code) {item : Rule ν Unit} (hidle : AllOrNothing setting₂ enter₂ item)
    (halike : Alike (item.run setting₁ enter₁) (item.run setting₂ enter₂))
    (hecho : Echo c (item.run setting₁ enter₁) (item.run setting₂ enter₂)) :
    RoundsEcho c ((itemsRound closer code item).run setting₁ enter₁)
      ((itemsRound closer code item).run setting₂ enter₂) := by
  intro s t h
  have hpaired := Echo.paired_run henter₁ henter₂ halike hecho h
  have hsame := hecho s t h
  have hstays := hidle.paired_of_input_eq henter₁ henter₂ halike hecho h
  have hskip : Echo c ((skipToken (.listItem code)).run setting₁ enter₁)
      ((skipToken (.listItem code)).run setting₂ enter₂) := .skipToken henter₁ henter₂ _
  rw [run_itemsRound, run_itemsRound, ← h.alike.kindAt_eq]
  split
  · exact .inl ⟨rfl, h, .silent rfl rfl h.temporal⟩
  by_cases hsame₁ : (item.run setting₁ enter₁ s).2.left = s.left
  · have hinput := input_eq_of_left_eq henter₁ item h.valid₁ hsame₁
    by_cases hsame₂ : (item.run setting₂ enter₂ t).2.left = t.left
    · rw [if_neg (not_not.mpr hsame₁), if_neg (not_not.mpr hsame₂),
        hpaired.alike.atRecoveryPoint_eq]
      split
      · exact .inl ⟨rfl, hpaired, hsame⟩
      · have hskipped := Echo.paired_run henter₁ henter₂ (.skipToken henter₁ henter₂ _) hskip hpaired
        exact .inl ⟨rfl, hskipped, hsame.trans (hskip _ _ hpaired)⟩
    · have hidle := hstays hinput
      have hback := h.of_reaches (.refl s) (reaches_run setting₂ henter₂ item t)
        (h.alike.trans (hidle.alike.symm.trans hpaired.alike))
        (h.temporal.trans (hidle.temporal.symm.trans hpaired.temporal))
      rw [if_pos hsame₂, if_neg (not_not.mpr hsame₁)]
      exact .inr (.inr ⟨rfl, hback, _, hsame, said_suffix_itemsRound henter₁ code _⟩)
  · rw [if_pos hsame₁]
    by_cases hsame₂ : (item.run setting₂ enter₂ t).2.left = t.left
    · have hinput := input_eq_of_left_eq henter₂ item h.valid₂ hsame₂
      have hidle := hstays (hpaired.alike.input.trans (hinput.trans h.alike.input.symm))
      rw [if_neg (not_not.mpr hsame₂)]
      exact .inr (.inl ⟨rfl, hidle, _, hsame, said_suffix_itemsRound henter₂ code _⟩)
    · rw [if_pos hsame₂]
      exact .inl ⟨rfl, hpaired, hsame⟩

end

end Rule
end RelLang
