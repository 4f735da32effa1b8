import RelLang.Proofs.Rule.Alike
import RelLang.Proofs.Rule.Flag
import RelLang.Proofs.Rule.Invariant

/-!
# What skipping spares

A node of skipped text is *spared* if nothing in it can begin a paragraph, or if it is what a
text that is nested too deeply was skipped into. The top level is open wherever a rule of a
module is at work, so a token that can begin a paragraph is a recovery point; what is skipped
where none has been reached, and only as far as the next one, is spared.
-/

namespace RelLang

/-- None of the tokens can begin a paragraph. -/
def NoStart (ls : List (TokenKind × String)) : Prop := ∀ l ∈ ls, l.1 ∉ Context.paragraphStarts

theorem NoStart.append {ls ms : List (TokenKind × String)} (hls : NoStart ls) (hms : NoStart ms) :
    NoStart (ls ++ ms) := by
  intro l hl
  rcases List.mem_append.mp hl with hl | hl
  · exact hls l hl
  · exact hms l hl

/-- What begins a paragraph is not skipped by the reading as a whole. -/
theorem Context.isSignificant_of_mem_paragraphStarts :
    ∀ k ∈ Context.paragraphStarts, k.isSignificant = true := by
  decide

theorem noStart_of_not_significant {ts : List Token}
    (h : ∀ t ∈ ts, t.kind.isSignificant = false) : NoStart (ts.map Token.toPair) := by
  intro l hl hstart
  obtain ⟨t, ht, rfl⟩ := List.mem_map.mp hl
  have hsignificant := Context.isSignificant_of_mem_paragraphStarts _ hstart
  rw [show t.toPair.1 = t.kind from rfl, h t ht] at hsignificant
  cases hsignificant

/-- A node of skipped text has no beginning of a paragraph in it, or it begins where nesting was
reported to be too deep. -/
def Spared (stop : Nat) (reports : List Report) (kind : NodeKind) (children : List Tree)
    (behind : List (TokenKind × String)) : Prop :=
  kind = .error → NoStart (Tree.leavesAll children) ∨
    ∃ r ∈ reports, r.problem = .tooDeep ∧ BeginsAt stop r.range children behind

/-- Reports are never taken back. -/
theorem Spared.mono {stop : Nat} {reports reports' : List Report} {kind : NodeKind}
    {children : List Tree} {behind : List (TokenKind × String)}
    (h : Spared stop reports kind children behind) (hsubset : reports ⊆ reports') :
    Spared stop reports' kind children behind := by
  intro hkind
  rcases h hkind with hclear | ⟨r, hr, hblamed⟩
  · exact .inl hclear
  · exact .inr ⟨r, hsubset hr, hblamed⟩

theorem Spared.of_ne {stop : Nat} {reports : List Report} {kind : NodeKind}
    (hkind : (kind != .error) = true) (children : List Tree)
    (behind : List (TokenKind × String)) : Spared stop reports kind children behind :=
  fun herror => by simp [herror] at hkind

namespace State

variable {setting : Setting} {s t : State}

/-- No paragraph begins with the current token. -/
def Clear (s : State) : Prop := ∀ k, s.kindAt 0 = some k → k ∉ Context.paragraphStarts

/-- Under the top level every beginning of a paragraph is a recovery point. -/
theorem clear_of_not_recovered (htop : .topLevel ∈ s.contexts) (h : s.atRecoveryPoint = false) :
    s.Clear := by
  intro k hk hstart
  cases hw : s.words with
  | nil => simp [kindAt, hw] at hk
  | cons w ws =>
    have hkind : w.token.kind = k := by simpa [kindAt, hw] using hk
    have hblocked : s.atRecoveryPoint = true := by
      rw [atRecoveryPoint, current?, hw]
      exact List.any_eq_true.mpr ⟨.topLevel, htop, List.contains_iff_mem.mpr (hkind ▸ hstart)⟩
    rw [h] at hblocked
    cases hblocked

/-- All nodes so far are spared, the tokens to come stand where they should, and the top level is
open. -/
structure Spares (setting : Setting) (s : State) : Prop where
  placed : ∀ {t us}, t :: us <:+ s.rest → t.start + Token.size (t :: us) = setting.stop
  top : .topLevel ∈ s.contexts
  sound : s.Sound (Spared setting.stop s.reports)

/-- What has to be known of the tokens to come and the open contexts. -/
def Sparable (stop : Nat) (rest : List Token) (contexts : List Context) : Prop :=
  (∀ t us, t :: us <:+ rest → t.start + Token.size (t :: us) = stop) ∧ .topLevel ∈ contexts

theorem spares_iff : s.Spares setting ↔ s.Judged (Spared setting.stop)
    fun rest _ contexts => Sparable setting.stop rest contexts :=
  ⟨fun h => ⟨⟨fun _ _ => h.placed, h.top⟩, h.sound⟩,
    fun h => ⟨h.known.1 _ _, h.known.2, h.sound⟩⟩

/-- A skipped token is none that begins a paragraph. -/
theorem spared_skipped {stop : Nat} {reports : List Report} (ts : List Token)
    (behind : List (TokenKind × String)) :
    Tree.EverywhereAll (Spared stop reports) (ts.map Token.skippedTree) behind := by
  induction ts with
  | nil => trivial
  | cons t ts ih =>
    refine ⟨?_, ih⟩
    unfold Token.skippedTree
    split
    · next hkind =>
      refine ⟨fun _ => .inl ?_, trivial, trivial⟩
      intro l hl
      rw [show l = t.toPair by simpa [Tree.leavesAll] using hl, show t.toPair.1 = t.kind from rfl,
        hkind]
      decide
    · trivial

/-- A node around all trees. -/
theorem Spares.wrap {kind : NodeKind} (h : s.Spares setting)
    (hkind : Spared setting.stop s.reports kind s.siblings.reverse (s.rest.map Token.toPair)) :
    Spares setting { s with siblings := [.node kind s.siblings.reverse] } :=
  ⟨h.placed, h.top, h.sound.wrap hkind⟩

end State

theorem judgement_spared (stop : Nat) :
    Judgement (Spared stop) fun rest _ contexts => State.Sparable stop rest contexts where
  mono hsubset h := h.mono hsubset
  plain _ children behind hkind := .of_ne hkind children behind
  skipped _ := State.spared_skipped _ _
  kept h hrest _ hcontexts := ⟨fun t us hus => h.1 t us (hus.trans hrest), hcontexts h.2⟩

theorem invariant_spares (setting : Setting) : Invariant setting (State.Spares setting) := by
  have hjudged := (judgement_spared setting.stop).invariant setting
  have hsame : State.Spares setting = State.Judged (Spared setting.stop) _ :=
    funext fun s => propext State.spares_iff
  rwa [hsame]

namespace Rule

variable {ν : Type} {setting : Setting} {enter : ν → State → Bool × State} {s : State}

/-- Keeps all nodes spared. -/
abbrev Sparing (setting : Setting) {α : Type} (run : State → α × State) : Prop :=
  Maintains (State.Spares setting) run

/-! ### Nodes of skipped text -/

theorem spares_errorNode (henter : Steady enter) {body : Rule ν Unit}
    (hbody : Sparing setting (body.run setting enter)) (hs : s.Valid) (h : s.Spares setting)
    {t : State} (ht : (body.run setting enter { s.attachPending with siblings := [] }).2 = t)
    (hspared : Spared setting.stop t.reports .error t.siblings.reverse (t.rest.map Token.toPair)) :
    ((Rule.node .error body).run setting enter s).2.Spares setting := by
  subst ht
  have hI := invariant_spares setting
  have hreach := reaches_run setting henter body { s.attachPending with siblings := [] }
  exact hI.behind (hI.attachPending h) (hreach.wrap .error)
    ((hbody _ hs.opened (hI.opened h)).wrap hspared)

/-- What is skipped of a text up to a stop token or a recovery point. -/
def skippedText (stops : List TokenKind) : Rule ν Unit := do
  bump
  repeated do
    let stop ← currentIn stops
    let recovered ← atRecoveryPoint
    let more := !stop && !recovered
    when more bump
    return more

theorem skipUntil_eq (problem : Problem) (stops : List TokenKind) :
    (skipUntil problem stops : Rule ν Unit) = (do
      report problem
      let ended ← atEnd
      when (!ended) (node .error (skippedText stops))) := rfl

theorem elementary_skippedText (passes : NodeKind → Bool) (stops : List TokenKind) :
    Elementary passes (skippedText stops : Rule ν Unit) :=
  .bind .bump fun _ => .repeated <| .bind .currentIn fun _ => .bind .atRecoveryPoint fun _ =>
    .bind (.when .bump) fun _ => .pure _

theorem leaves_bump {w : Word} {ws : List Word} (hw : s.words = w :: ws) :
    Tree.leavesAll s.bump.siblings.reverse
      = Tree.leavesAll s.siblings.reverse ++ (s.pending.map Token.toPair ++ [w.token.toPair]) := by
  rw [State.bump_of_words_eq_cons hw]
  simp [State.attachPending, Tree.leavesAll_map_skippedTree]

/-- Some first token, and behind it none that begins a paragraph. -/
def SkipsFrom (first : TokenKind × String) (s : State) : Prop :=
  .topLevel ∈ s.contexts ∧
    ∃ others, Tree.leavesAll s.siblings.reverse = first :: others ∧ NoStart others

theorem SkipsFrom.bump {first : TokenKind × String} (h : SkipsFrom first s) (hs : s.Valid)
    (hclear : s.Clear) : SkipsFrom first s.bump := by
  obtain ⟨htop, others, hleaves, hothers⟩ := h
  have hpending := noStart_of_not_significant hs.pending
  refine ⟨(State.reaches_bump s).contexts ▸ htop, ?_⟩
  cases hw : s.words with
  | nil =>
    rw [State.bump_of_words_eq_nil hw, State.leavesAll_attachPending, hleaves]
    exact ⟨_, rfl, hothers.append hpending⟩
  | cons w ws =>
    have hcurrent : NoStart [w.token.toPair] := by
      intro l hl
      rw [List.mem_singleton.mp hl]
      exact hclear w.token.kind (by rw [State.kindAt, hw]; rfl)
    rw [leaves_bump hw, hleaves]
    exact ⟨_, rfl, hothers.append (hpending.append hcurrent)⟩

/-- The rule takes the current token, and behind it none that begins a paragraph, where nothing was
read or pending. -/
def Skips (setting : Setting) (enter : ν → State → Bool × State) (body : Rule ν Unit) : Prop :=
  ∀ (s : State) (w : Word) (ws : List Word), s.Valid → .topLevel ∈ s.contexts → s.siblings = [] →
    s.pending = [] → s.words = w :: ws → SkipsFrom w.token.toPair (body.run setting enter s).2

theorem skipsFrom_bump (htop : .topLevel ∈ s.contexts) (hempty : s.siblings = [])
    (hpending : s.pending = []) {w : Word} {ws : List Word} (hw : s.words = w :: ws) :
    SkipsFrom w.token.toPair s.bump := by
  refine ⟨(State.reaches_bump s).contexts ▸ htop, [], ?_, nofun⟩
  rw [leaves_bump hw, hempty, hpending]
  rfl

theorem skips_bump : Skips setting enter (.bump : Rule ν Unit) :=
  fun _ _ _ _ htop hempty hpending hw => skipsFrom_bump htop hempty hpending hw

/-- Skipping goes on only in front of what is no recovery point. -/
theorem skips_skippedText (henter : Steady enter) (stops : List TokenKind) :
    Skips setting enter (skippedText stops : Rule ν Unit) := by
  have hround (first : TokenKind × String) :
      Maintains (SkipsFrom first) ((skipRound stops : Rule ν Bool).run setting enter) := by
    intro s hs h
    simp only [skipRound, run_bind, run_currentIn, run_atRecoveryPoint, run_when, run_bump, run_pure]
    split
    · next hmore =>
      simp only [Bool.and_eq_true, Bool.not_eq_true'] at hmore
      exact h.bump hs (State.clear_of_not_recovered h.1 hmore.2)
    · exact h
  intro s w ws hs htop hempty hpending hw
  exact Maintains.repeated henter (fun _ h => h) (hround _) s.bump
    ((State.reaches_bump s).valid hs) (skipsFrom_bump htop hempty hpending hw)

/-- A problem is reported, and text is skipped if there is any. -/
theorem run_skip (problem : Problem) (body : Rule ν Unit) (s : State) :
    (Rule.run setting enter (do
      Rule.report problem
      let ended ← atEnd
      when (!ended) body) s).2
      = if s.words = [] then s.report setting problem
        else (body.run setting enter (s.report setting problem)).2 := by
  have hkind : (s.report setting problem).kindAt 0 = s.kindAt 0 := by
    rw [State.kindAt, State.report_words, State.kindAt]
  simp only [run_bind, run_report, run_atEnd, hkind]
  cases hw : s.words with
  | nil => simp [State.kindAt, hw]
  | cons w ws => simp [State.kindAt, hw]

/-- Text that is skipped from a token on that begins no paragraph. -/
theorem spares_skip (henter : Steady enter) (problem : Problem) {body : Rule ν Unit}
    (hbody : Sparing setting (body.run setting enter)) (hskips : Skips setting enter body)
    (hs : s.Valid) (h : s.Spares setting) (hclear : s.Clear) :
    (Rule.run setting enter (do
      Rule.report problem
      let ended ← atEnd
      when (!ended) (Rule.node .error body)) s).2.Spares setting := by
  have hvalid := (State.reaches_report setting problem s).valid hs
  have hreported := (invariant_spares setting).report problem h
  rw [run_skip]
  split
  · exact hreported
  · next hsome =>
    obtain ⟨w, ws, hw⟩ := List.exists_cons_of_ne_nil hsome
    refine spares_errorNode henter hbody hvalid hreported rfl fun _ => .inl ?_
    obtain ⟨-, others, hleaves, hothers⟩ := hskips _ w ws hvalid.opened hreported.top rfl rfl
      ((State.report_words setting problem s).trans hw)
    rw [hleaves]
    intro l hl
    rcases List.mem_cons.mp hl with rfl | hl
    · exact hclear w.token.kind (by rw [State.kindAt, hw]; rfl)
    · exact hothers l hl

theorem spares_skipToken (henter : Steady enter) (problem : Problem) (hs : s.Valid)
    (h : s.Spares setting) (hclear : s.Clear) :
    ((skipToken problem).run setting enter s).2.Spares setting :=
  spares_skip henter problem (fun _ _ h => (invariant_spares setting).bump h) skips_bump hs h hclear

theorem spares_skipUntil (henter : Steady enter) (problem : Problem) (stops : List TokenKind)
    (hs : s.Valid) (h : s.Spares setting) (hclear : s.Clear) :
    ((skipUntil problem stops).run setting enter s).2.Spares setting :=
  spares_skip henter problem
    ((invariant_spares setting).elementary henter (elementary_skippedText _ stops))
    (skips_skippedText henter stops) hs h hclear

/-- A list skips a token only where no paragraph begins. -/
theorem sparing_items (henter : Steady enter) (closer : Punct) (code : Code)
    {item : Rule ν Unit} (hitem : Sparing setting (item.run setting enter)) :
    Sparing setting ((items closer code item).run setting enter) :=
  .items henter (fun _ h => (invariant_spares setting).stall h) closer code hitem
    fun _ hs h hblocked =>
      spares_skipToken henter _ hs h (State.clear_of_not_recovered h.top hblocked)

end Rule
end RelLang
