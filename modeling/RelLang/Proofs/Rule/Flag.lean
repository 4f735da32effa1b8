import RelLang.Proofs.Rule.Invariant
import RelLang.Proofs.Rule.Take
import RelLang.Proofs.Token.Lexer

/-!
# Skipped text is reported

A node of skipped text is *flagged* if something is reported about its first token, and if that
is an invalid token in a node of its own, that it is invalid. Every rule keeps all nodes
flagged that makes nodes of skipped text only right behind a report, and out of one token at
least: the token reported is then the first one in the node, whatever was skipped in front
of it.
-/

namespace RelLang

theorem Tree.bytes_map_toPair (ts : List Token) : bytes (ts.map Token.toPair) = Token.size ts := by
  rw [bytes, List.map_map]
  rfl

/-- The range is that of the first token of a node. `stop` is the offset behind the text. -/
def BeginsAt (stop : Nat) (range : ByteRange) (children : List Tree)
    (behind : List (TokenKind × String)) : Prop :=
  ∃ first others, Tree.leavesAll children = first :: others ∧
    range = .ofLength (stop - Tree.bytes (first :: others ++ behind)) first.2.utf8ByteSize

/-- A node of skipped text has a first token, and there is a report about it. `stop` is the offset
behind the text. -/
def Flagged (stop : Nat) (reports : List Report) (kind : NodeKind) (children : List Tree)
    (behind : List (TokenKind × String)) : Prop :=
  kind = .error → ∃ first others, Tree.leavesAll children = first :: others ∧
    ∃ r ∈ reports,
      r.range = .ofLength (stop - Tree.bytes (first :: others ++ behind)) first.2.utf8ByteSize ∧
      ((∃ text, children = [.token .invalid text]) → r.problem.code.toClass = .lexical)

/-- Reports are never taken back. -/
theorem Flagged.mono {stop : Nat} {reports reports' : List Report} {kind : NodeKind}
    {children : List Tree} {behind : List (TokenKind × String)}
    (h : Flagged stop reports kind children behind) (hsubset : reports ⊆ reports') :
    Flagged stop reports' kind children behind := by
  intro hkind
  obtain ⟨first, others, hleaves, r, hr, hrange, hclass⟩ := h hkind
  exact ⟨first, others, hleaves, r, hsubset hr, hrange, hclass⟩

theorem Flagged.of_ne {stop : Nat} {reports : List Report} {kind : NodeKind}
    (hkind : (kind != .error) = true) (children : List Tree)
    (behind : List (TokenKind × String)) : Flagged stop reports kind children behind :=
  fun herror => by simp [herror] at hkind

namespace State

variable {setting : Setting} {s t : State}

/-- All nodes so far are flagged, the tokens to come stand where they should, and the invalid ones
among them have been reported. -/
structure Flags (setting : Setting) (s : State) : Prop where
  placed : ∀ {t us}, t :: us <:+ s.rest → t.start + Token.size (t :: us) = setting.stop
  lexical : ∀ t ∈ s.rest, t.kind = .invalid → Report.ofInvalid t ∈ s.reports
  sound : s.Sound (Flagged setting.stop s.reports)

/-- What has to be known of the tokens to come and the reports. -/
def Flaggable (stop : Nat) (rest : List Token) (reports : List Report) : Prop :=
  (∀ t us, t :: us <:+ rest → t.start + Token.size (t :: us) = stop) ∧
    ∀ t ∈ rest, t.kind = .invalid → Report.ofInvalid t ∈ reports

theorem flags_iff : s.Flags setting ↔ s.Judged (Flagged setting.stop)
    fun rest reports _ => Flaggable setting.stop rest reports :=
  ⟨fun h => ⟨⟨fun _ _ => h.placed, h.lexical⟩, h.sound⟩,
    fun h => ⟨h.known.1 _ _, h.known.2, h.sound⟩⟩

/-- Skipped tokens are in nodes that are flagged. -/
theorem flagged_skipped {stop : Nat} {reports : List Report} {ts behind : List Token}
    (h : Flaggable stop (ts ++ behind) reports) :
    Tree.EverywhereAll (Flagged stop reports) (ts.map Token.skippedTree)
      (behind.map Token.toPair) := by
  obtain ⟨hplaced, hlexical⟩ := h
  induction ts with
  | nil => trivial
  | cons t ts ih =>
    refine ⟨?_, ih (fun u us hu => hplaced u us (hu.trans (List.suffix_cons t _)))
      fun u hu => hlexical u (List.mem_cons_of_mem t hu)⟩
    rw [Tree.leavesAll_map_skippedTree]
    unfold Token.skippedTree
    split
    · next hkind =>
      refine ⟨fun _ => ⟨t.toPair, [], rfl, Report.ofInvalid t, ?_, ?_, ?_⟩, trivial, trivial⟩
      · exact hlexical t List.mem_cons_self hkind
      · have hbytes : Tree.bytes ([t.toPair] ++ (ts.map Token.toPair ++ behind.map Token.toPair))
            = Token.size (t :: ts ++ behind) := by
          rw [← Tree.bytes_map_toPair, List.map_append]
          rfl
        have hplace : t.start + Token.size (t :: ts ++ behind) = stop :=
          hplaced t _ (List.suffix_refl _)
        rw [hbytes, ← hplace, Nat.add_sub_cancel]
        rfl
      · exact fun _ => LexicalFault.toClass_code (.ofText t.text)
    · trivial

/-- A node around all trees. -/
theorem Flags.wrap {kind : NodeKind} (h : s.Flags setting)
    (hkind : Flagged setting.stop s.reports kind s.siblings.reverse (s.rest.map Token.toPair)) :
    Flags setting { s with siblings := [.node kind s.siblings.reverse] } :=
  ⟨h.placed, h.lexical, h.sound.wrap hkind⟩

/-- What has taken a token where nothing was read or pending begins with the current one. -/
theorem Reaches.leaves_eq_cons (hr : s.Reaches t) (hs : s.Valid) (hempty : s.siblings = [])
    (hpending : s.pending = []) (htook : t.left < s.left) :
    ∃ w ws others, s.words = w :: ws ∧ s.rest = w.token :: (w.behind ++ Word.tokens ws) ∧
      Tree.leavesAll t.siblings.reverse = w.token.toPair :: others ∧
      w.token.toPair :: others ++ t.rest.map Token.toPair = s.rest.map Token.toPair := by
  have hrest : s.rest = Word.tokens s.words := by rw [State.rest, hpending, List.nil_append]
  have hleaves : Tree.leavesAll t.siblings.reverse ++ t.rest.map Token.toPair
      = s.rest.map Token.toPair := by
    have h := hr.leaves
    rwa [State.leaves, State.leaves, hempty] at h
  rw [(hr.valid hs).left_eq, hs.left_eq] at htook
  obtain ⟨w, ws, hw⟩ : ∃ w ws, s.words = w :: ws := by
    refine List.exists_cons_of_ne_nil fun hnil => ?_
    rw [hrest, hnil] at htook
    exact absurd htook (Nat.not_lt_zero _)
  have hcons : s.rest = w.token :: (w.behind ++ Word.tokens ws) := by
    rw [hrest, hw, Word.tokens_cons]
  obtain ⟨first, others, hchildren⟩ :
      ∃ first others, Tree.leavesAll t.siblings.reverse = first :: others := by
    refine List.exists_cons_of_ne_nil fun hnil => ?_
    rw [hnil, List.nil_append] at hleaves
    have hlength := congrArg List.length hleaves
    rw [List.length_map, List.length_map] at hlength
    omega
  have hfirst : first = w.token.toPair := by
    rw [hchildren, hcons] at hleaves
    exact (List.cons.inj hleaves).1
  subst hfirst
  rw [hchildren] at hleaves
  exact ⟨w, ws, others, hw, hcons, hchildren, hleaves⟩

/-- What has taken a token where nothing was read or pending has the range of the current one at
its beginning. -/
theorem Reaches.beginsAt (hr : s.Reaches t) (hs : s.Valid)
    (hplaced : ∀ {t us}, t :: us <:+ s.rest → t.start + Token.size (t :: us) = setting.stop)
    (hempty : s.siblings = []) (hpending : s.pending = []) (htook : t.left < s.left) :
    BeginsAt setting.stop (s.currentRange setting) t.siblings.reverse
      (t.rest.map Token.toPair) := by
  obtain ⟨w, ws, others, hw, hcons, hchildren, hleaves⟩ :=
    hr.leaves_eq_cons hs hempty hpending htook
  have hplace : w.token.start + Token.size s.rest = setting.stop := by
    rw [hcons]
    exact hplaced ⟨[], hcons.symm⟩
  refine ⟨w.token.toPair, others, hchildren, ?_⟩
  rw [hleaves, Tree.bytes_map_toPair, ← hplace, Nat.add_sub_cancel, currentRange, current?, hw]
  rfl

/-- A node that begins with a token that has been reported is flagged. -/
theorem Flags.flagged_error (hs : s.Valid) (h : s.Flags setting) (hr : s.Reaches t)
    (hempty : s.siblings = []) (hpending : s.pending = [])
    (hreported : ∃ r ∈ s.reports, r.range = s.currentRange setting) (htook : t.left < s.left) :
    Flagged setting.stop t.reports .error t.siblings.reverse (t.rest.map Token.toPair) := by
  intro _
  obtain ⟨first, others, hchildren, hfirst⟩ := hr.beginsAt hs h.placed hempty hpending htook
  obtain ⟨r, hmem, hrange⟩ := hreported
  refine ⟨first, others, hchildren, r, hr.reports.subset hmem, hrange.trans hfirst, ?_⟩
  rintro ⟨text, hsingle⟩
  exact absurd hsingle (hr.siblings_ne_invalid hs hempty hpending text)

end State

theorem judgement_flagged (stop : Nat) :
    Judgement (Flagged stop) fun rest reports _ => State.Flaggable stop rest reports where
  mono hsubset h := h.mono hsubset
  plain _ children behind hkind := .of_ne hkind children behind
  skipped h := State.flagged_skipped h
  kept h hrest hreports _ :=
    ⟨fun t us hus => h.1 t us (hus.trans hrest),
      fun t ht hkind => hreports (h.2 t (hrest.subset ht) hkind)⟩

theorem invariant_flags (setting : Setting) : Invariant setting (State.Flags setting) := by
  have hjudged := (judgement_flagged setting.stop).invariant setting
  have hsame : State.Flags setting = State.Judged (Flagged setting.stop) _ :=
    funext fun s => propext State.flags_iff
  rwa [hsame]

namespace Rule

variable {ν α β σ : Type} {setting : Setting} {enter : ν → State → Bool × State}

/-- Keeps all nodes flagged. -/
abbrev Flagging (setting : Setting) (run : State → α × State) : Prop :=
  Maintains (State.Flags setting) run

/-! ### Nodes of skipped text -/

/-- What is skipped right behind a report begins with the token that is reported. -/
theorem flags_errorNode (henter : Steady enter) {body : Rule ν α}
    (hbody : Flagging setting (body.run setting enter)) {s : State} (hs : s.Valid)
    (h : s.Flags setting) (hreported : ∃ r ∈ s.reports, r.range = s.currentRange setting)
    (htakes : TakesFrom setting enter s body) :
    ((Rule.node .error body).run setting enter s).2.Flags setting := by
  have hI := invariant_flags setting
  have hreach := reaches_run setting henter body { s.attachPending with siblings := [] }
  have hopened := hI.opened h
  refine hI.behind (hI.attachPending h) (hreach.wrap .error)
    ((hbody _ hs.opened hopened).wrap ?_)
  exact hopened.flagged_error hs.opened hreach rfl rfl hreported (htakes _ hs.opened rfl)

/-- Without a cap a report is kept. -/
theorem kept_report (hfull : setting.maxDiagnostics = none)
    (problem : Problem) (s : State) : ∃ r ∈ (s.report setting problem).reports,
      r.problem = problem ∧ r.range = (s.report setting problem).currentRange setting := by
  refine ⟨⟨problem, s.found, s.context, s.currentRange setting, s.words.isEmpty⟩, ?_, rfl, ?_⟩
  · rw [State.reports_report hfull]
    exact List.mem_cons_self
  · rw [State.currentRange, State.current?, State.currentRange, State.current?, State.report_words]

theorem reported_report (hfull : setting.maxDiagnostics = none)
    (problem : Problem) (s : State) : ∃ r ∈ (s.report setting problem).reports,
      r.range = (s.report setting problem).currentRange setting := by
  obtain ⟨r, hr, -, hrange⟩ := kept_report hfull problem s
  exact ⟨r, hr, hrange⟩

/-- Text that is skipped wherever the text is not at its end. -/
theorem flagging_skip (henter : Steady enter) (hfull : setting.maxDiagnostics = none)
    (problem : Problem) {body : Rule ν Unit} (hbody : Flagging setting (body.run setting enter))
    (htakes : Takes setting enter AnyToken body) :
    Flagging setting (Rule.run setting enter do
      Rule.report problem
      let ended ← atEnd
      when (!ended) (Rule.node .error body)) := by
  intro s hs h
  have hvalid := (State.reaches_report setting problem s).valid hs
  have hreport := (invariant_flags setting).report problem h
  simp only [run_bind, run_report, run_atEnd]
  cases hended : ((s.report setting problem).kindAt 0).isNone with
  | true => exact hreport
  | false =>
    have hsome : (s.report setting problem).kindAt 0 ≠ none := by
      simpa [Option.isSome_iff_ne_none] using hended
    exact flags_errorNode henter hbody hvalid hreport
      (reported_report hfull problem s) (htakes.from hsome)

theorem flagging_skipToken (henter : Steady enter) (hfull : setting.maxDiagnostics = none)
    (problem : Problem) : Flagging setting ((skipToken problem).run setting enter) :=
  flagging_skip henter hfull problem (fun _ _ h => (invariant_flags setting).bump h) takes_bump

theorem flagging_skipUntil (henter : Steady enter) (hfull : setting.maxDiagnostics = none)
    (problem : Problem) (stops : List TokenKind) :
    Flagging setting ((skipUntil problem stops).run setting enter) := by
  refine flagging_skip henter hfull problem ((invariant_flags setting).elementary henter ?_)
    (takes_bump.bind henter _)
  exact .bind .bump fun _ => .repeated <| .bind .currentIn fun _ => .bind .atRecoveryPoint fun _ =>
    .bind (.when .bump) fun _ => .pure _

end Rule
end RelLang
