import RelLang.Proofs.Rule.Elementary
import RelLang.Proofs.Rule.Sound

/-!
# Invariants of readings

A property of states is an *invariant* if every single step keeps it and nodes can be put
around what has been read, those of skipped text apart. Rules made of such steps maintain it;
what makes a node of skipped text has to say why that node does no harm. A *judgement* on nodes
of skipped text that refers to the reports made is such a property.
-/

namespace RelLang

/-- A property of states that steps keep, nodes of skipped text apart. -/
structure Invariant (setting : Setting) (I : State → Prop) : Prop where
  attachPending {s : State} : I s → I s.attachPending
  bump {s : State} : I s → I s.bump
  report {s : State} (problem : Problem) : I s → I (s.report setting problem)
  allow {s : State} : I s → I { s with temporal := true }
  stall {s : State} : I s → I { s with stalled := true }
  /-- Nothing has been read of a node that begins. -/
  opened {s : State} : I s → I { s.attachPending with siblings := [] }
  /-- What is made with no trees in front is put behind trees. -/
  behind {s t : State} : I s → State.Reaches { s with siblings := [] } t → I t →
    I { t with siblings := t.siblings ++ s.siblings }
  /-- A node around all trees. -/
  wrap {s : State} {kind : NodeKind} : (kind != .error) = true → I s →
    I { s with siblings := [.node kind s.siblings.reverse] }
  entered {s : State} (context : Context) : I s → I { s with contexts := context :: s.contexts }
  left {s t : State} {context : Context} : I s →
    State.Reaches { s with contexts := context :: s.contexts } t → I t →
    I { t with contexts := t.contexts.tail }

namespace Rule

variable {ν α β σ : Type} {setting : Setting} {enter : ν → State → Bool × State}
variable {I : State → Prop}

/-- Leads from states with the property to such states. -/
def Maintains (I : State → Prop) (run : State → α × State) : Prop :=
  ∀ s, s.Valid → I s → I (run s).2

namespace Maintains

theorem ofLooking {run : State → α × State} (h : ∀ s, (run s).2 = s) : Maintains I run := by
  intro s _ hs
  rwa [h]

theorem bind (henter : Steady enter) {first : Rule ν α} {next : α → Rule ν β}
    (hfirst : Maintains I (first.run setting enter))
    (hnext : ∀ a, Maintains I ((next a).run setting enter)) :
    Maintains I ((first >>= next).run setting enter) :=
  fun s hs h => hnext _ _ (valid_run setting henter first hs) (hfirst s hs h)

theorem ite {c : Prop} [Decidable c] {yes no : Rule ν α}
    (hyes : Maintains I (yes.run setting enter)) (hno : Maintains I (no.run setting enter)) :
    Maintains I ((if c then yes else no).run setting enter) := by
  split
  · exact hyes
  · exact hno

theorem «when» {condition : Bool} {rule : Rule ν Unit}
    (hrule : Maintains I (rule.run setting enter)) :
    Maintains I ((when condition rule).run setting enter) :=
  ite hrule (ofLooking fun _ => rfl)

theorem ignore (henter : Steady enter) {rule : Rule ν α}
    (hrule : Maintains I (rule.run setting enter)) :
    Maintains I ((Rule.ignore rule).run setting enter) :=
  bind henter hrule fun _ => ofLooking fun _ => rfl

theorem progress {body : Rule ν α} (hbody : Maintains I (body.run setting enter)) :
    Maintains I ((Rule.progress body).run setting enter) := hbody

/-- What every round maintains, a loop maintains, also one that is cut off. -/
theorem loop (henter : Steady enter) (hstall : ∀ s, I s → I { s with stalled := true }) (a : σ)
    {body : σ → Rule ν (σ × Bool)} (hbody : ∀ a, Maintains I ((body a).run setting enter)) :
    Maintains I ((Rule.loop a body).run setting enter) := by
  have hrounds : ∀ rounds a,
      Maintains I (iterate (fun a t => (body a).run setting enter t) rounds a) := by
    intro rounds
    induction rounds with
    | zero => exact fun a s _ h => hstall s h
    | succ rounds ih =>
      intro a s hs h
      unfold iterate
      dsimp only
      split
      · exact ih _ _ (valid_run setting henter (body a) hs) (hbody a s hs h)
      · exact hbody a s hs h
  exact fun s => hrounds (s.left + 1) a s

theorem repeated (henter : Steady enter) (hstall : ∀ s, I s → I { s with stalled := true })
    {body : Rule ν Bool} (hbody : Maintains I (body.run setting enter)) :
    Maintains I ((Rule.repeated body).run setting enter) :=
  loop henter hstall () fun _ => bind henter hbody fun _ => ofLooking fun _ => rfl

/-- A list maintains what its items and the skipping of what is no item maintain. -/
theorem items (henter : Steady enter) (hstall : ∀ s, I s → I { s with stalled := true })
    (closer : Punct) (code : Code) {item : Rule ν Unit}
    (hitem : Maintains I (item.run setting enter))
    (hskip : ∀ s, s.Valid → I s → s.atRecoveryPoint = false →
      I ((skipToken (.listItem code)).run setting enter s).2) :
    Maintains I ((Rule.items closer code item).run setting enter) := by
  rw [items_eq]
  refine .repeated henter hstall fun s hs h => ?_
  rw [run_itemsRound]
  split
  · exact h
  split
  · exact hitem s hs h
  split
  · exact hitem s hs h
  · next hrecovered =>
    exact hskip _ (valid_run setting henter item hs) (hitem s hs h)
      (Bool.eq_false_iff.mpr hrecovered)

end Maintains

/-- A rule that makes no nodes but those of which the property holds anyway maintains it, if its
calls do. -/
theorem Every.maintains {P : NodeKind → List Tree → List (TokenKind × String) → Prop}
    {node : NodeKind → Prop} {loop : (σ : Type) → (σ → Rule ν (σ × Bool)) → Prop}
    (hnode : ∀ kind, node kind → ∀ children behind, P kind children behind) (herror : node .error)
    (henter : Steady enter) (hcalls : ∀ symbol, Maintains (State.Sound P) (enter symbol))
    {rule : Rule ν α} (hrule : rule.Every node loop) :
    Maintains (State.Sound P) (rule.run setting enter) := by
  have hinvalid (text : String) := hnode _ herror [.token .invalid text]
  induction rule with
  | andThen first next ih₁ ih₂ => exact .bind henter (ih₁ hrule.1) fun a => ih₂ a (hrule.2 a)
  | bump => exact fun s _ h => h.bump hinvalid
  | node kind body ih =>
    intro s hs h
    have hbody := ih hrule.2 { s.attachPending with siblings := [] } hs.opened
      (State.sound_of_siblings_eq_nil rfl)
    exact sound_node hinvalid henter h rfl hbody (hnode kind hrule.1 _ _)
  | group body ih =>
    intro s hs h
    have hbody := ih hrule { s.attachPending with siblings := [] } hs.opened
      (State.sound_of_siblings_eq_nil rfl)
    exact sound_group hinvalid henter h hbody
  | enclose kind body ih =>
    intro s hs h
    exact (ih hrule.2 s hs h).wrap (hnode kind hrule.1 _ _)
  | within context body ih =>
    intro s hs h
    have hbody := ih hrule { s with contexts := context :: s.contexts } (hs.of_eq rfl rfl rfl)
      (h.of_eq rfl rfl)
    exact hbody.of_eq rfl rfl
  | report problem => exact fun s _ h => h.report setting problem
  | requireTemporal =>
    intro s _ h
    rw [run]
    split
    · exact h
    · exact h.report setting _
  | admitTemporal =>
    intro s _ h
    rw [run]
    split <;> exact h.of_eq rfl rfl
  | progress body ih => exact .progress (ih hrule)
  | loop a body ih =>
    exact .loop henter (fun _ h => h.of_eq rfl rfl) a fun b => ih b (hrule.2 b)
  | call symbol => exact hcalls symbol
  | _ => exact .ofLooking fun _ => rfl

end Rule

namespace Invariant

open Rule

variable {ν α : Type} {setting : Setting} {enter : ν → State → Bool × State}
variable {I : State → Prop}

theorem requireTemporal (hI : Invariant setting I) :
    Maintains I ((Rule.requireTemporal : Rule ν Unit).run setting enter) := by
  intro s _ h
  rw [Rule.run]
  split
  · exact h
  · exact hI.report _ h

theorem admitTemporal (hI : Invariant setting I) :
    Maintains I ((Rule.admitTemporal : Rule ν Unit).run setting enter) := by
  intro s _ h
  rw [Rule.run]
  split
  · exact hI.allow h
  · exact h

theorem group (hI : Invariant setting I) (henter : Steady enter) {body : Rule ν α}
    (hbody : Maintains I (body.run setting enter)) :
    Maintains I ((Rule.group body).run setting enter) :=
  fun s hs h => hI.behind (hI.attachPending h) (reaches_run setting henter body _)
    (hbody { s.attachPending with siblings := [] } hs.opened (hI.opened h))

theorem enclose (hI : Invariant setting I) {kind : NodeKind} (hkind : (kind != .error) = true)
    {body : Rule ν α} (hbody : Maintains I (body.run setting enter)) :
    Maintains I ((Rule.enclose kind body).run setting enter) :=
  fun s hs h => hI.wrap hkind (hbody s hs h)

theorem node (hI : Invariant setting I) (henter : Steady enter) {kind : NodeKind}
    (hkind : (kind != .error) = true) {body : Rule ν α}
    (hbody : Maintains I (body.run setting enter)) :
    Maintains I ((Rule.node kind body).run setting enter) := by
  have henclosed : Maintains I ((Rule.enclose kind body).run setting enter) :=
    hI.enclose hkind hbody
  exact hI.group henter henclosed

theorem within (hI : Invariant setting I) (henter : Steady enter) (context : Context)
    {body : Rule ν α} (hbody : Maintains I (body.run setting enter)) :
    Maintains I ((Rule.within context body).run setting enter) :=
  fun s hs h => hI.left h (reaches_run setting henter body _)
    (hbody { s with contexts := context :: s.contexts } (hs.of_eq rfl rfl rfl)
      (hI.entered context h))

/-- Elementary rules without nodes of skipped text maintain every invariant. -/
theorem elementary (hI : Invariant setting I) (henter : Steady enter) {rule : Rule ν α}
    (h : Elementary (· != .error) rule) : Maintains I (rule.run setting enter) := by
  induction h with
  | done a => exact .ofLooking fun _ => rfl
  | andThen _ _ hfirst hnext => exact .bind henter hfirst hnext
  | peek n => exact .ofLooking fun _ => rfl
  | atRecoveryPoint => exact .ofLooking fun _ => rfl
  | bump => exact fun _ _ h => hI.bump h
  | node hkind _ hbody => exact hI.node henter hkind hbody
  | report _ => exact fun _ _ h => hI.report _ h
  | loop a _ hbody => exact .loop henter (fun _ h => hI.stall h) a hbody

end Invariant

/-! ### Judgements on nodes -/

/-- A judgement on nodes that refers to the reports, and what has to be known to pass it, of the
tokens to come, the reports and the open contexts: reports are never taken back, only nodes of
skipped text may fail, and single skipped tokens pass. -/
structure Judgement (P : List Report → NodeKind → List Tree → List (TokenKind × String) → Prop)
    (known : List Token → List Report → List Context → Prop) : Prop where
  mono {reports reports' : List Report} {kind : NodeKind} {children : List Tree}
    {behind : List (TokenKind × String)} :
    reports ⊆ reports' → P reports kind children behind → P reports' kind children behind
  plain {kind : NodeKind} (reports : List Report) (children : List Tree)
    (behind : List (TokenKind × String)) :
    (kind != .error) = true → P reports kind children behind
  skipped {ts behind : List Token} {reports : List Report} {contexts : List Context} :
    known (ts ++ behind) reports contexts →
    Tree.EverywhereAll (P reports) (ts.map Token.skippedTree) (behind.map Token.toPair)
  kept {rest rest' : List Token} {reports reports' : List Report}
    {contexts contexts' : List Context} :
    known rest reports contexts → rest' <:+ rest → reports ⊆ reports' → contexts ⊆ contexts' →
    known rest' reports' contexts'

/-- All nodes so far pass, and what has to be known is known. -/
structure State.Judged (P : List Report → NodeKind → List Tree → List (TokenKind × String) → Prop)
    (known : List Token → List Report → List Context → Prop) (s : State) : Prop where
  known : known s.rest s.reports s.contexts
  sound : s.Sound (P s.reports)

namespace Judgement

variable {P : List Report → NodeKind → List Tree → List (TokenKind × String) → Prop}
variable {known : List Token → List Report → List Context → Prop} {s t : State}

/-- Nodes still pass when reports are made. -/
theorem sound_after (hP : Judgement P known) (h : s.Sound (P s.reports))
    (hreports : s.reports <:+ t.reports) : s.Sound (P t.reports) :=
  h.mono fun _ _ _ hpasses => hP.mono hreports.subset hpasses

theorem of_reaches (hP : Judgement P known) (h : s.Judged P known) (hr : s.Reaches t)
    (ht : t.Sound (P t.reports)) : t.Judged P known :=
  ⟨hP.kept h.known hr.rest hr.reports.subset (hr.contexts ▸ List.Subset.refl _), ht⟩

theorem attachPending (hP : Judgement P known) (h : s.Judged P known) :
    s.attachPending.Judged P known := by
  have hr := State.reaches_attachPending s
  refine hP.of_reaches h hr ((hP.sound_after h.sound hr.reports).add hr rfl ?_)
  rw [List.reverse_reverse]
  exact hP.skipped h.known

theorem bump (hP : Judgement P known) (h : s.Judged P known) : s.bump.Judged P known := by
  have hattach := hP.attachPending h
  cases hw : s.words with
  | nil =>
    rw [State.bump_of_words_eq_nil hw]
    exact hattach
  | cons w ws =>
    rw [State.bump_of_words_eq_cons hw]
    have htake : s.attachPending.Reaches _ := State.reaches_take (s := s.attachPending) rfl hw
    have hleaf (P : NodeKind → List Tree → List (TokenKind × String) → Prop)
        (behind : List (TokenKind × String)) :
        Tree.EverywhereAll P [w.token.leaf].reverse behind := ⟨trivial, trivial⟩
    exact hP.of_reaches hattach htake (hattach.sound.add htake rfl (hleaf _ _))

theorem invariant (hP : Judgement P known) (setting : Setting) :
    Invariant setting (State.Judged P known) where
  attachPending h := hP.attachPending h
  bump h := hP.bump h
  report := by
    intro s problem h
    have hr := State.reaches_report setting problem s
    have hsound := hP.sound_after h.sound hr.reports
    refine hP.of_reaches h hr ?_
    obtain ⟨reports, hreport⟩ := State.report_eq setting problem s
    rw [hreport] at hsound ⊢
    exact hsound.of_eq rfl rfl
  allow h := ⟨h.known, h.sound.of_eq rfl rfl⟩
  stall h := ⟨h.known, h.sound.of_eq rfl rfl⟩
  opened h := ⟨(hP.attachPending h).known, State.sound_of_siblings_eq_nil rfl⟩
  behind h hr ht := ⟨ht.known, (hP.sound_after h.sound hr.reports).behind hr ht.sound⟩
  wrap hkind h := ⟨h.known, h.sound.wrap (hP.plain _ _ _ hkind)⟩
  entered context h :=
    ⟨hP.kept h.known (List.suffix_refl _) (List.Subset.refl _) (List.subset_cons_self _ _),
      h.sound.of_eq rfl rfl⟩
  left := by
    intro s t context h hr ht
    have hcontexts : t.contexts.tail = s.contexts := congrArg List.tail hr.contexts
    exact ⟨hP.kept h.known hr.rest hr.reports.subset (hcontexts ▸ List.Subset.refl _),
      ht.sound.of_eq rfl rfl⟩

end Judgement
end RelLang
