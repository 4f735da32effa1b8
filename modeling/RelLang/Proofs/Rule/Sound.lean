import RelLang.Proofs.Rule.Loop
import RelLang.Proofs.Tree.Everywhere

/-!
# What rules keep true of the trees

A property of nodes that holds of all nodes of some kinds is kept by every rule that
makes no node of another kind. Only readings without reports are looked at.
-/

namespace RelLang

namespace State

variable {P : NodeKind → List Tree → List (TokenKind × String) → Prop} {s t : State}

/-- The property holds of all nodes that the innermost node or group holds so far. -/
structure Sound (P : NodeKind → List Tree → List (TokenKind × String) → Prop) (s : State) :
    Prop where
  all : Tree.EverywhereAll P s.siblings.reverse (s.rest.map Token.toPair)

theorem sound_of_siblings_eq_nil (h : s.siblings = []) : s.Sound P := by
  constructor
  rw [h]
  trivial

theorem Sound.of_eq (h : s.Sound P) (h₁ : t.siblings = s.siblings) (h₂ : t.rest = s.rest) :
    t.Sound P := by
  constructor
  rw [h₁, h₂]
  exact h.all

theorem Sound.mono {Q : NodeKind → List Tree → List (TokenKind × String) → Prop} (h : s.Sound P)
    (hPQ : ∀ kind children behind, P kind children behind → Q kind children behind) : s.Sound Q :=
  ⟨Tree.EverywhereAll.mono hPQ _ h.all⟩

/-- Trees that are added leave the tokens behind the others as they were. -/
theorem Sound.add {added : List Tree} (h : s.Sound P) (hr : s.Reaches t)
    (ht : t.siblings = added ++ s.siblings)
    (hadded : Tree.EverywhereAll P added.reverse (t.rest.map Token.toPair)) : t.Sound P := by
  have hleaves := hr.leaves
  rw [leaves, ht, List.reverse_append, Tree.leavesAll_append, List.append_assoc] at hleaves
  constructor
  rw [ht, List.reverse_append, Tree.everywhereAll_append]
  refine ⟨?_, hadded⟩
  rw [List.append_cancel_left hleaves]
  exact h.all

/-- At the end of the text nothing stands behind the trees. -/
theorem Sound.everywhere {kind : NodeKind} (h : s.Sound P) (hrest : s.rest = [])
    (hkind : P kind s.siblings.reverse []) :
    (Tree.node kind s.siblings.reverse).Everywhere P [] := by
  have hall := h.all
  rw [hrest, List.map_nil] at hall
  exact Tree.everywhere_node.mpr ⟨hkind, hall⟩

/-- A node around all trees. -/
theorem Sound.wrap {kind : NodeKind} (h : s.Sound P)
    (hkind : P kind s.siblings.reverse (s.rest.map Token.toPair)) :
    Sound P { s with siblings := [.node kind s.siblings.reverse] } :=
  ⟨⟨hkind, h.all⟩, trivial⟩

section

variable (hinvalid : ∀ text behind, P .error [.token .invalid text] behind)

include hinvalid

theorem everywhereAll_skippedTree (ts : List Token) (behind : List (TokenKind × String)) :
    Tree.EverywhereAll P (ts.map Token.skippedTree) behind := by
  induction ts with
  | nil => trivial
  | cons t ts ih =>
    refine ⟨?_, ih⟩
    unfold Token.skippedTree
    split
    · next hkind =>
      rw [Token.leaf, hkind]
      exact ⟨hinvalid _ _, trivial, trivial⟩
    · trivial

theorem Sound.attachPending (h : s.Sound P) : s.attachPending.Sound P := by
  refine h.add (reaches_attachPending s) rfl ?_
  rw [List.reverse_reverse]
  exact everywhereAll_skippedTree hinvalid _ _

theorem Sound.bump (h : s.Sound P) : s.bump.Sound P := by
  cases hw : s.words with
  | nil =>
    rw [bump_of_words_eq_nil hw]
    exact h.attachPending hinvalid
  | cons w ws =>
    rw [bump_of_words_eq_cons hw]
    have htake : s.attachPending.Reaches _ := reaches_take (s := s.attachPending) rfl hw
    have hleaf : Tree.EverywhereAll P [w.token.leaf].reverse
        ((w.behind ++ Word.tokens ws).map Token.toPair) := ⟨trivial, trivial⟩
    exact (h.attachPending hinvalid).add htake rfl hleaf

end

theorem Sound.report (h : s.Sound P) (setting : Setting) (problem : Problem) :
    (s.report setting problem).Sound P := by
  obtain ⟨reports, hreport⟩ := report_eq setting problem s
  rw [hreport]
  exact h.of_eq rfl rfl

/-- What is made with no trees in front is put behind trees. -/
theorem Sound.behind (h : s.Sound P) (hr : Reaches { s with siblings := [] } t) (ht : t.Sound P) :
    Sound P { t with siblings := t.siblings ++ s.siblings } :=
  h.add (hr.behind s.siblings) rfl ht.all

/-- Without reports in the end there were none before. -/
theorem Reaches.reports_eq_nil (h : s.Reaches t) (ht : t.reports = []) : s.reports = [] := by
  have hsuffix := h.reports
  rw [ht] at hsuffix
  exact List.suffix_nil.mp hsuffix

end State

variable {P : NodeKind → List Tree → List (TokenKind × String) → Prop}

theorem sound_iterate {σ : Type} {step : σ → State → (σ × Bool) × State}
    (hreaches : ∀ a s, State.Reaches s (step a s).2)
    (hstep : ∀ a s, s.Valid → s.Sound P → (step a s).2.reports = [] → (step a s).2.Sound P)
    (rounds : Nat) (a : σ) {s : State} (hs : s.Valid) (h : s.Sound P)
    (hclean : (iterate step rounds a s).2.reports = []) : (iterate step rounds a s).2.Sound P := by
  induction rounds generalizing a s with
  | zero => exact h.of_eq rfl rfl
  | succ rounds ih =>
    unfold iterate at hclean ⊢
    dsimp only at hclean ⊢
    split at hclean
    · next hmore =>
      rw [if_pos hmore]
      have hround := (reaches_iterate hreaches rounds _ _).reports_eq_nil hclean
      exact ih _ ((hreaches a s).valid hs) (hstep a s hs h hround) hclean
    · next hlast =>
      rw [if_neg hlast]
      exact hstep a s hs h hclean

namespace Rule

variable {ν α : Type} {setting : Setting} {enter : ν → State → Bool × State}

/-- Keeps the property, in readings without reports. -/
def Keeps (P : NodeKind → List Tree → List (TokenKind × String) → Prop)
    (run : State → α × State) : Prop :=
  ∀ s, s.Valid → s.Sound P → (run s).2.reports = [] → (run s).2.Sound P

/-- A node of which the property holds, like all below it. -/
theorem sound_node (hinvalid : ∀ text behind, P .error [.token .invalid text] behind)
    (henter : Steady enter) {s : State} (h : s.Sound P) {kind : NodeKind} {body : Rule ν α}
    {t : State} (ht : (body.run setting enter { s.attachPending with siblings := [] }).2 = t)
    (hbody : t.Sound P)
    (hkind : P kind t.siblings.reverse (t.rest.map Token.toPair)) :
    ((Rule.node kind body).run setting enter s).2.Sound P := by
  subst ht
  have hreach := reaches_run setting henter body { s.attachPending with siblings := [] }
  exact (h.attachPending hinvalid).behind (hreach.wrap kind) (hbody.wrap hkind)

theorem sound_group (hinvalid : ∀ text behind, P .error [.token .invalid text] behind)
    (henter : Steady enter) {s : State} (h : s.Sound P) {body : Rule ν α}
    (hbody : (body.run setting enter { s.attachPending with siblings := [] }).2.Sound P) :
    ((Rule.group body).run setting enter s).2.Sound P :=
  (h.attachPending hinvalid).behind (reaches_run _ henter body _) hbody

/-- A rule that makes no nodes but those of which the property holds anyway keeps it, if its
calls do. -/
theorem keeps_run {node : NodeKind → Prop} {loop : (σ : Type) → (σ → Rule ν (σ × Bool)) → Prop}
    (hnode : ∀ kind, node kind → ∀ children behind, P kind children behind) (herror : node .error)
    (henter : Steady enter) (hcall : ∀ symbol, Keeps P (enter symbol)) (rule : Rule ν α)
    (hrule : rule.Every node loop) : Keeps P (rule.run setting enter) := by
  have hinvalid (text : String) := hnode _ herror [.token .invalid text]
  induction rule with
  | andThen first next ih₁ ih₂ =>
    intro s hs h hclean
    have hv := valid_run setting henter first hs
    have hfirst := (reaches_run setting henter (next (first.run setting enter s).1)
      (first.run setting enter s).2).reports_eq_nil hclean
    exact ih₂ _ (hrule.2 _) _ hv (ih₁ hrule.1 s hs h hfirst) hclean
  | bump => exact fun s _ h _ => h.bump hinvalid
  | node kind body ih =>
    intro s hs h hclean
    have hbody := ih hrule.2 { s.attachPending with siblings := [] } hs.opened
      (State.sound_of_siblings_eq_nil rfl) hclean
    exact sound_node hinvalid henter h rfl hbody (hnode kind hrule.1 _ _)
  | group body ih =>
    intro s hs h hclean
    have hbody := ih hrule { s.attachPending with siblings := [] } hs.opened
      (State.sound_of_siblings_eq_nil rfl) hclean
    exact sound_group hinvalid henter h hbody
  | enclose kind body ih =>
    intro s hs h hclean
    exact (ih hrule.2 s hs h hclean).wrap (hnode kind hrule.1 _ _)
  | within context body ih =>
    intro s hs h hclean
    have hbody := ih hrule { s with contexts := context :: s.contexts } (hs.of_eq rfl rfl rfl)
      (h.of_eq rfl rfl) hclean
    exact hbody.of_eq rfl rfl
  | report problem => exact fun s _ h _ => h.report setting problem
  | requireTemporal =>
    intro s _ h _
    rw [run]
    split
    · exact h
    · exact h.report setting _
  | admitTemporal =>
    intro s _ h _
    rw [run]
    split <;> exact h.of_eq rfl rfl
  | progress body ih => exact ih hrule
  | loop a body ih =>
    intro s hs h hclean
    exact sound_iterate (fun a s => reaches_run _ henter (body a) s) (fun a => ih a (hrule.2 a))
      _ a hs h hclean
  | call symbol => exact hcall symbol
  | _ => exact fun s _ h _ => h

end Rule
end RelLang
