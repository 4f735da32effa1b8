import RelLang.Proofs.Rule.Bare
import RelLang.Proofs.Rule.Elementary
import RelLang.Proofs.Rule.Take
import RelLang.Proofs.Tree.Sift

/-!
# Readings of texts that differ in what is skipped

Two states are *alike* if the same significant tokens are to come, the same trees have been
made but for skipped tokens, and the same contexts are open. Rules *run alike* if from alike
states they yield the same and go on to alike states. The ways to put rules together keep
this, but one of them only with a reason: a list asks whether an item has put anything into the
tree, and skipped tokens count there.
-/

namespace RelLang

namespace State

variable {s t u : State}

/-- The trees of the innermost open node or group, without skipped tokens. -/
def sifted (s : State) : List Tree := Tree.siftedAll s.siblings.reverse

/-- The states differ in skipped tokens, and in what the grammar does not see. -/
structure Alike (s t : State) : Prop where
  input : s.input = t.input
  sifted : s.sifted = t.sifted
  contexts : s.contexts = t.contexts

@[refl] theorem Alike.refl (s : State) : s.Alike s := ⟨rfl, rfl, rfl⟩

@[symm] theorem Alike.symm (h : s.Alike t) : t.Alike s :=
  ⟨h.input.symm, h.sifted.symm, h.contexts.symm⟩

@[trans] theorem Alike.trans (h₁ : s.Alike t) (h₂ : t.Alike u) : s.Alike u :=
  ⟨h₁.input.trans h₂.input, h₁.sifted.trans h₂.sifted, h₁.contexts.trans h₂.contexts⟩

/-- The grammar does not see reports, nor whether temporal constructs are admitted. -/
theorem Alike.of_eq (h₁ : t.words = s.words) (h₂ : t.siblings = s.siblings)
    (h₃ : t.contexts = s.contexts) : s.Alike t := by
  refine ⟨?_, ?_, h₃.symm⟩
  · rw [State.input, State.input, h₁]
  · rw [State.sifted, State.sifted, h₂]

/-! ### What the grammar sees -/

theorem Alike.kindAt_eq (h : s.Alike t) (n : Nat) : s.kindAt n = t.kindAt n := by
  rw [State.kindAt_eq, State.kindAt_eq, kinds_eq, kinds_eq, h.input]

theorem Alike.kinds_eq (h : s.Alike t) : s.kinds = t.kinds := by
  rw [State.kinds_eq, State.kinds_eq, h.input]

theorem Alike.atRecoveryPoint_eq (h : s.Alike t) : s.atRecoveryPoint = t.atRecoveryPoint := by
  rw [State.atRecoveryPoint_eq, State.atRecoveryPoint_eq, h.kindAt_eq, h.contexts]

theorem Alike.currentText_eq (h : s.Alike t) :
    (s.current?.map (·.text)).getD "" = (t.current?.map (·.text)).getD "" := by
  have htext (s : State) : s.current?.map (·.text) = s.input.head?.map (·.2) := by
    unfold current? State.input
    cases s.words <;> rfl
  rw [htext, htext, h.input]

theorem Alike.length_words (h : s.Alike t) : s.words.length = t.words.length := by
  have hlength := congrArg List.length h.input
  rwa [State.input, State.input, List.length_map, List.length_map] at hlength

theorem Alike.found_eq (h : s.Alike t) : s.found = t.found := by
  have hfound (s : State) :
      s.found = (s.input.head?.map fun w => Found.token w.1 w.2).getD .endOfText := by
    unfold found current? State.input
    cases s.words <;> rfl
  rw [hfound, hfound, h.input]

theorem Alike.context_eq (h : s.Alike t) : s.context = t.context := by
  rw [State.context, State.context, h.contexts]

/-! ### Single steps -/

theorem siftedAll_skippedTree {ts : List Token} (h : ∀ t ∈ ts, t.kind.isSignificant = false) :
    Tree.siftedAll (ts.map Token.skippedTree) = [] := by
  induction ts with
  | nil => rfl
  | cons t ts ih =>
    have hskipped : t.skippedTree.isUnseen = true := by
      unfold Token.skippedTree
      split
      · next hinvalid => rw [Token.leaf, hinvalid, Tree.isUnseen]
      · next hvalid => exact isTrivia_of_not_significant (h t List.mem_cons_self) hvalid
    rw [List.map_cons, Tree.siftedAll, if_pos hskipped]
    exact ih fun u hu => h u (List.mem_cons_of_mem _ hu)

theorem sifted_attachPending (hs : s.Valid) : s.attachPending.sifted = s.sifted := by
  simp [sifted, attachPending, siftedAll_skippedTree hs.pending]

theorem alike_attachPending (hs : s.Valid) : s.Alike s.attachPending :=
  ⟨rfl, (sifted_attachPending hs).symm, rfl⟩

theorem Alike.attachPending (h : s.Alike t) (hs : s.Valid) (ht : t.Valid) :
    s.attachPending.Alike t.attachPending :=
  (alike_attachPending hs).symm.trans (h.trans (alike_attachPending ht))

theorem Alike.bump (h : s.Alike t) (hs : s.Valid) (ht : t.Valid) : s.bump.Alike t.bump := by
  have hattach := h.attachPending hs ht
  have hinput : s.words.map (·.token.toPair) = t.words.map (·.token.toPair) := h.input
  cases hv : s.words <;> cases hw : t.words <;> rw [hv, hw] at hinput
  · rw [bump_of_words_eq_nil hv, bump_of_words_eq_nil hw]
    exact hattach
  · cases hinput
  · cases hinput
  · next v vs w ws =>
    rw [bump_of_words_eq_cons hv, bump_of_words_eq_cons hw]
    obtain ⟨hpair, hrest⟩ := List.cons.inj hinput
    have hleaf : v.token.leaf = w.token.leaf := by
      rw [Token.leaf, Token.leaf, show v.token.kind = w.token.kind from congrArg Prod.fst hpair,
        show v.token.text = w.token.text from congrArg Prod.snd hpair]
    refine ⟨hrest, ?_, h.contexts⟩
    simp only [State.sifted, List.reverse_cons, Tree.siftedAll_append, hleaf]
    exact congrArg (· ++ _) hattach.sifted

theorem alike_report (setting : Setting) (problem : Problem) (s : State) :
    s.Alike (s.report setting problem) := by
  obtain ⟨_, h⟩ := report_eq setting problem s
  rw [h]
  exact .of_eq rfl rfl rfl

/-- Where nodes and groups begin, nothing has been read. -/
theorem Alike.opened (h : s.Alike t) :
    Alike { s.attachPending with siblings := [] } { t.attachPending with siblings := [] } :=
  ⟨h.input, rfl, h.contexts⟩

/-- What is made with no trees in front is put behind trees. -/
theorem Alike.behind {s' t' : State} (h : s.Alike t) (h' : s'.Alike t') :
    Alike { s' with siblings := s'.siblings ++ s.siblings }
      { t' with siblings := t'.siblings ++ t.siblings } := by
  refine ⟨h'.input, ?_, h'.contexts⟩
  simp only [State.sifted, List.reverse_append, Tree.siftedAll_append]
  exact congrArg₂ (· ++ ·) h.sifted h'.sifted

theorem sifted_wrap {kind : NodeKind}
    (hskipped : (Tree.node kind s.siblings.reverse).isUnseen = false) :
    sifted { s with siblings := [.node kind s.siblings.reverse] } = [.node kind s.sifted] :=
  Tree.siftedAll_singleton hskipped

theorem Alike.wrap {kind : NodeKind} (h : s.Alike t)
    (hs : (Tree.node kind s.siblings.reverse).isUnseen = false)
    (ht : (Tree.node kind t.siblings.reverse).isUnseen = false) :
    Alike { s with siblings := [.node kind s.siblings.reverse] }
      { t with siblings := [.node kind t.siblings.reverse] } := by
  refine ⟨h.input, ?_, h.contexts⟩
  rw [sifted_wrap hs, sifted_wrap ht, h.sifted]

/-- A node begins with a token that the grammar sees. -/
theorem isUnseen_of_reaches (hs : s.Valid) (hempty : s.siblings = []) (hpending : s.pending = [])
    (h : s.Reaches t) (kind : NodeKind) :
    (Tree.node kind t.siblings.reverse).isUnseen = false :=
  Tree.isUnseen_node fun _ text => h.siblings_ne_invalid hs hempty hpending text

/-- Where nothing is pending, taking a token shows in the input. -/
theorem Reaches.input_ne (h : s.Reaches t) (hs : s.Valid) (hpending : s.pending = [])
    (htook : t.left < s.left) : t.input ≠ s.input := by
  intro hinput
  have hlength : t.words.length = s.words.length := by
    simpa only [State.input, List.length_map] using congrArg List.length hinput
  rw [(h.valid hs).left_eq, hs.left_eq, State.rest, State.rest, hpending,
    h.words.eq_of_length hlength, List.length_append, List.nil_append] at htook
  omega

end State

namespace Rule

variable {ν α β σ : Type} {setting₁ setting₂ : Setting} {enter₁ enter₂ : ν → State → Bool × State}

/-- From alike states the runs yield the same, and go on to alike states. -/
def Alike (run₁ run₂ : State → α × State) : Prop :=
  ∀ s t, s.Valid → t.Valid → s.Alike t → (run₁ s).1 = (run₂ t).1 ∧ (run₁ s).2.Alike (run₂ t).2

namespace Alike

/-- What only looks at what the grammar sees. -/
theorem ofLooking {run₁ run₂ : State → α × State} {value : State → α}
    (h₁ : ∀ s, run₁ s = (value s, s)) (h₂ : ∀ s, run₂ s = (value s, s))
    (hvalue : ∀ {s t : State}, s.Alike t → value s = value t) : Alike run₁ run₂ := by
  intro s t _ _ h
  rw [h₁, h₂]
  exact ⟨hvalue h, h⟩

theorem done (a : α) :
    Alike ((Rule.done a).run setting₁ enter₁) ((Rule.done a).run setting₂ enter₂) :=
  ofLooking (fun _ => rfl) (fun _ => rfl) fun _ => rfl

theorem peek (n : Nat) :
    Alike ((Rule.peek n).run setting₁ enter₁) ((Rule.peek n).run setting₂ enter₂) :=
  ofLooking (run_peek n) (run_peek n) fun h => h.kindAt_eq n

theorem atRecoveryPoint :
    Alike (Rule.atRecoveryPoint.run setting₁ enter₁) (Rule.atRecoveryPoint.run setting₂ enter₂) :=
  ofLooking run_atRecoveryPoint run_atRecoveryPoint fun h => h.atRecoveryPoint_eq

theorem currentText :
    Alike (Rule.currentText.run setting₁ enter₁) (Rule.currentText.run setting₂ enter₂) :=
  ofLooking (fun _ => rfl) (fun _ => rfl) fun h => h.currentText_eq

theorem bump : Alike (Rule.bump.run setting₁ enter₁) (Rule.bump.run setting₂ enter₂) :=
  fun _ _ hs ht h => ⟨rfl, h.bump hs ht⟩

/-- What changes nothing that the grammar sees. -/
theorem ofUnseen {f₁ f₂ : State → State} (h₁ : ∀ s, State.Alike s (f₁ s))
    (h₂ : ∀ s, State.Alike s (f₂ s)) :
    Alike (fun s => ((), f₁ s)) fun s => ((), f₂ s) :=
  fun s t _ _ h => ⟨rfl, (h₁ s).symm.trans (h.trans (h₂ t))⟩

theorem report (problem : Problem) : Alike ((Rule.report problem).run setting₁ enter₁)
    ((Rule.report problem).run setting₂ enter₂) :=
  ofUnseen (State.alike_report setting₁ problem) (State.alike_report setting₂ problem)

theorem ite {c : Prop} [Decidable c] {yes no : Rule ν α}
    (hyes : Alike (yes.run setting₁ enter₁) (yes.run setting₂ enter₂))
    (hno : Alike (no.run setting₁ enter₁) (no.run setting₂ enter₂)) :
    Alike ((if c then yes else no).run setting₁ enter₁)
      ((if c then yes else no).run setting₂ enter₂) := by
  split
  · exact hyes
  · exact hno

theorem enclose {kind : NodeKind} (hkind : (kind != .error) = true) {body : Rule ν α}
    (hbody : Alike (body.run setting₁ enter₁) (body.run setting₂ enter₂)) :
    Alike ((Rule.enclose kind body).run setting₁ enter₁)
      ((Rule.enclose kind body).run setting₂ enter₂) := by
  intro s t hs ht h
  have hnode (children : List Tree) : (Tree.node kind children).isUnseen = false :=
    Tree.isUnseen_node fun herror => by simp [herror] at hkind
  have hbody := hbody s t hs ht h
  exact ⟨hbody.1, hbody.2.wrap (hnode _) (hnode _)⟩

theorem within (context : Context) {body : Rule ν α}
    (hbody : Alike (body.run setting₁ enter₁) (body.run setting₂ enter₂)) :
    Alike ((Rule.within context body).run setting₁ enter₁)
      ((Rule.within context body).run setting₂ enter₂) := by
  intro s t hs ht h
  have hbody := hbody { s with contexts := context :: s.contexts }
    { t with contexts := context :: t.contexts } (hs.of_eq rfl rfl rfl) (ht.of_eq rfl rfl rfl)
    ⟨h.input, h.sifted, congrArg (context :: ·) h.contexts⟩
  exact ⟨hbody.1, hbody.2.input, hbody.2.sifted, congrArg List.tail hbody.2.contexts⟩

theorem group {body : Rule ν α}
    (hbody : Alike (body.run setting₁ enter₁) (body.run setting₂ enter₂)) :
    Alike ((Rule.group body).run setting₁ enter₁) ((Rule.group body).run setting₂ enter₂) := by
  intro s t hs ht h
  have hbody := hbody _ _ hs.opened ht.opened h.opened
  exact ⟨hbody.1, (h.attachPending hs ht).behind hbody.2⟩

/-- The place of a token is the same in no two texts, but it is only reported. -/
theorem opener {next : ByteRange → Rule ν α} (hplace : Indifferent next)
    (hnext : ∀ r, Alike ((next r).run setting₁ enter₁) ((next r).run setting₂ enter₂)) :
    Alike ((Rule.andThen .currentRange next).run setting₁ enter₁)
      ((Rule.andThen .currentRange next).run setting₂ enter₂) := by
  intro s t hs ht h
  obtain ⟨hvalue, halike⟩ := hnext (s.currentRange setting₁) s t hs ht h
  obtain ⟨reports, hrun, -⟩ := hplace setting₂ enter₂ (s.currentRange setting₁)
    (t.currentRange setting₂) t
  show ((next _).run setting₁ enter₁ s).1 = ((next (t.currentRange setting₂)).run _ _ t).1 ∧
    State.Alike _ ((next (t.currentRange setting₂)).run _ _ t).2
  rw [hrun]
  exact ⟨hvalue, halike.trans (.of_eq rfl rfl rfl)⟩

section

variable (henter₁ : Steady enter₁) (henter₂ : Steady enter₂)

include henter₁ henter₂

theorem bind {first : Rule ν α} {next : α → Rule ν β}
    (hfirst : Alike (first.run setting₁ enter₁) (first.run setting₂ enter₂))
    (hnext : ∀ a, Alike ((next a).run setting₁ enter₁) ((next a).run setting₂ enter₂)) :
    Alike ((first >>= next).run setting₁ enter₁) ((first >>= next).run setting₂ enter₂) := by
  intro s t hs ht h
  obtain ⟨hvalue, halike⟩ := hfirst s t hs ht h
  rw [run_bind, run_bind, ← hvalue]
  exact hnext _ _ _ (valid_run setting₁ henter₁ first hs) (valid_run setting₂ henter₂ first ht)
    halike

theorem ignore {rule : Rule ν α}
    (hrule : Alike (rule.run setting₁ enter₁) (rule.run setting₂ enter₂)) :
    Alike ((Rule.ignore rule).run setting₁ enter₁) ((Rule.ignore rule).run setting₂ enter₂) :=
  bind henter₁ henter₂ hrule fun _ => done ()

/-- A node, also one of skipped text, is not taken for a skipped token. -/
theorem node (kind : NodeKind) {body : Rule ν α}
    (hbody : Alike (body.run setting₁ enter₁) (body.run setting₂ enter₂)) :
    Alike ((Rule.node kind body).run setting₁ enter₁)
      ((Rule.node kind body).run setting₂ enter₂) := by
  intro s t hs ht h
  have hbody := hbody _ _ hs.opened ht.opened h.opened
  refine ⟨hbody.1, (h.attachPending hs ht).behind (hbody.2.wrap ?_ ?_)⟩
  · exact State.isUnseen_of_reaches hs.opened rfl rfl (reaches_run setting₁ henter₁ body _) kind
  · exact State.isUnseen_of_reaches ht.opened rfl rfl (reaches_run setting₂ henter₂ body _) kind

/-- Loops that advance go round in step. -/
theorem loop {body : σ → Rule ν (σ × Bool)} (h₁ : Advancing setting₁ enter₁ σ body)
    (h₂ : Advancing setting₂ enter₂ σ body)
    (hbody : ∀ a, Alike ((body a).run setting₁ enter₁) ((body a).run setting₂ enter₂)) (a : σ) :
    Alike ((Rule.loop a body).run setting₁ enter₁) ((Rule.loop a body).run setting₂ enter₂) := by
  intro s t hs ht h
  induction hn : s.left using Nat.strongRecOn generalizing a s t with
  | ind n ih =>
    subst hn
    obtain ⟨hvalue, halike⟩ := hbody a s t hs ht h
    rw [run_loop henter₁ h₁ a hs, run_loop henter₂ h₂ a ht, ← hvalue]
    split
    · next hmore =>
      exact ih _ (h₁ a s hs hmore) _ _ _ (valid_run setting₁ henter₁ (body a) hs)
        (valid_run setting₂ henter₂ (body a) ht) halike rfl
    · exact ⟨rfl, halike⟩

theorem skipToken (problem : Problem) :
    Alike ((Rule.skipToken problem).run setting₁ enter₁)
      ((Rule.skipToken problem).run setting₂ enter₂) :=
  bind henter₁ henter₂ (report problem) fun _ =>
    bind henter₁ henter₂ (bind henter₁ henter₂ (peek 0) fun _ => done _) fun _ =>
    ite (node henter₁ henter₂ _ bump) (done ())

/-- Elementary rules run alike, if their loops advance. -/
theorem ofElementary {passes : NodeKind → Bool} {rule : Rule ν α} (h : Elementary passes rule)
    (h₁ : rule.Every (fun _ => True) (Advancing setting₁ enter₁))
    (h₂ : rule.Every (fun _ => True) (Advancing setting₂ enter₂)) :
    Alike (rule.run setting₁ enter₁) (rule.run setting₂ enter₂) := by
  induction h with
  | done a => exact done a
  | andThen _ _ hfirst hnext =>
    exact bind henter₁ henter₂ (hfirst h₁.1 h₂.1) fun a => hnext a (h₁.2 a) (h₂.2 a)
  | peek n => exact peek n
  | atRecoveryPoint => exact atRecoveryPoint
  | bump => exact bump
  | node _ _ hbody => exact node henter₁ henter₂ _ (hbody h₁.2 h₂.2)
  | report _ => exact report _
  | loop a _ hbody =>
    exact loop henter₁ henter₂ h₁.1 h₂.1 (fun a => hbody a (h₁.2 a) (h₂.2 a)) a

end

end Alike

/-! ### Lists -/

/-- Both rounds do alike, or one of them does nothing that the grammar sees and asks for another. -/
def RoundsAlike (round₁ round₂ : State → Bool × State) : Prop :=
  ∀ s t, s.Valid → t.Valid → s.Alike t →
    ((round₁ s).1 = (round₂ t).1 ∧ (round₁ s).2.Alike (round₂ t).2) ∨
    ((round₁ s).1 = true ∧ (round₁ s).2.Alike t) ∨
    ((round₂ t).1 = true ∧ s.Alike (round₂ t).2)

section

variable (henter₁ : Steady enter₁) (henter₂ : Steady enter₂)

include henter₁ henter₂

/-- Repetitions may go round in different numbers, as long as no round that one of them has alone
does anything that the grammar sees. -/
theorem RoundsAlike.repeated {body : Rule ν Bool} (h₁ : Moves setting₁ enter₁ body)
    (h₂ : Moves setting₂ enter₂ body)
    (hround : RoundsAlike (body.run setting₁ enter₁) (body.run setting₂ enter₂)) :
    Alike ((Rule.repeated body).run setting₁ enter₁)
      ((Rule.repeated body).run setting₂ enter₂) := by
  intro s t hs ht h
  refine ⟨rfl, ?_⟩
  induction hn : s.left + t.left using Nat.strongRecOn generalizing s t with
  | ind n ih =>
    subst hn
    have hv₁ := valid_run setting₁ henter₁ body hs
    have hv₂ := valid_run setting₂ henter₂ body ht
    rcases hround s t hs ht h with ⟨hvalue, halike⟩ | ⟨hmore, halike⟩ | ⟨hmore, halike⟩
    · rw [run_repeated henter₁ h₁ hs, run_repeated henter₂ h₂ ht, ← hvalue]
      split
      · next hmore =>
        have hlt := Nat.add_lt_add (h₁ s hs hmore) (h₂ t ht (hvalue ▸ hmore))
        exact ih _ hlt _ _ hv₁ hv₂ halike rfl
      · exact halike
    · rw [run_repeated henter₁ h₁ hs, if_pos hmore]
      exact ih _ (Nat.add_lt_add_right (h₁ s hs hmore) _) _ _ hv₁ ht halike rfl
    · rw [run_repeated henter₂ h₂ ht, if_pos hmore]
      exact ih _ (Nat.add_lt_add_left (h₂ t ht hmore) _) _ _ hs hv₂ halike rfl

end

/-- Where an item takes no token of the input, the item of an alike reading does no more than
report, once nothing is pending. -/
theorem AllOrNothing.idle_of_input_eq (henter₂ : Steady enter₂) {item : Rule ν Unit}
    (hidle : AllOrNothing setting₂ enter₂ item)
    (hitem : Alike (item.run setting₁ enter₁) (item.run setting₂ enter₂)) {s t : State}
    (hs : s.Valid) (ht : t.Valid) (h : s.Alike t)
    (hinput : (item.run setting₁ enter₁ s).2.input = s.input) :
    ∃ reports, (item.run setting₂ enter₂ t.attachPending).2 = { t.attachPending with reports } := by
  have hattach := h.trans (State.alike_attachPending ht)
  have hv := (State.reaches_attachPending t).valid ht
  obtain ⟨-, halike⟩ := hitem s t.attachPending hs hv hattach
  refine (hidle t.attachPending hv rfl).resolve_left fun htook => ?_
  have hne := (reaches_run setting₂ henter₂ item _).input_ne hv rfl htook
  exact hne (halike.input.symm.trans (hinput.trans hattach.input))

/-- An item that takes no token of the input has only attached what was pending. -/
theorem AllOrNothing.alike_of_input_eq (henter₂ : Steady enter₂) {item : Rule ν Unit}
    (hidle : AllOrNothing setting₂ enter₂ item)
    (hitem : Alike (item.run setting₁ enter₁) (item.run setting₂ enter₂)) {s t : State}
    (hs : s.Valid) (ht : t.Valid) (h : s.Alike t)
    (hinput : (item.run setting₁ enter₁ s).2.input = s.input) :
    (item.run setting₁ enter₁ s).2.Alike t := by
  have hattach := State.alike_attachPending ht
  have hv := (State.reaches_attachPending t).valid ht
  obtain ⟨-, halike⟩ := hitem s t.attachPending hs hv (h.trans hattach)
  obtain ⟨reports, hsame⟩ := hidle.idle_of_input_eq henter₂ hitem hs ht h hinput
  rw [hsame] at halike
  exact halike.trans (.symm (hattach.trans (.of_eq rfl rfl rfl)))

theorem input_eq_of_left_eq {setting : Setting} {enter : ν → State → Bool × State}
    (henter : Steady enter) (rule : Rule ν α) {s : State} (hs : s.Valid)
    (hleft : (rule.run setting enter s).2.left = s.left) :
    (rule.run setting enter s).2.input = s.input := by
  rw [State.input, (reaches_run setting henter rule s).words_eq_of_left_eq hs hleft, State.input]

/-- An item that takes no token may still attach what is pending, and then the list goes round once
more than it would with nothing pending. -/
theorem roundsAlike_items (henter₁ : Steady enter₁) (henter₂ : Steady enter₂) (closer : Punct)
    (code : Code) {item : Rule ν Unit} (hidle : AllOrNothing setting₂ enter₂ item)
    (hitem : Alike (item.run setting₁ enter₁) (item.run setting₂ enter₂)) :
    RoundsAlike ((itemsRound closer code item).run setting₁ enter₁)
      ((itemsRound closer code item).run setting₂ enter₂) := by
  intro s t hs ht h
  obtain ⟨-, halike⟩ := hitem s t hs ht h
  have hstays := hidle.alike_of_input_eq henter₂ hitem hs ht h
  rw [run_itemsRound, run_itemsRound, ← h.kindAt_eq]
  split
  · exact .inl ⟨rfl, h⟩
  by_cases hsame₁ : (item.run setting₁ enter₁ s).2.left = s.left
  · have hinput := input_eq_of_left_eq henter₁ item hs hsame₁
    by_cases hsame₂ : (item.run setting₂ enter₂ t).2.left = t.left
    · rw [if_neg (not_not.mpr hsame₁), if_neg (not_not.mpr hsame₂), halike.atRecoveryPoint_eq]
      split
      · exact .inl ⟨rfl, halike⟩
      · exact .inl ⟨rfl, (Alike.skipToken henter₁ henter₂ _ _ _
          (valid_run setting₁ henter₁ item hs) (valid_run setting₂ henter₂ item ht) halike).2⟩
    · rw [if_pos hsame₂]
      exact .inr (.inr ⟨rfl, h.trans ((hstays hinput).symm.trans halike)⟩)
  · rw [if_pos hsame₁]
    by_cases hsame₂ : (item.run setting₂ enter₂ t).2.left = t.left
    · have hinput := input_eq_of_left_eq henter₂ item ht hsame₂
      exact .inr (.inl ⟨rfl, hstays (halike.input.trans (hinput.trans h.input.symm))⟩)
    · rw [if_pos hsame₂]
      exact .inl ⟨rfl, halike⟩

end Rule
end RelLang
