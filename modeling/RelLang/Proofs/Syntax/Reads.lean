import RelLang.Proofs.Grammar.Operand
import RelLang.Proofs.Rule.Bare
import RelLang.Proofs.Syntax.Derives

/-!
# Rules that read forms

A rule *reads* a form if the two agree: whatever the rule reads without a report is
derived from the form, and in front of what the form derives the rule takes just
that. Rules put together read the forms put together; a rule that reports reads
nothing.

What a rule reads may depend on what is known about the tokens in front of it, and
where it stops on what is known about those behind. Some rules yield a value, and
read another form for each.
-/

namespace RelLang

open Grammar Rule
open Tree (kinds)

/-- What is fixed while rules are read: the meaning of calls, and how deep they go. -/
structure Reader where
  setting : Setting
  enter : Nonterminal → State → Bool × State
  /-- The levels of what is read without a report. -/
  depth : Nat
  /-- The levels of what is to be read. -/
  limit : Nat
  /-- The reports of readings that are not cut off. -/
  passes : List Report → Prop

/-- Nothing is known about the tokens ahead. -/
def anything : List TokenKind → Prop := fun _ => True

/-- Nothing is asked of the tokens behind. -/
def anyhow {α : Type} : α → List TokenKind → Prop := fun _ _ => True

/-- In front of tokens that pass `pre`, the rule reads what the form for its value derives, if
`post` holds of the tokens behind. -/
structure Reads (r : Reader) {α : Type} (pre : List TokenKind → Prop)
    (post : α → List TokenKind → Prop) (form : α → Form) (rule : Rule Nonterminal α) : Prop where
  sound : ∀ s : State, s.Ready → pre s.kinds → (rule.run r.setting r.enter s).2.reports = [] →
    ∃ ts, (rule.run r.setting r.enter s).2.bare = s.bare ++ ts ∧
      (form (rule.run r.setting r.enter s).1).Derives r.depth ts
        (rule.run r.setting r.enter s).2.kinds
  complete : ∀ (s : State) a ts behind, s.Ready → s.temporal = true → pre s.kinds →
    s.input = Tree.leavesAll ts ++ behind → post a (behind.map (·.1)) →
    (form a).Derives r.limit ts (behind.map (·.1)) →
    r.passes (rule.run r.setting r.enter s).2.reports →
    (rule.run r.setting r.enter s).1 = a ∧ State.Took ts s (rule.run r.setting r.enter s).2

/-- The rule reads the form if it finds what it looks for; if it does not, nothing is said. -/
structure Finds (r : Reader) (form : Form) (rule : Rule Nonterminal Bool) : Prop where
  sound : ∀ s : State, s.Ready → (rule.run r.setting r.enter s).2.reports = [] →
    (rule.run r.setting r.enter s).1 = true →
    ∃ ts, (rule.run r.setting r.enter s).2.bare = s.bare ++ ts ∧
      form.Derives r.depth ts (rule.run r.setting r.enter s).2.kinds
  complete : ∀ (s : State) ts behind, s.Ready → s.temporal = true →
    s.input = Tree.leavesAll ts ++ behind → form.Derives r.limit ts (behind.map (·.1)) →
    r.passes (rule.run r.setting r.enter s).2.reports →
    (rule.run r.setting r.enter s).1 = true ∧
      State.Took ts s (rule.run r.setting r.enter s).2

/-- The rule reads the form, or leaves everything as it is. -/
structure Tries (r : Reader) (form : Form) (rule : Rule Nonterminal Unit) : Prop where
  sound : ∀ s : State, s.Ready → (rule.run r.setting r.enter s).2.reports = [] →
    (rule.run r.setting r.enter s).2 = s ∨
    ∃ ts, (rule.run r.setting r.enter s).2.bare = s.bare ++ ts ∧
      form.Derives r.depth ts (rule.run r.setting r.enter s).2.kinds
  complete : ∀ (s : State) ts behind, s.Ready → s.temporal = true →
    s.input = Tree.leavesAll ts ++ behind → form.Derives r.limit ts (behind.map (·.1)) →
    r.passes (rule.run r.setting r.enter s).2.reports →
    State.Took ts s (rule.run r.setting r.enter s).2

/-- The calls of a reader read the nonterminals. -/
structure Reader.Faithful (r : Reader) : Prop where
  keep : r.setting.maxDiagnostics = none
  steady : Steady r.enter
  passes_of_suffix : ∀ {rs ts : List Report}, rs <:+ ts → r.passes ts → r.passes rs
  expression : ∀ level, Finds r (.part (.expression level)) (.call (.expression level))
  boundGroup : Reads r (Form.at? (.punct .lparen) · = true) anyhow
    (Form.yields true (.part .boundGroup)) (.call .boundGroup)

/-- The rule reports something. -/
def Rejects (r : Reader) {α : Type} (rule : Rule Nonterminal α) : Prop :=
  ∀ s, (rule.run r.setting r.enter s).2.reports ≠ []

/-- The rule looks at the kinds of the tokens ahead and does nothing else. -/
def Looks {α : Type} (rule : Rule Nonterminal α) (value : List TokenKind → α) : Prop :=
  ∀ setting enter s, rule.run setting enter s = (value s.kinds, s)

/-- The first token ahead is of one of the kinds, and those behind it pass. -/
def Front (ks : List TokenKind) (rest : List TokenKind → Prop) (ahead : List TokenKind) : Prop :=
  ∃ k behind, ahead = k :: behind ∧ k ∈ ks ∧ rest behind

/-! ### Looking -/

section Looks

variable {α : Type}

theorem looks_pure (a : α) : Looks (pure a) fun _ => a := fun _ _ _ => rfl

theorem looks_peek (n : Nat) : Looks (.peek n) (·[n]?) := by
  intro setting enter s
  rw [run_peek, State.kindAt_eq]

theorem looks_ahead (test : List TokenKind → Bool) : Looks (.ahead test) test :=
  fun _ _ _ => rfl

theorem looks_nthIs (n : Nat) (kind : TokenKind) :
    Looks (nthIs n kind) fun ks => ks[n]? == some kind := by
  intro setting enter s
  rw [run_nthIs, State.kindAt_eq]

theorem looks_currentIs (kind : TokenKind) : Looks (currentIs kind) (Form.at? kind) :=
  looks_nthIs 0 kind

theorem looks_nthPasses (n : Nat) (test : TokenKind → Bool) :
    Looks (nthPasses n test) fun ks => ks[n]?.any test := by
  intro setting enter s
  rw [run_nthPasses, State.kindAt_eq]

theorem looks_currentIn (kinds : List TokenKind) : Looks (currentIn kinds) (Form.atAny kinds) :=
  looks_nthPasses 0 _

theorem looks_atEnd : Looks atEnd List.isEmpty := by
  intro setting enter s
  rw [run_atEnd, State.kindAt_eq]
  cases s.kinds <;> rfl

variable {first second : Rule Nonterminal Bool} {v w : List TokenKind → Bool}

theorem Looks.andAlso (h₁ : Looks first v) (h₂ : Looks second w) :
    Looks (Rule.andAlso first second) fun ks => v ks && w ks := by
  intro setting enter s
  rw [run_andAlso, h₁]
  dsimp only
  rw [h₂]
  cases v s.kinds <;> rfl

theorem Looks.orElse (h₁ : Looks first v) (h₂ : Looks second w) :
    Looks (Rule.orElse first second) fun ks => v ks || w ks := by
  intro setting enter s
  rw [run_orElse, h₁]
  dsimp only
  rw [h₂]
  cases v s.kinds <;> rfl

end Looks

section Combined

variable {r : Reader} {α β : Type} {pre pre' : List TokenKind → Prop}
  {mid : α → List TokenKind → Prop} {post post' : β → List TokenKind → Prop}
  {form f : α → Form} {g : β → Form} {rule first : Rule Nonterminal α}
  {next : α → Rule Nonterminal β}

/-! ### Weakening -/

theorem Reads.weaken (h : Reads r pre mid form rule) (hpre : ∀ ks, pre' ks → pre ks) :
    Reads r pre' mid form rule where
  sound s hs hp := h.sound s hs (hpre _ hp)
  complete s a ts behind hs ht hp := h.complete s a ts behind hs ht (hpre _ hp)

/-- What follows from that which is known ahead may be used. -/
theorem Reads.knowing {p : Prop} (hpre : ∀ ks, pre ks → p) (h : p → Reads r pre mid form rule) :
    Reads r pre mid form rule where
  sound s hs hp := (h (hpre _ hp)).sound s hs hp
  complete s a ts behind hs ht hp := (h (hpre _ hp)).complete s a ts behind hs ht hp

/-- More may be asked of the tokens behind. -/
theorem Reads.demand {mid' : α → List TokenKind → Prop} (h : Reads r pre mid form rule)
    (hpost : ∀ a ks, mid' a ks → mid a ks) : Reads r pre mid' form rule where
  sound := h.sound
  complete s a ts behind hs ht hp hinput hmid :=
    h.complete s a ts behind hs ht hp hinput (hpost a _ hmid)

/-- What is read whatever is behind. -/
theorem Reads.ofAnyhow (h : Reads r pre anyhow form rule) : Reads r pre mid form rule :=
  h.demand fun _ _ _ => trivial

/-- What is read whatever is ahead. -/
theorem Reads.ofAnything (h : Reads r anything mid form rule) : Reads r pre mid form rule :=
  h.weaken fun _ _ => trivial

/-- A rule reads what derives the same trees where the rule is used. -/
theorem Reads.reshape (hr : r.Faithful) (h : Reads r pre mid form rule)
    (hsound : ∀ n a ts behind, pre (kinds ts ++ behind) → (form a).Derives n ts behind →
      (f a).Derives n ts behind)
    (hcomplete : ∀ n a ts behind, pre (kinds ts ++ behind) → mid a behind →
      (f a).Derives n ts behind → (form a).Derives n ts behind) : Reads r pre mid f rule where
  sound s hs hp hclean := by
    obtain ⟨ts, hbare, hts⟩ := h.sound s hs hp hclean
    rw [(reaches_run r.setting hr.steady rule s).kinds_eq hs hbare] at hp
    exact ⟨ts, hbare, hsound _ _ _ _ hp hts⟩
  complete s a ts behind hs ht hp hinput hpost hts := by
    refine h.complete s a ts behind hs ht hp hinput hpost (hcomplete _ _ _ _ ?_ hpost hts)
    rwa [State.kinds_eq, hinput, List.map_append] at hp

/-- The value and the trees are read alike from two forms that derive the same. -/
theorem Reads.congr (h : Reads r pre mid form rule)
    (hform : ∀ n a ts behind, (f a).Derives n ts behind ↔ (form a).Derives n ts behind) :
    Reads r pre mid f rule where
  sound s hs hp hclean := by
    obtain ⟨ts, hbare, hts⟩ := h.sound s hs hp hclean
    exact ⟨ts, hbare, (hform _ _ _ _).mpr hts⟩
  complete s a ts behind hs ht hp hinput hpost hts :=
    h.complete s a ts behind hs ht hp hinput hpost ((hform _ _ _ _).mp hts)

/-- Rules that do the same read the same. -/
theorem Reads.ofRun {rule' : Rule Nonterminal α} (h : Reads r pre mid form rule')
    (hrun : ∀ s, rule.run r.setting r.enter s = rule'.run r.setting r.enter s) :
    Reads r pre mid form rule where
  sound s := by simpa only [hrun] using h.sound s
  complete s := by simpa only [hrun] using h.complete s

/-- A test that what is read passes anyway. -/
theorem Reads.dropTest {test : List TokenKind → Bool}
    (h : Reads r pre mid (fun a => .given test (f a) .never) rule)
    (htest : ∀ a, (f a).Shows test) : Reads r pre mid f rule := by
  refine h.congr fun n a ts behind => ?_
  rw [Form.derives_given]
  constructor
  · intro hts
    rwa [if_pos (htest _ _ _ _ hts)]
  · intro hts
    split at hts
    · exact hts
    · exact absurd hts Form.not_derives_never

/-- A rule that reports reads nothing. -/
theorem Rejects.reads (h : Rejects r rule) : Reads r pre mid (fun _ => .never) rule where
  sound s _ _ hclean := absurd hclean (h s)
  complete _ _ _ _ _ _ _ _ _ hts := absurd hts Form.not_derives_never

theorem rejects_report (hr : r.Faithful) (problem : Problem) : Rejects r (.report problem) :=
  fun s => State.reports_report_ne_nil hr.keep problem s

theorem Rejects.bind (hr : r.Faithful) (h : Rejects r first) (next : α → Rule Nonterminal β) :
    Rejects r (first >>= next) :=
  fun s hclean => h s ((reaches_run _ hr.steady (next _) _).reports_eq_nil hclean)

theorem Rejects.behind (h : ∀ a, Rejects r (next a)) : Rejects r (first >>= next) :=
  fun _ => h _ _

theorem Rejects.ite {c : Prop} [Decidable c] {yes no : Rule Nonterminal α} (h₁ : Rejects r yes)
    (h₂ : Rejects r no) : Rejects r (if c then yes else no) := by
  split
  · exact h₁
  · exact h₂

/-- A rule that reports where nothing can be read. -/
theorem Rejects.readsNothing {rule : Rule Nonterminal Bool} {mid : Bool → List TokenKind → Prop}
    (h : Rejects r rule) (hnot : ∀ ks, pre ks → ¬ mid false ks) :
    Reads r pre mid (Form.yields false .nothing) rule where
  sound s _ _ hclean := absurd hclean (h s)
  complete s a ts behind _ _ hp hinput hmid hts := by
    obtain ⟨rfl, hnothing⟩ := Form.derives_yields.mp hts
    obtain rfl := Form.derives_nothing.mp hnothing
    rw [State.kinds_eq, hinput] at hp
    exact absurd hmid (hnot _ hp)

theorem rejects_skipToken (hr : r.Faithful) (problem : Problem) :
    Rejects r (skipToken problem) :=
  (rejects_report hr problem).bind hr _

theorem rejects_skipUntil (hr : r.Faithful) (problem : Problem) (stops : List TokenKind) :
    Rejects r (skipUntil problem stops) :=
  (rejects_report hr problem).bind hr _

/-! ### Rules in a row -/

theorem reads_pure [DecidableEq β] (b : β) :
    Reads r pre post (Form.yields b .nothing) (pure b) where
  sound _ _ _ _ := ⟨[], (List.append_nil _).symm, by simp [Form.yields]⟩
  complete s a ts behind _ _ _ _ _ hts _ := by
    obtain ⟨rfl, hnothing⟩ := Form.derives_yields.mp hts
    obtain rfl := Form.derives_nothing.mp hnothing
    exact ⟨rfl, .refl s⟩

theorem reads_done {post : Unit → List TokenKind → Prop} :
    Reads r pre post (fun _ => .nothing) (pure ()) :=
  (reads_pure ()).congr fun n a ts behind => by simp [Form.yields]

/-- What two rules read, one behind the other. What is known about the tokens in front of the
second follows from what is known about those in front of the first. -/
theorem Reads.bind (hr : r.Faithful) {g : α → β → Form} {form : β → Form}
    {known : α → List TokenKind → Prop}
    (h₁ : Reads r pre mid f first) (h₂ : ∀ a, Reads r (known a) post (g a) (next a))
    (hform : ∀ n b ts behind,
      (form b).Derives n ts behind ↔ ∃ a, (f a ++ g a b).Derives n ts behind)
    (hmid : ∀ a b ts behind, (g a b).Derives r.limit ts behind → post b behind →
      mid a (kinds ts ++ behind))
    (hknown : ∀ n a ts behind, (f a).Derives n ts behind → pre (kinds ts ++ behind) →
      known a behind) : Reads r pre post form (first >>= next) where
  sound s hs hp hclean := by
    rw [run_bind] at hclean ⊢
    have hreach := reaches_run r.setting hr.steady first s
    obtain ⟨ts, hts, hf⟩ := h₁.sound s hs hp
      ((reaches_run _ hr.steady (next _) _).reports_eq_nil hclean)
    rw [hreach.kinds_eq hs hts] at hp
    obtain ⟨us, hus, hg⟩ := (h₂ _).sound _ (hs.of_reaches hreach) (hknown _ _ _ _ hf hp) hclean
    have hkinds := (reaches_run r.setting hr.steady (next _) _).kinds_eq (hs.of_reaches hreach) hus
    rw [hkinds] at hf
    exact ⟨ts ++ us, by rw [hus, hts, List.append_assoc],
      (hform _ _ _ _).mpr ⟨_, Form.derives_append.mpr ⟨ts, us, rfl, hf, hg⟩⟩⟩
  complete s b ts behind hs ht hp hinput hpost hts hpass := by
    rw [run_bind] at hpass ⊢
    obtain ⟨a, hts⟩ := (hform _ _ _ _).mp hts
    obtain ⟨us, vs, rfl, hf, hg⟩ := Form.derives_append.mp hts
    have hmap : (Tree.leavesAll vs ++ behind).map (·.1) = kinds vs ++ behind.map (·.1) := by
      rw [List.map_append, kinds]
    have hreach := reaches_run r.setting hr.steady first s
    rw [Tree.leavesAll_append, List.append_assoc] at hinput
    obtain ⟨hvalue, htook⟩ := h₁.complete s a us _ hs ht hp hinput
      (by rw [hmap]; exact hmid _ _ _ _ hg hpost) (by rwa [hmap])
      (hr.passes_of_suffix (reaches_run _ hr.steady (next _) _).reports hpass)
    have hbehind := hreach.input_behind hs htook.bare hinput
    have hknown' := hknown _ a us _ hf (by
      rwa [← hmap, ← hbehind, ← State.kinds_eq, ← hreach.kinds_eq hs htook.bare])
    rw [← hmap, ← hbehind, ← State.kinds_eq] at hknown'
    rw [hvalue] at hpass ⊢
    obtain ⟨hvalue', htook'⟩ := (h₂ a).complete _ b vs behind (hs.of_reaches hreach)
      (hreach.temporal ht) hknown' hbehind hpost hg hpass
    exact ⟨hvalue', htook.trans htook'⟩

section Unit

variable {pre : List TokenKind → Prop} {f : Form} {first : Rule Nonterminal Unit}
  {next : Unit → Rule Nonterminal β}

/-- The first rule stops where what the second reads begins. -/
theorem Reads.before (hr : r.Faithful) {mid : List TokenKind → Prop}
    (h₁ : Reads r pre (fun _ => mid) (fun _ => f) first)
    (h₂ : Reads r anything post g (next ()))
    (hmid : ∀ b ts behind, (g b).Derives r.limit ts behind → post b behind →
      mid (kinds ts ++ behind)) : Reads r pre post (fun b => f ++ g b) (first >>= next) :=
  h₁.bind hr (fun _ => h₂) (fun _ _ _ _ => by simp) (fun _ => hmid) fun _ _ _ _ _ _ => trivial

theorem Reads.then (hr : r.Faithful) (h₁ : Reads r pre anyhow (fun _ => f) first)
    (h₂ : Reads r anything post g (next ())) :
    Reads r pre post (fun b => f ++ g b) (first >>= next) :=
  Reads.before hr h₁ h₂ fun _ _ _ _ _ => trivial

/-- What is known behind the first rule follows from what is known ahead of it. -/
theorem Reads.thenKnown (hr : r.Faithful) {known : List TokenKind → Prop}
    (h₁ : Reads r pre anyhow (fun _ => f) first) (h₂ : Reads r known post g (next ()))
    (hknown : ∀ n ts behind, f.Derives n ts behind → pre (kinds ts ++ behind) → known behind) :
    Reads r pre post (fun b => f ++ g b) (first >>= next) :=
  h₁.bind hr (fun _ => h₂) (fun _ _ _ _ => by simp) (fun _ _ _ _ _ _ => trivial)
    fun n _ => hknown n

/-- What is known ahead of a rule that takes nothing is known behind it. -/
theorem Reads.behindNothing (hr : r.Faithful) (h₁ : Reads r pre anyhow (fun _ => .nothing) first)
    (h₂ : Reads r pre post g (next ())) : Reads r pre post g (first >>= next) :=
  (h₁.thenKnown hr h₂ fun _ _ _ hts hp => by rwa [Form.derives_nothing.mp hts] at hp).congr
    fun _ _ _ _ => Form.derives_nothing_append.symm

end Unit

/-- What is read behind a rule that has found what it asks for. -/
theorem Reads.thenTrue (hr : r.Faithful) {f : Form} {first : Rule Nonterminal Bool}
    {next : Bool → Rule Nonterminal β} (h₁ : Reads r pre anyhow (Form.yields true f) first)
    (h₂ : Reads r anything post g (next true)) :
    Reads r pre post (fun b => f ++ g b) (first >>= next) := by
  have hnext : ∀ present, Reads r (fun _ => present = true) post g (next present) := by
    intro present
    cases present with
    | true => exact h₂.ofAnything
    | false => exact ⟨fun _ _ hp => (nomatch hp), fun _ _ _ _ _ _ hp => (nomatch hp)⟩
  refine Reads.bind hr (g := fun _ => g) h₁ hnext (fun n b ts behind => ?_)
    (fun _ _ _ _ _ _ => trivial) fun n present ts behind hts _ => ?_
  · simp only [Form.derives_append, Form.derives_yields]
    constructor
    · rintro ⟨us, vs, rfl, hf, hg⟩
      exact ⟨true, us, vs, rfl, ⟨rfl, hf⟩, hg⟩
    · rintro ⟨present, us, vs, rfl, ⟨-, hf⟩, hg⟩
      exact ⟨us, vs, rfl, hf, hg⟩
  · exact (Form.derives_yields.mp hts).1

/-- A value behind what is read for it. -/
theorem Reads.yieldsRow {b : α} [DecidableEq α] (forms : List Form) (hforms : forms ≠ [])
    (h : Reads r pre mid (fun a => .row (forms ++ [.yields b .nothing a])) rule) :
    Reads r pre mid (Form.yields b (.row forms)) rule :=
  h.congr fun _ _ _ _ => Form.derives_yields.trans (Form.derives_row_yields forms hforms).symm

theorem Reads.yieldsNode {b : α} [DecidableEq α] {f : Form} {kind : NodeKind}
    (h : Reads r pre mid (fun a => .node kind (Form.yields b f a)) rule) :
    Reads r pre mid (Form.yields b (.node kind f)) rule := by
  refine h.congr fun n a ts behind => ?_
  simp only [Form.derives_yields, Form.derives_node]
  constructor
  · rintro ⟨rfl, us, rfl, hus⟩
    exact ⟨us, rfl, rfl, hus⟩
  · rintro ⟨us, rfl, rfl, hus⟩
    exact ⟨rfl, us, rfl, hus⟩

theorem Reads.tries {f : Form} {rule : Rule Nonterminal Unit}
    (h : Reads r anything anyhow (fun _ => f) rule) : Tries r f rule where
  sound s hs hclean := .inr (h.sound s hs trivial hclean)
  complete s ts behind hs ht hinput hts hpass :=
    (h.complete s () ts behind hs ht trivial hinput trivial hts hpass).2

theorem Tries.ofRun {f : Form} {rule rule' : Rule Nonterminal Unit} (h : Tries r f rule')
    (hrun : ∀ s, rule.run r.setting r.enter s = rule'.run r.setting r.enter s) :
    Tries r f rule where
  sound s := by simpa only [hrun] using h.sound s
  complete s := by simpa only [hrun] using h.complete s

theorem Reads.finds {f : Bool → Form} {g : Form} {rule : Rule Nonterminal Bool}
    (h : Reads r anything anyhow f rule)
    (hform : ∀ n ts behind, g.Derives n ts behind ↔ (f true).Derives n ts behind) :
    Finds r g rule where
  sound s hs hclean hfound := by
    obtain ⟨ts, hbare, hts⟩ := h.sound s hs trivial hclean
    rw [hfound] at hts
    exact ⟨ts, hbare, (hform _ _ _).mpr hts⟩
  complete s ts behind hs ht hinput hts :=
    h.complete s true ts behind hs ht trivial hinput trivial ((hform _ _ _).mp hts)

/-- A rule behind which nothing but its value is used. -/
theorem Reads.ignore {f : Form} {rule : Rule Nonterminal Bool}
    (h : Reads r pre anyhow (Form.yields true f) rule) :
    Reads r pre anyhow (fun _ => f) (Rule.ignore rule) where
  sound s hs hp hclean := by
    rw [run_ignore] at hclean ⊢
    obtain ⟨ts, hbare, hts⟩ := h.sound s hs hp hclean
    exact ⟨ts, hbare, (Form.derives_yields.mp hts).2⟩
  complete s a ts behind hs ht hp hinput _ hts hpass := by
    rw [run_ignore] at hpass ⊢
    exact ⟨rfl, (h.complete s true ts behind hs ht hp hinput trivial
      (Form.derives_yields.mpr ⟨rfl, hts⟩) hpass).2⟩

/-- What is found, and reported if it is not, in front of what is read behind it. -/
theorem Finds.require (hr : r.Faithful) {f : Form} {first : Rule Nonterminal Bool}
    {next : Bool → Rule Nonterminal β} (h : Finds r f first)
    (htrue : Reads r anything post g (next true)) (hfalse : Rejects r (next false)) :
    Reads r pre post (fun b => f ++ g b) (first >>= next) where
  sound s hs _ hclean := by
    rw [run_bind] at hclean ⊢
    have hreach := reaches_run r.setting hr.steady first s
    cases hfound : (first.run r.setting r.enter s).1 with
    | false =>
      rw [hfound] at hclean
      exact absurd hclean (hfalse _)
    | true =>
      rw [hfound] at hclean
      have hrest := reaches_run r.setting hr.steady (next true) (first.run r.setting r.enter s).2
      obtain ⟨ts, hbare, hts⟩ := h.sound s hs (hrest.reports_eq_nil hclean) hfound
      obtain ⟨us, hbare', hus⟩ := htrue.sound _ (hs.of_reaches hreach) trivial hclean
      rw [hrest.kinds_eq (hs.of_reaches hreach) hbare'] at hts
      exact ⟨ts ++ us, by rw [hbare', hbare, List.append_assoc],
        Form.derives_append.mpr ⟨ts, us, rfl, hts, hus⟩⟩
  complete s b ts behind hs ht _ hinput hpost hts hpass := by
    rw [run_bind] at hpass ⊢
    obtain ⟨us, vs, rfl, hf, hg⟩ := Form.derives_append.mp hts
    have hmap : (Tree.leavesAll vs ++ behind).map (·.1) = kinds vs ++ behind.map (·.1) := by
      rw [List.map_append, kinds]
    have hreach := reaches_run r.setting hr.steady first s
    rw [Tree.leavesAll_append, List.append_assoc] at hinput
    obtain ⟨hfound, htook⟩ := h.complete s us _ hs ht hinput (by rwa [hmap])
      (hr.passes_of_suffix (reaches_run _ hr.steady (next _) _).reports hpass)
    rw [hfound] at hpass ⊢
    obtain ⟨hvalue, htook'⟩ := htrue.complete _ b vs behind (hs.of_reaches hreach)
      (hreach.temporal ht) trivial (hreach.input_behind hs htook.bare hinput) hpost hg hpass
    exact ⟨hvalue, htook.trans htook'⟩

/-! ### Looking before reading -/

/-- What is read after a look depends on what is seen. -/
theorem Looks.bind (hr : r.Faithful) {look : Rule Nonterminal α} {v : List TokenKind → α}
    (hl : Looks look v) {g : α → β → Form}
    (h : ∀ a, Reads r (fun ks => pre ks ∧ v ks = a) post (g a) (next a)) :
    Reads r pre post (fun b => .ahead fun ks => g (v ks) b) (look >>= next) where
  sound s hs hp hclean := by
    rw [run_bind, hl] at hclean ⊢
    dsimp only at hclean ⊢
    obtain ⟨ts, hbare, hts⟩ := (h (v s.kinds)).sound s hs ⟨hp, rfl⟩ hclean
    have hkinds := (reaches_run r.setting hr.steady (next (v s.kinds)) s).kinds_eq hs hbare
    exact ⟨ts, hbare, Form.derives_ahead.mpr (by rwa [← hkinds])⟩
  complete s b ts behind hs ht hp hinput hpost hts hpass := by
    rw [run_bind, hl] at hpass ⊢
    dsimp only at hpass ⊢
    have hkinds : s.kinds = kinds ts ++ behind.map (·.1) := by
      rw [State.kinds_eq, hinput, List.map_append, kinds]
    refine (h (v s.kinds)).complete s b ts behind hs ht ⟨hp, rfl⟩ hinput hpost ?_ hpass
    rw [hkinds]
    exact Form.derives_ahead.mp hts

/-- What is read after a look need not depend on what is seen. -/
theorem Looks.same (hr : r.Faithful) {look : Rule Nonterminal α} {v : List TokenKind → α}
    (hl : Looks look v) (h : ∀ a, Reads r (fun ks => pre ks ∧ v ks = a) post g (next a)) :
    Reads r pre post g (look >>= next) :=
  (hl.bind hr h).congr fun _ _ _ _ => by rw [Form.derives_ahead]

/-- A test decides between two forms. -/
theorem Looks.branch (hr : r.Faithful) {look : Rule Nonterminal Bool} {v : List TokenKind → Bool}
    {next : Bool → Rule Nonterminal β} {f : β → Form} (hl : Looks look v)
    (htrue : Reads r (fun ks => pre ks ∧ v ks = true) post f (next true))
    (hfalse : Reads r (fun ks => pre ks ∧ v ks = false) post g (next false)) :
    Reads r pre post (fun b => .given v (f b) (g b)) (look >>= next) := by
  refine (hl.bind hr (g := fun a b => if a then f b else g b) fun a => ?_ : Reads ..)
  cases a with
  | true => exact htrue
  | false => exact hfalse

/-- What is read only if a test holds, in front of what is read in any case. -/
theorem Looks.whenThen (hr : r.Faithful) {look : Rule Nonterminal Bool}
    {v : List TokenKind → Bool} (hl : Looks look v) {f : Form} {act : Rule Nonterminal Unit}
    {rest : Unit → Rule Nonterminal β}
    (h : Reads r (fun ks => pre ks ∧ v ks = true) anyhow (fun _ => f) act)
    (hrest : Reads r anything post g (rest ())) :
    Reads r pre post (fun b => .ifAhead v f ++ g b)
      (look >>= fun present => Rule.when present act >>= rest) := by
  have hno : Reads r (fun ks => pre ks ∧ v ks = false) post (fun b => .nothing ++ g b)
      (pure () >>= rest) := Reads.then hr reads_done hrest
  have hread : Reads r pre post (fun b => .given v (f ++ g b) (.nothing ++ g b))
      (look >>= fun present => Rule.when present act >>= rest) :=
    hl.branch hr (Reads.then hr h hrest) hno
  refine hread.congr fun n b ts behind => ?_
  rw [Form.ifAhead, Form.derives_given_append, Form.derives_given]

/-- What is read if a test holds, and reported otherwise, in front of what is read behind it. -/
theorem Looks.pickThen (hr : r.Faithful) {look : Rule Nonterminal Bool}
    {v : List TokenKind → Bool} (hl : Looks look v) {f : Form} {yes no : Rule Nonterminal Unit}
    {rest : Unit → Rule Nonterminal β}
    (h : Reads r (fun ks => pre ks ∧ v ks = true) anyhow (fun _ => f) yes) (hno : Rejects r no)
    (hrest : Reads r anything post g (rest ())) :
    Reads r pre post (fun b => .given v f .never ++ g b)
      (look >>= fun present => pick present yes no >>= rest) := by
  have hread : Reads r pre post (fun b => .given v (f ++ g b) .never)
      (look >>= fun present => pick present yes no >>= rest) :=
    hl.branch hr (Reads.then hr h hrest) (hno.bind hr _).reads
  refine hread.congr fun n b ts behind => ?_
  rw [Form.derives_given_append, Form.derives_given]
  split
  · rfl
  · simp

/-- What is read only if a test holds. -/
theorem Looks.when (hr : r.Faithful) {look : Rule Nonterminal Bool}
    {v : List TokenKind → Bool} (hl : Looks look v) {f : Form} {act : Rule Nonterminal Unit}
    (h : Reads r (fun ks => pre ks ∧ v ks = true) anyhow (fun _ => f) act) :
    Reads r pre anyhow (fun _ => .ifAhead v f) (look >>= fun present => Rule.when present act) :=
  hl.branch hr h reads_done

/-- What is read only if a test holds, which it does in front of what is read. -/
theorem Looks.tries {look : Rule Nonterminal Bool} {v : List TokenKind → Bool}
    {act : Rule Nonterminal Unit} {f : Form} (hl : Looks look v)
    (h : Reads r (v · = true) anyhow (fun _ => f) act)
    (htest : f.Shows v) : Tries r f (look >>= fun present => Rule.when present act) where
  sound s hs hclean := by
    rw [run_bind, hl] at hclean ⊢
    dsimp only at hclean ⊢
    cases hv : v s.kinds with
    | false => exact .inl rfl
    | true =>
      rw [hv] at hclean
      exact .inr (h.sound s hs hv hclean)
  complete s ts behind hs ht hinput hts hpass := by
    have hv : v s.kinds = true := by
      rw [State.kinds_eq, hinput, List.map_append]
      exact htest _ _ _ hts
    rw [run_bind, hl] at hpass ⊢
    dsimp only at hpass ⊢
    rw [hv] at hpass ⊢
    exact (h.complete s () ts behind hs ht hv hinput trivial hts hpass).2

/-- What a rule tries if a test fails, which it does not in front of what is read otherwise. -/
theorem Looks.triesOr {look : Rule Nonterminal Bool} {v : List TokenKind → Bool} {f g : Form}
    {yes no : Rule Nonterminal Unit} (hl : Looks look v)
    (hyes : Reads r (v · = true) anyhow (fun _ => f) yes) (hno : Tries r g no) (hf : f.Shows v)
    (hg : g.Shows fun ks => !v ks) :
    Tries r (.either f g) (look >>= fun present => if present then yes else no) where
  sound s hs hclean := by
    rw [run_bind, hl] at hclean ⊢
    dsimp only at hclean ⊢
    cases hv : v s.kinds with
    | true =>
      rw [hv] at hclean
      obtain ⟨ts, hbare, hts⟩ := hyes.sound s hs hv hclean
      exact .inr ⟨ts, hbare, .left hts⟩
    | false =>
      rw [hv] at hclean
      exact (hno.sound s hs hclean).imp_right fun ⟨ts, hbare, hts⟩ => ⟨ts, hbare, .right hts⟩
  complete s ts behind hs ht hinput hts hpass := by
    have hkinds : s.kinds = kinds ts ++ behind.map (·.1) := by
      rw [State.kinds_eq, hinput, List.map_append, kinds]
    rw [run_bind, hl] at hpass ⊢
    dsimp only at hpass ⊢
    obtain hts | hts := Form.derives_either.mp hts
    · have hv : v s.kinds = true := by rw [hkinds, hf _ _ _ hts]
      rw [hv] at hpass ⊢
      exact (hyes.complete s () ts behind hs ht hv hinput trivial hts hpass).2
    · have hv : v s.kinds = false := by simpa [hkinds] using hg _ _ _ hts
      rw [hv] at hpass ⊢
      exact hno.complete s ts behind hs ht hinput hts hpass

/-- A test that what is read passes anyway; if it fails, that is reported. -/
theorem Looks.require (hr : r.Faithful) {look : Rule Nonterminal Bool} {v : List TokenKind → Bool}
    {next : Bool → Rule Nonterminal β} (hl : Looks look v)
    (htrue : Reads r (fun ks => pre ks ∧ v ks = true) post g (next true))
    (hfalse : Rejects r (next false))
    (htest : ∀ b, (g b).Shows v) : Reads r pre post g (look >>= next) :=
  (hl.branch hr htrue hfalse.reads).dropTest htest

end Combined

/-! ### Taking tokens -/

section Tokens

variable {r : Reader} {β : Type} {pre rest : List TokenKind → Prop} {ks : List TokenKind}
  {kind : TokenKind}

/-- A token of which it is known what it is. -/
theorem reads_bump (hfront : ∀ ahead, pre ahead → Front ks rest ahead) :
    Reads r pre anyhow (fun _ => .token ks) bump where
  sound s hs hp _ := by
    obtain ⟨k, behind, hkinds, hk, -⟩ := hfront _ hp
    obtain ⟨w, ws, hw, rfl⟩ := State.words_of_kinds hkinds
    exact ⟨[w.token.leaf], State.bare_bump hs hw, .token hk⟩
  complete s a ts behind hs _ _ hinput _ hts _ := by
    obtain ⟨k, text, -, rfl⟩ := Form.derives_token.mp hts
    obtain ⟨w, ws, hw, hk, -⟩ := List.map_eq_cons_iff.mp hinput
    obtain ⟨rfl, rfl⟩ := Prod.mk.inj hk
    exact ⟨rfl, State.took_bump hs hw⟩

/-- A token of which it is known what it is, and what is read behind it. -/
theorem Reads.bumpThen (hr : r.Faithful) {g : β → Form} {next : Unit → Rule Nonterminal β}
    {post : β → List TokenKind → Prop} (hfront : ∀ ahead, pre ahead → Front ks rest ahead)
    (h : Reads r rest post g (next ())) :
    Reads r pre post (fun b => .token ks ++ g b) (bump >>= next) := by
  refine (reads_bump hfront).thenKnown hr h fun n ts behind hts hp => ?_
  obtain ⟨k, behind', hahead, -, hrest⟩ := hfront _ hp
  obtain ⟨k, text, -, rfl⟩ := Form.derives_token.mp hts
  obtain ⟨-, rfl⟩ := List.cons.inj hahead
  exact hrest

theorem front_of_any {test : TokenKind → Bool} {kinds ks : List TokenKind}
    (h : ks[0]?.any test = true) (himp : ∀ k, test k = true → k ∈ kinds) :
    Front kinds anything ks := by
  cases ks with
  | nil => cases h
  | cons k ks => exact ⟨k, ks, rfl, himp k h, trivial⟩

theorem front_of_at? {kind : TokenKind} {ks : List TokenKind} (h : Form.at? kind ks = true) :
    Front [kind] anything ks := by
  cases ks with
  | nil => cases h
  | cons k ks => exact ⟨k, ks, rfl, by simpa [Form.at?] using h, trivial⟩

theorem front_of_atAny {kinds ks : List TokenKind} (h : Form.atAny kinds ks = true) :
    Front kinds anything ks :=
  front_of_any h fun _ => List.contains_iff_mem.mp

theorem at?_eq_false {other : TokenKind} {ks : List TokenKind} (h : Form.at? kind ks = true)
    (hne : kind ≠ other) : Form.at? other ks = false := by
  obtain ⟨k, rest, rfl, hk, -⟩ := front_of_at? h
  rw [List.mem_singleton.mp hk]
  simpa [Form.at?] using hne

/-- Of two tokens it is not the first that is ahead. -/
theorem front_of_other {other : TokenKind} {ks : List TokenKind}
    (h : Form.atAny [kind, other] ks = true) (hne : Form.at? kind ks = false) :
    Front [other] anything ks := by
  obtain ⟨k, behind, rfl, hk, -⟩ := front_of_atAny h
  have hne : k ≠ kind := by simpa [Form.at?] using hne
  exact ⟨k, behind, rfl, by simpa [hne] using hk, trivial⟩

/-- A token of a kind or, if none is ahead, something else. -/
theorem reads_eat_bind (hr : r.Faithful) {f g : β → Form} {next : Bool → Rule Nonterminal β}
    {post : β → List TokenKind → Prop} (htrue : Reads r anything post f (next true))
    (hfalse : Reads r (fun ks => pre ks ∧ Form.at? kind ks = false) post g (next false)) :
    Reads r pre post (fun b => .given (Form.at? kind) (.token [kind] ++ f b) (g b))
      (eat kind >>= next) := by
  have hrun : ∀ s, (eat kind >>= next).run r.setting r.enter s
      = (currentIs kind >>= fun present =>
          if present then bump >>= fun _ => next true else next false).run r.setting r.enter s := by
    intro s
    simp only [run_bind, run_eat, run_currentIs]
    cases s.kindAt 0 == some kind <;> rfl
  have hread : Reads r pre post (fun b => .given (Form.at? kind) (.token [kind] ++ f b) (g b))
      (currentIs kind >>= fun present =>
          if present then bump >>= fun _ => next true else next false) := by
    exact (looks_currentIs kind).branch hr (.bumpThen hr (fun _ h => front_of_at? h.2) htrue) hfalse
  constructor
  · simpa only [hrun] using hread.sound
  · simpa only [hrun] using hread.complete

/-- Whether a token is ahead, which is taken if it is. -/
def eaten (kind : TokenKind) (present : Bool) : Form :=
  .given (Form.at? kind) (Form.yields true (.token [kind]) present)
    (Form.yields false .nothing present)

theorem reads_eat (hr : r.Faithful) : Reads r pre anyhow (eaten kind) (eat kind) := by
  have hread : Reads r pre anyhow (fun present => .given (Form.at? kind)
      (.token [kind] ++ Form.yields true .nothing present) (Form.yields false .nothing present))
      (eat kind >>= pure) := reads_eat_bind hr (reads_pure true) (reads_pure false)
  refine (hread.congr fun n present ts behind => ?_).ofRun fun _ => rfl
  simp only [eaten, Form.derives_given, Form.derives_append_yields, Form.derives_yields,
    Form.derives_append_nothing]

/-- What is read only behind a token that was eaten. -/
theorem reads_eat_when (hr : r.Faithful) {f : Form} {act : Rule Nonterminal Unit}
    (h : Reads r anything anyhow (fun _ => f) act) :
    Reads r pre anyhow (fun _ => .ifAhead (Form.at? kind) (.token [kind] ++ f))
      (eat kind >>= fun present => Rule.when present act) :=
  reads_eat_bind hr h reads_done

theorem reads_optional (hr : r.Faithful) :
    Reads r pre anyhow (fun _ => .optional kind) (ignore (eat kind)) := by
  refine (reads_eat_bind hr (f := fun _ : Unit => .nothing) reads_done reads_done : Reads r pre
    anyhow _ (eat kind >>= fun _ => pure ())).congr fun n a ts behind => ?_
  simp only [Form.optional, Form.ifAhead, Form.derives_given, Form.derives_append,
    Form.derives_nothing]
  simp

/-- A token that has to be there. -/
theorem reads_expectToken (hr : r.Faithful) (kind : TokenKind) (code : Code)
    (opener : Option ByteRange) :
    Reads r pre anyhow (Form.yields true (.token [kind])) (expectToken kind code opener) := by
  have hpresent : Reads r anything anyhow (Form.yields true .nothing)
      (pure true : Rule Nonterminal Bool) := reads_pure true
  have hread : Reads r pre anyhow (fun b => .given (Form.at? kind)
      (.token [kind] ++ Form.yields true .nothing b) .never) (expectToken kind code opener) := by
    refine reads_eat_bind hr hpresent (Rejects.reads ?_)
    refine .behind fun _ => .behind fun _ => .ite ?_ ?_
    · exact (rejects_skipToken hr _).bind hr _
    · exact (rejects_report hr _).bind hr _
  have htoken : Reads r pre anyhow (fun b => .given (Form.at? kind)
      (Form.yields true (.token [kind]) b) .never) (expectToken kind code opener) := by
    refine hread.congr fun n a ts behind => ?_
    simp [Form.derives_given, Form.derives_yields]
  refine htoken.dropTest fun a n ts behind hts => ?_
  obtain ⟨-, hts⟩ := Form.derives_yields.mp hts
  obtain ⟨k, text, hk, rfl⟩ := Form.derives_token.mp hts
  simpa [Form.at?] using hk

theorem reads_expect (hr : r.Faithful) (kind : TokenKind) :
    Reads r pre anyhow (fun _ => .token [kind]) (ignore (expect kind)) :=
  (reads_expectToken hr kind _ none).ignore

theorem reads_expectCloser (hr : r.Faithful) (kind : TokenKind) (opener : ByteRange) :
    Reads r pre anyhow (fun _ => .token [kind]) (ignore (expectCloser kind opener)) :=
  (reads_expectToken hr kind _ _).ignore

/-- What is read in front of a closing mark, and the mark. -/
theorem Reads.closed (hr : r.Faithful) {f : Form} {rule : Rule Nonterminal Unit}
    {close : Unit → Rule Nonterminal Unit}
    (h : Reads r pre (fun _ ks => Form.at? kind ks = true) (fun _ => f) rule)
    (hclose : Reads r anything anyhow (fun _ => .token [kind]) (close ())) :
    Reads r pre anyhow (fun _ => f ++ .token [kind]) (rule >>= close) := by
  refine .before hr h hclose fun _ _ _ hts _ => ?_
  obtain ⟨k, text, hk, rfl⟩ := Form.derives_token.mp hts
  simpa [Form.at?] using hk

end Tokens

/-! ### Nodes, groups and contexts -/

section Around

variable {r : Reader} {α : Type} {pre : List TokenKind → Prop}
  {post : α → List TokenKind → Prop} {f : α → Form} {body : Rule Nonterminal α}

theorem ready_inner {s : State} (hs : s.Ready) : (inner s).Ready :=
  (State.ready_attachPending hs).of_eq rfl rfl rfl

theorem bare_inner (s : State) : (inner s).bare = [] := rfl

theorem Reads.node (h : Reads r pre post f body) (kind : NodeKind) :
    Reads r pre post (fun a => .node kind (f a)) (.node kind body) where
  sound s hs hp hclean := by
    obtain ⟨ts, hbare, hts⟩ := h.sound (inner s) (ready_inner hs) hp hclean
    rw [bare_inner, List.nil_append] at hbare
    refine ⟨[.node kind ts], ?_, .node hts⟩
    rw [← hbare]
    exact bare_node hs kind body
  complete s a ts behind hs ht hp hinput hpost hts hpass := by
    obtain ⟨us, rfl, hus⟩ := Form.derives_node.mp hts
    rw [Tree.leavesAll_singleton, Tree.leaves] at hinput
    obtain ⟨hvalue, htook⟩ := h.complete (inner s) a us behind (ready_inner hs) ht hp hinput hpost
      hus hpass
    refine ⟨hvalue, ?_, htook.reports⟩
    have hbare := htook.bare
    rw [bare_inner, List.nil_append] at hbare
    rw [← hbare]
    exact bare_node hs kind body

theorem run_group {setting : Setting} {enter : Nonterminal → State → Bool × State}
    (body : Rule Nonterminal α) (s : State) :
    (Rule.group body).run setting enter s = ((body.run setting enter (inner s)).1,
      { (body.run setting enter (inner s)).2 with
        siblings := (body.run setting enter (inner s)).2.siblings ++ s.attachPending.siblings }) :=
  (rfl)

/-- The trees of a group stand behind those in front of it. -/
theorem bare_group {s : State} (hs : s.Ready) (t : State) :
    State.bare { t with siblings := t.siblings ++ s.attachPending.siblings } = s.bare ++ t.bare :=
  State.bare_behind hs t.siblings

/-- What is read where nothing was read before is read in a group. -/
theorem Reads.group
    (hsound : ∀ s : State, s.Ready → s.bare = [] → pre s.kinds →
      (body.run r.setting r.enter s).2.reports = [] →
      (f (body.run r.setting r.enter s).1).Derives r.depth (body.run r.setting r.enter s).2.bare
        (body.run r.setting r.enter s).2.kinds)
    (hcomplete : ∀ (s : State) a ts behind, s.Ready → s.bare = [] → s.temporal = true →
      pre s.kinds → s.input = Tree.leavesAll ts ++ behind → post a (behind.map (·.1)) →
      (f a).Derives r.limit ts (behind.map (·.1)) →
      r.passes (body.run r.setting r.enter s).2.reports →
      (body.run r.setting r.enter s).1 = a ∧ State.Took ts s (body.run r.setting r.enter s).2) :
    Reads r pre post f (.group body) where
  sound s hs hp hclean := by
    rw [run_group] at hclean ⊢
    exact ⟨_, bare_group hs _, hsound (inner s) (ready_inner hs) (bare_inner s) hp hclean⟩
  complete s a ts behind hs ht hp hinput hpost hts hpass := by
    rw [run_group] at hpass ⊢
    obtain ⟨hvalue, htook⟩ := hcomplete (inner s) a ts behind (ready_inner hs) (bare_inner s) ht hp
      hinput hpost hts hpass
    refine ⟨hvalue, (bare_group hs _).trans ?_, htook.reports⟩
    rw [htook.bare, bare_inner, List.nil_append]

theorem Finds.group {g : Form} (body : Rule Nonterminal Bool)
    (hsound : ∀ s : State, s.Ready → s.bare = [] →
      (body.run r.setting r.enter s).2.reports = [] → (body.run r.setting r.enter s).1 = true →
      g.Derives r.depth (body.run r.setting r.enter s).2.bare
        (body.run r.setting r.enter s).2.kinds)
    (hcomplete : ∀ (s : State) ts behind, s.Ready → s.bare = [] → s.temporal = true →
      s.input = Tree.leavesAll ts ++ behind → g.Derives r.limit ts (behind.map (·.1)) →
      r.passes (body.run r.setting r.enter s).2.reports →
      (body.run r.setting r.enter s).1 = true ∧
        State.Took ts s (body.run r.setting r.enter s).2) :
    Finds r g (.group body) where
  sound s hs hclean hfound := by
    rw [run_group] at hclean hfound ⊢
    exact ⟨_, bare_group hs _, hsound (inner s) (ready_inner hs) (bare_inner s) hclean hfound⟩
  complete s ts behind hs ht hinput hts hpass := by
    rw [run_group] at hpass ⊢
    obtain ⟨hfound, htook⟩ := hcomplete (inner s) ts behind (ready_inner hs) (bare_inner s) ht
      hinput hts hpass
    refine ⟨hfound, (bare_group hs _).trans ?_, htook.reports⟩
    rw [htook.bare, bare_inner, List.nil_append]

/-- All that was read in a group is put into a node. -/
theorem bare_wrap (t : State) (kind : NodeKind) :
    State.bare { t with siblings := [.node kind t.siblings.reverse] } = [.node kind t.bare] := by
  simp [State.bare]

theorem Reads.within (h : Reads r pre post f body) (context : Context) :
    Reads r pre post f (.within context body) where
  sound s hs hp hclean :=
    h.sound { s with contexts := context :: s.contexts } (hs.of_eq rfl rfl rfl) hp hclean
  complete s a ts behind hs ht hp hinput hpost hts hpass := by
    obtain ⟨hvalue, htook⟩ := h.complete { s with contexts := context :: s.contexts } a ts behind
      (hs.of_eq rfl rfl rfl) ht hp hinput hpost hts hpass
    exact ⟨hvalue, htook.bare, htook.reports⟩

theorem reads_requireTemporal (hr : r.Faithful) :
    Reads r pre anyhow (fun _ => .nothing) requireTemporal where
  sound s hs _ hclean := by
    rw [run] at hclean ⊢
    split at hclean
    · next htemporal =>
      rw [if_pos htemporal]
      exact ⟨[], (List.append_nil _).symm, .nothing⟩
    · exact absurd hclean (State.reports_report_ne_nil hr.keep _ _)
  complete s a ts behind hs ht _ _ _ hts _ := by
    obtain rfl := Form.derives_nothing.mp hts
    rw [run, if_pos ht]
    exact ⟨rfl, .refl s⟩

/-- What may be required of the configuration takes nothing. -/
theorem reads_whenTemporal (hr : r.Faithful) (temporal : Bool) :
    Reads r pre anyhow (fun _ => .nothing) (Rule.when temporal requireTemporal) := by
  cases temporal with
  | false => exact reads_done
  | true => exact reads_requireTemporal hr

theorem reads_admitTemporal : Reads r pre anyhow (fun _ => .nothing) admitTemporal where
  sound s hs _ _ := by
    refine ⟨[], ?_, .nothing⟩
    rw [List.append_nil, run]
    split <;> rfl
  complete s a ts behind hs _ _ _ _ hts _ := by
    obtain rfl := Form.derives_nothing.mp hts
    refine ⟨rfl, ?_⟩
    rw [run]
    split
    · exact ⟨(List.append_nil _).symm, rfl⟩
    · exact .refl s

/-- The range of a token tells nothing about what is read. -/
theorem Reads.currentRange {next : ByteRange → Rule Nonterminal α}
    (h : ∀ range, Reads r pre post f (next range)) :
    Reads r pre post f (.currentRange >>= next) where
  sound s := (h (s.currentRange r.setting)).sound s
  complete s := (h (s.currentRange r.setting)).complete s

/-- What is read does not depend on whether the reading is at a recovery point. -/
theorem Reads.anywhere {next : Bool → Rule Nonterminal α}
    (h : ∀ recovered, Reads r pre post f (next recovered)) :
    Reads r pre post f (.atRecoveryPoint >>= next) where
  sound s := (h s.atRecoveryPoint).sound s
  complete s := (h s.atRecoveryPoint).complete s

/-- The text of a token tells nothing about what is read. -/
theorem Reads.currentText {next : String → Rule Nonterminal α}
    (h : ∀ text, Reads r pre post f (next text)) :
    Reads r pre post f (.currentText >>= next) where
  sound s := (h ((Rule.currentText : Rule Nonterminal String).run r.setting r.enter s).1).sound s
  complete s :=
    (h ((Rule.currentText : Rule Nonterminal String).run r.setting r.enter s).1).complete s

end Around

/-! ### Loops -/

section Loops

variable {r : Reader} {pre : List TokenKind → Prop} {σ τ : Type}

/-- What a loop reads from a state on, if its rounds read forms and that which is read from a state
on is what a last round reads, or what another one reads and then what is read from the next
state on. Not all of the last state need be told by what was read. -/
theorem reads_loop_view (hr : r.Faithful) {body : σ → Rule Nonterminal (σ × Bool)}
    (hadvance : Advancing r.setting r.enter σ body) {I : σ → Prop} (out : σ → τ)
    {post : τ → List TokenKind → Prop} {f : σ → σ × Bool → Form} {g : σ → τ → Form}
    (hbody : ∀ a, I a → Reads r anything (fun p behind => p.2 = false → post (out p.1) behind)
      (f a) (body a))
    (hkeep : ∀ a b n ts behind, I a → (f a (b, true)).Derives n ts behind → I b)
    (hloop : ∀ a c n ts behind, I a → ((g a c).Derives n ts behind ↔
      (∃ b, out b = c ∧ (f a (b, false)).Derives n ts behind) ∨
        ∃ b, (f a (b, true) ++ g b c).Derives n ts behind))
    {a : σ} (ha : I a) :
    Reads r anything post (g a) (.loop a body >>= fun b => pure (out b)) := by
  have hunfold := run_loop hr.steady hadvance
  refine ⟨fun s hs _ hclean => ?_, fun s c ts behind hs ht _ hinput hpost hts hpass => ?_⟩
  · simp only [run_bind, run_pure] at hclean ⊢
    induction hn : s.left using Nat.strongRecOn generalizing a s with
    | ind n ih =>
      subst hn
      rw [hunfold a hs.valid] at hclean ⊢
      have hreach := reaches_run r.setting hr.steady (body a) s
      cases hmore : ((body a).run r.setting r.enter s).1.2 with
      | false =>
        rw [hmore, if_neg Bool.false_ne_true] at hclean
        obtain ⟨ts, hbare, hts⟩ := (hbody a ha).sound s hs trivial hclean
        rw [show ((body a).run r.setting r.enter s).1 = (_, false) from Prod.ext rfl hmore] at hts
        exact ⟨ts, hbare, (hloop _ _ _ _ _ ha).mpr (.inl ⟨_, rfl, hts⟩)⟩
      | true =>
        rw [hmore, if_pos rfl] at hclean
        have hrest := reaches_run r.setting hr.steady (.loop
          ((body a).run r.setting r.enter s).1.1 body) ((body a).run r.setting r.enter s).2
        obtain ⟨ts, hbare, hts⟩ := (hbody a ha).sound s hs trivial
          (hrest.reports_eq_nil hclean)
        rw [show ((body a).run r.setting r.enter s).1 = (_, true) from Prod.ext rfl hmore] at hts
        obtain ⟨us, hbare', hus⟩ := ih _ (hadvance a s hs.valid hmore) (hkeep _ _ _ _ _ ha hts) _
          (hs.of_reaches hreach) trivial hclean rfl
        have hkinds := hrest.kinds_eq (hs.of_reaches hreach) hbare'
        rw [hkinds] at hts
        refine ⟨ts ++ us, by rw [if_pos rfl, hbare', hbare, List.append_assoc], ?_⟩
        exact (hloop _ _ _ _ _ ha).mpr (.inr ⟨_, Form.derives_append.mpr ⟨ts, us, rfl, hts, hus⟩⟩)
  · simp only [run_bind, run_pure] at hpass ⊢
    induction hn : s.left using Nat.strongRecOn generalizing a s ts with
    | ind n ih =>
      subst hn
      rw [hunfold a hs.valid] at hpass ⊢
      have hreach := reaches_run r.setting hr.steady (body a) s
      have hround : r.passes ((body a).run r.setting r.enter s).2.reports := by
        split at hpass
        · exact hr.passes_of_suffix (reaches_run r.setting hr.steady (.loop _ body) _).reports hpass
        · exact hpass
      obtain ⟨b, rfl, hlast⟩ | ⟨b, hmore⟩ := (hloop _ _ _ _ _ ha).mp hts
      · obtain ⟨hvalue, htook⟩ := (hbody a ha).complete s (b, false) ts behind hs ht trivial hinput
          (fun _ => hpost) hlast hround
        rw [hvalue]
        exact ⟨rfl, htook⟩
      · obtain ⟨us, vs, rfl, hf, hg⟩ := Form.derives_append.mp hmore
        have hmap : (Tree.leavesAll vs ++ behind).map (·.1) = kinds vs ++ behind.map (·.1) := by
          rw [List.map_append, kinds]
        rw [Tree.leavesAll_append, List.append_assoc] at hinput
        obtain ⟨hvalue, htook⟩ := (hbody a ha).complete s (b, true) us _ hs ht trivial hinput
          (fun hlast => Bool.noConfusion hlast) (by rwa [hmap]) hround
        rw [hvalue, if_pos rfl] at hpass ⊢
        obtain ⟨hvalue', htook'⟩ := ih _ (hadvance a s hs.valid (by rw [hvalue]))
          (hkeep _ _ _ _ _ ha hf) _ vs (hs.of_reaches hreach) (hreach.temporal ht) trivial
          (hreach.input_behind hs htook.bare hinput) hg hpass rfl
        exact ⟨hvalue', htook.trans htook'⟩

theorem reads_loop (hr : r.Faithful) {body : σ → Rule Nonterminal (σ × Bool)}
    (hadvance : Advancing r.setting r.enter σ body) {post : σ → List TokenKind → Prop}
    {f : σ → σ × Bool → Form} {g : σ → σ → Form}
    (hbody : ∀ a, Reads r anything (fun p behind => p.2 = false → post p.1 behind) (f a) (body a))
    (hloop : ∀ a b n ts behind, (g a b).Derives n ts behind ↔
      (f a (b, false)).Derives n ts behind ∨ ∃ c, (f a (c, true) ++ g c b).Derives n ts behind)
    (a : σ) : Reads r anything post (g a) (.loop a body) :=
  (reads_loop_view hr hadvance (I := fun _ => True) id (fun a _ => hbody a)
    (fun _ _ _ _ _ _ _ => trivial) (fun a b n ts behind _ => by simp [hloop a b n ts behind])
    trivial).ofRun fun _ => rfl

/-- A repetition whose rounds yield whether they ask for another. -/
theorem reads_repeated (hr : r.Faithful) {body : Rule Nonterminal Bool}
    (hmoves : Moves r.setting r.enter body) {post : List TokenKind → Prop} {g : Bool → Form}
    (h : Reads r anything (fun more behind => more = false → post behind) g body) :
    Reads r pre (fun _ => post) (fun _ => .many (g true) ++ g false) (repeated body) := by
  refine Reads.ofAnything (reads_loop hr hmoves.advancing (f := fun _ p => g p.2)
    (g := fun _ _ => .many (g true) ++ g false) (fun _ => ?_) (fun _ _ _ _ _ => ?_) ())
  · refine ⟨h.sound, fun s p ts behind hs ht hp hinput hpost hts hpass => ?_⟩
    obtain ⟨hvalue, htook⟩ := h.complete s p.2 ts behind hs ht hp hinput hpost hts hpass
    exact ⟨Prod.ext rfl hvalue, htook⟩
  · rw [Form.derives_many_append]
    simp

/-- Repetitions whose rounds do the same do the same. -/
theorem run_repeated_congr {setting : Setting} {enter : Nonterminal → State → Bool × State}
    {body body' : Rule Nonterminal Bool} (h : ∀ s, body.run setting enter s = body'.run setting enter s)
    (s : State) : (repeated body).run setting enter s = (repeated body').run setting enter s := by
  simp only [repeated, run, h]

/-- Items for as long as a test holds. -/
theorem reads_while (hr : r.Faithful) {look : Rule Nonterminal Bool} {v : List TokenKind → Bool}
    (hl : Looks look v) {act : Rule Nonterminal Unit} {item : Form}
    (hmoves : Moves r.setting r.enter (do
      let more ← look
      Rule.when more act
      return more))
    (h : Reads r (v · = true) anyhow (fun _ => item) act) :
    Reads r pre anyhow (fun _ => .whileAhead v item) (repeated do
      let more ← look
      Rule.when more act
      return more) := by
  refine (reads_repeated hr hmoves (g := fun more =>
    if more then .look v ++ item else .look fun ks => !v ks) ?_ : Reads r pre anyhow _ _)
  have hyes : Reads r (fun ks => anything ks ∧ v ks = true) anyhow
      (fun more => item ++ .yields true .nothing more) (act >>= fun _ => pure true) :=
    Reads.then hr (h.weaken fun _ hp => hp.2) (reads_pure true)
  have hno : Reads r (fun ks => anything ks ∧ v ks = false) anyhow
      (fun more => .nothing ++ .yields false .nothing more)
      (pure () >>= fun _ => pure false : Rule Nonterminal Bool) :=
    Reads.then hr reads_done (reads_pure false)
  have hread : Reads r anything anyhow (fun more => .given v (item ++ .yields true .nothing more)
      (.nothing ++ .yields false .nothing more)) (do
        let more ← look
        Rule.when more act
        return more) := hl.branch hr hyes hno
  refine Reads.ofAnyhow (hread.congr fun n more ts behind => ?_)
  cases more <;> cases hv : v (kinds ts ++ behind) <;> simp [Form.derives_given, hv]
  all_goals
    rintro rfl
    simpa using hv

/-- Items that begin with a token, for as long as one is ahead. -/
theorem reads_whileBump (hr : r.Faithful) {look : Rule Nonterminal Bool}
    {v : List TokenKind → Bool} (hl : Looks look v) {ks : List TokenKind}
    {rest : List TokenKind → Prop} (hfront : ∀ ahead, v ahead = true → Front ks rest ahead)
    {next : Unit → Rule Nonterminal Unit} {f : Form}
    (h : Reads r rest anyhow (fun _ => f) (next ())) :
    Reads r pre anyhow (fun _ => .whileAhead v (.token ks ++ f)) (repeated do
      let more ← look
      Rule.when more (bump >>= next)
      return more) := by
  have hsees : Sees r.setting r.enter look := by
    intro s
    rw [hl]
    refine ⟨rfl, fun hv => ?_⟩
    obtain ⟨k, behind, hkinds, -⟩ := hfront _ hv
    simp [State.kindAt_eq, hkinds]
  refine reads_while hr hl (hsees.guarded (takes_bump.bind hr.steady next)) ?_
  exact .bumpThen hr hfront h

/-- Items behind marks. -/
theorem reads_separated (hr : r.Faithful) {mark : Punct} {act : Rule Nonterminal Unit}
    {item : Form} (h : Reads r anything anyhow (fun _ => item) act) :
    Reads r pre anyhow (fun _ => .separated mark item) (repeated do
      let more ← eat mark
      Rule.when more act
      return more) := by
  have hmoves : Moves r.setting r.enter (do
      let more ← eat mark
      Rule.when more act
      return more) := (moves_eat _).guarded hr.steady act
  refine (reads_repeated hr hmoves (g := fun more =>
    if more then .look (Form.at? mark) ++ (.token [.punct mark] ++ item)
    else .look fun ks => !Form.at? mark ks) ?_ : Reads r pre anyhow _ _)
  have hyes : Reads r anything anyhow (fun more => item ++ .yields true .nothing more)
      (act >>= fun _ => pure true) := Reads.then hr h (reads_pure true)
  have hno : Reads r (fun ks => anything ks ∧ Form.at? mark ks = false) anyhow
      (fun more => .nothing ++ .yields false .nothing more)
      (pure () >>= fun _ => pure false : Rule Nonterminal Bool) :=
    Reads.then hr reads_done (reads_pure false)
  have hread : Reads r anything anyhow (fun more => .given (Form.at? mark)
      (.token [.punct mark] ++ (item ++ .yields true .nothing more))
      (.nothing ++ .yields false .nothing more)) (do
        let more ← eat mark
        Rule.when more act
        return more) := reads_eat_bind hr hyes hno
  refine Reads.ofAnyhow (hread.congr fun n more ts behind => ?_)
  cases more <;> cases hv : Form.at? mark (kinds ts ++ behind) <;>
    simp [Form.derives_given, Form.derives_append (f := .token _), hv]
  all_goals
    rintro rfl
    simpa using hv

/-- Items up to a closing mark that has to be there. -/
theorem reads_items (hr : r.Faithful) {closer : Punct} {code : Code} {rule : Rule Nonterminal Unit}
    {item : Form} (h : Tries r item rule) (hbegins : item.Begins (· ≠ .punct closer)) :
    Reads r pre (fun _ ks => Form.at? closer ks = true) (fun _ => .many item)
      (items closer code rule) := by
  have hmoves : Moves r.setting r.enter _ := moves_item hr.steady closer code rule
  refine (reads_repeated hr hmoves (g := fun more => if more then item else .nothing)
    ⟨fun s hs _ hclean => ?_, fun s more ts behind hs ht _ hinput hpost hts hpass => ?_⟩).congr
    fun n _ ts behind => Form.derives_append_nothing.symm
  · simp only [run_bind, run_currentIs, run_atEnd, run_ite, run_pure, run_progress,
      run_atRecoveryPoint] at hclean ⊢
    split at hclean
    · next hdone =>
      rw [if_pos hdone]
      exact ⟨[], (List.append_nil _).symm, .nothing⟩
    · next hopen =>
      rw [if_neg hopen]
      have hreach := reaches_run r.setting hr.steady rule s
      have htry := h.sound s hs
      generalize (rule.run r.setting r.enter s).2 = t at hclean hreach htry ⊢
      split at hclean
      · next hmoved =>
        rw [if_pos hmoved]
        obtain rfl | hread := htry hclean
        · simp at hmoved
        · exact hread
      · next hstill =>
        rw [if_neg hstill]
        cases hrecovered : t.atRecoveryPoint with
        | false =>
          rw [hrecovered] at hclean
          exact absurd hclean (rejects_skipToken hr _ t)
        | true =>
          rw [hrecovered] at hclean
          obtain rfl | ⟨ts, hbare, hts⟩ := htry hclean
          · exact ⟨[], (List.append_nil _).symm, .nothing⟩
          · have hlt := hreach.left_lt hs hbare (hbegins.kinds_ne_nil hts)
            simp at hstill
            omega
  · simp only [run_bind, run_currentIs, run_atEnd, run_ite, run_pure, run_progress,
      run_atRecoveryPoint, State.kindAt_eq] at hpass ⊢
    cases more with
    | false =>
      obtain rfl := Form.derives_nothing.mp hts
      have hclosed : (s.kinds[0]? == some (.punct closer)) = true := by
        rw [State.kinds_eq, hinput]
        exact hpost rfl
      rw [hclosed]
      exact ⟨rfl, .refl s⟩
    | true =>
      have hts : item.Derives r.limit ts (behind.map (·.1)) := hts
      obtain ⟨k, ks, hk, hne⟩ := hbegins _ _ _ hts
      have hkinds : s.kinds = k :: (ks ++ behind.map (·.1)) := by
        rw [State.kinds_eq, hinput, List.map_append]
        exact congrArg (· ++ _) hk
      have hopen : ¬ (s.kinds[0]? == some (.punct closer) || s.kinds[0]?.isNone) = true := by
        simpa [hkinds] using hne
      rw [if_neg hopen] at hpass ⊢
      have hreach := reaches_run r.setting hr.steady rule s
      have hread := h.complete s ts behind hs ht hinput hts
      generalize (rule.run r.setting r.enter s).2 = t at hpass hreach hread ⊢
      have hbefore : r.passes t.reports := by
        split at hpass
        · exact hpass
        · exact hr.passes_of_suffix
            (reaches_run _ hr.steady (Rule.when _ (skipToken _)) t).reports hpass
      have htook := hread hbefore
      have hlt := hreach.left_lt hs htook.bare (hbegins.kinds_ne_nil hts)
      have hmoved : (t.left != s.left) = true := by simpa using Nat.ne_of_lt hlt
      rw [if_pos hmoved]
      exact ⟨rfl, htook⟩

end Loops
end RelLang
