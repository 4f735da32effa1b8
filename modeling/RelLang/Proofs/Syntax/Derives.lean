import RelLang.Proofs.Syntax.Grammar

/-!
# What forms stand for

A form derives trees in front of a text. Only the kinds of the tokens behind the
trees count: they are what a reading can look at when it has come to them. The
number is that of the levels that the nonterminals in the trees are deep.
-/

namespace RelLang.Form

open Tree (kinds)

/-- The trees that a form stands for, in front of tokens of some kinds. -/
inductive Derives : Nat → Form → List Tree → List TokenKind → Prop where
  | nothing {n behind} : Derives n .nothing [] behind
  | token {n ks k text behind} (h : k ∈ ks) : Derives n (.token ks) [.token k text] behind
  | seq {n f g ts us behind} (first : Derives n f ts (kinds us ++ behind))
      (second : Derives n g us behind) : Derives n (.seq f g) (ts ++ us) behind
  | left {n f g ts behind} (h : Derives n f ts behind) : Derives n (.either f g) ts behind
  | right {n f g ts behind} (h : Derives n g ts behind) : Derives n (.either f g) ts behind
  | stop {n f behind} : Derives n (.many f) [] behind
  | round {n f ts us behind} (first : Derives n f ts (kinds us ++ behind))
      (rest : Derives n (.many f) us behind) : Derives n (.many f) (ts ++ us) behind
  | node {n kind f ts behind} (h : Derives n f ts behind) :
      Derives n (.node kind f) [.node kind ts] behind
  | part {n symbol ts behind} (h : Derives n (ofNonterminal symbol) ts behind) :
      Derives (n + 1) (.part symbol) ts behind
  | ahead {n choice ts behind} (h : Derives n (choice (kinds ts ++ behind)) ts behind) :
      Derives n (.ahead choice) ts behind
  | head {n level f ts behind} (h : Derives n f ts behind) :
      Derives n (.extended level f) ts behind
  | extend {n level f ts us k e behind}
      (front : Derives n (.extended level f) ts (kinds us ++ behind))
      (asked : Operator.extensionOf (kinds us ++ behind) = some (k, e)) (tight : level ≤ e.level)
      (back : Derives n (tail k e) us behind) :
      Derives n (.extended level f) [.node e.node (ts ++ us)] behind

variable {n m : Nat} {f g : Form} {ts us : List Tree} {behind : List TokenKind}

/-! ### What the parts of a form derive -/

@[simp] theorem derives_nothing : Derives n .nothing ts behind ↔ ts = [] := by
  constructor
  · rintro ⟨⟩
    rfl
  · rintro rfl
    exact .nothing

@[simp] theorem derives_token {ks : List TokenKind} :
    Derives n (.token ks) ts behind ↔ ∃ k text, k ∈ ks ∧ ts = [.token k text] := by
  constructor
  · rintro ⟨⟩
    exact ⟨_, _, ‹_›, rfl⟩
  · rintro ⟨k, text, hk, rfl⟩
    exact .token hk

@[simp] theorem not_derives_never : ¬ Derives n never ts behind := by
  simp [never]

theorem derives_append :
    Derives n (f ++ g) ts behind
      ↔ ∃ us vs, ts = us ++ vs ∧ Derives n f us (kinds vs ++ behind) ∧ Derives n g vs behind := by
  constructor
  · intro h
    change Derives n (.seq f g) ts behind at h
    cases h with
    | seq first second => exact ⟨_, _, rfl, first, second⟩
  · rintro ⟨us, vs, rfl, hf, hg⟩
    exact .seq hf hg

theorem derives_append_congr {g' : Form}
    (h : ∀ {us}, Derives n g us behind ↔ Derives n g' us behind) :
    Derives n (f ++ g) ts behind ↔ Derives n (f ++ g') ts behind := by
  simp only [derives_append, h]

theorem derives_either :
    Derives n (.either f g) ts behind ↔ Derives n f ts behind ∨ Derives n g ts behind := by
  constructor
  · intro h
    cases h with
    | left h => exact .inl h
    | right h => exact .inr h
  · rintro (h | h)
    · exact .left h
    · exact .right h

@[simp] theorem derives_node {kind : NodeKind} :
    Derives n (.node kind f) ts behind ↔ ∃ us, ts = [.node kind us] ∧ Derives n f us behind := by
  constructor
  · rintro ⟨⟩
    exact ⟨_, rfl, ‹_›⟩
  · rintro ⟨us, rfl, h⟩
    exact .node h

theorem derives_part {symbol : Grammar.Nonterminal} :
    Derives n (.part symbol) ts behind
      ↔ ∃ m, n = m + 1 ∧ Derives m (ofNonterminal symbol) ts behind := by
  constructor
  · rintro ⟨⟩
    exact ⟨_, rfl, ‹_›⟩
  · rintro ⟨m, rfl, h⟩
    exact .part h

theorem derives_ahead {choice : List TokenKind → Form} :
    Derives n (.ahead choice) ts behind ↔ Derives n (choice (kinds ts ++ behind)) ts behind := by
  constructor
  · rintro ⟨⟩
    assumption
  · exact .ahead

theorem derives_many :
    Derives n (.many f) ts behind ↔ ts = [] ∨
      ∃ us vs, ts = us ++ vs ∧ Derives n f us (kinds vs ++ behind) ∧
        Derives n (.many f) vs behind := by
  constructor
  · intro h
    cases h with
    | stop => exact .inl rfl
    | round first rest => exact .inr ⟨_, _, rfl, first, rest⟩
  · rintro (rfl | ⟨us, vs, rfl, hf, hrest⟩)
    · exact .stop
    · exact .round hf hrest

theorem derives_given {test : List TokenKind → Bool} :
    Derives n (given test f g) ts behind
      ↔ if test (kinds ts ++ behind) then Derives n f ts behind else Derives n g ts behind := by
  rw [given, derives_ahead]
  split <;> rfl

@[simp] theorem derives_look {test : List TokenKind → Bool} :
    Derives n (look test) ts behind ↔ ts = [] ∧ test behind = true := by
  rw [look, derives_given]
  constructor
  · split
    · next htest =>
      rw [derives_nothing]
      rintro rfl
      exact ⟨rfl, htest⟩
    · exact fun h => absurd h not_derives_never
  · rintro ⟨rfl, htest⟩
    rw [kinds, Tree.leavesAll, List.map_nil, List.nil_append, if_pos htest]
    exact .nothing

theorem derives_anyOf {forms : List Form} :
    Derives n (anyOf forms) ts behind ↔ ∃ f ∈ forms, Derives n f ts behind := by
  induction forms with
  | nil => simp [anyOf]
  | cons f forms ih =>
    rw [anyOf, List.foldr_cons, derives_either]
    simp only [List.mem_cons, exists_eq_or_imp]
    exact or_congr_right ih

theorem derives_yields {α : Type} [DecidableEq α] {a b : α} :
    Derives n (yields a f b) ts behind ↔ b = a ∧ Derives n f ts behind := by
  unfold yields
  split
  · next h => simp [h]
  · next h => simp [h]

theorem derives_append_assoc {h : Form} :
    Derives n (f ++ g ++ h) ts behind ↔ Derives n (f ++ (g ++ h)) ts behind := by
  constructor
  · intro hts
    obtain ⟨us, vs, rfl, hus, hh⟩ := derives_append.mp hts
    obtain ⟨us, ws, rfl, hf, hg⟩ := derives_append.mp hus
    refine derives_append.mpr ⟨us, ws ++ vs, List.append_assoc .., ?_, ?_⟩
    · rwa [Tree.kinds_append, List.append_assoc]
    · exact derives_append.mpr ⟨ws, vs, rfl, hg, hh⟩
  · intro hts
    obtain ⟨us, vs, rfl, hf, hvs⟩ := derives_append.mp hts
    obtain ⟨vs, ws, rfl, hg, hh⟩ := derives_append.mp hvs
    rw [Tree.kinds_append, List.append_assoc] at hf
    exact derives_append.mpr ⟨us ++ vs, ws, (List.append_assoc ..).symm,
      derives_append.mpr ⟨us, vs, rfl, hf, hg⟩, hh⟩

@[simp] theorem not_derives_append_never : ¬ Derives n (f ++ never) ts behind := by
  simp [derives_append]

@[simp] theorem not_derives_never_append : ¬ Derives n (never ++ f) ts behind := by
  simp [derives_append]

@[simp] theorem derives_append_nothing :
    Derives n (f ++ .nothing) ts behind ↔ Derives n f ts behind := by
  rw [derives_append]
  constructor
  · rintro ⟨us, vs, rfl, hf, hvs⟩
    obtain rfl := derives_nothing.mp hvs
    simpa using hf
  · exact fun h => ⟨ts, [], (List.append_nil ts).symm, by simpa using h, .nothing⟩

@[simp] theorem derives_nothing_append :
    Derives n (.nothing ++ f) ts behind ↔ Derives n f ts behind := by
  rw [derives_append]
  constructor
  · rintro ⟨us, vs, rfl, hus, hf⟩
    obtain rfl := derives_nothing.mp hus
    exact hf
  · exact fun h => ⟨[], ts, rfl, .nothing, h⟩

@[simp] theorem derives_append_yields {α : Type} [DecidableEq α] {a b : α} :
    Derives n (f ++ yields a g b) ts behind ↔ b = a ∧ Derives n (f ++ g) ts behind := by
  unfold yields
  split
  · next h => simp [h]
  · next h => simp [h, derives_append]

@[simp] theorem derives_look_append {test : List TokenKind → Bool} :
    Derives n (look test ++ f) ts behind
      ↔ test (kinds ts ++ behind) = true ∧ Derives n f ts behind := by
  rw [derives_append]
  constructor
  · rintro ⟨us, vs, rfl, hlook, hf⟩
    obtain ⟨rfl, htest⟩ := derives_look.mp hlook
    exact ⟨htest, hf⟩
  · exact fun ⟨htest, hf⟩ => ⟨[], ts, rfl, derives_look.mpr ⟨rfl, htest⟩, hf⟩

theorem derives_given_append {test : List TokenKind → Bool} {h : Form} :
    Derives n (given test f g ++ h) ts behind ↔
      if test (kinds ts ++ behind) then Derives n (f ++ h) ts behind
      else Derives n (g ++ h) ts behind := by
  simp only [derives_append]
  constructor
  · rintro ⟨us, vs, rfl, hus, hvs⟩
    rw [derives_given, ← List.append_assoc, ← Tree.kinds_append] at hus
    split
    · next htest =>
      rw [if_pos htest] at hus
      exact ⟨us, vs, rfl, hus, hvs⟩
    · next htest =>
      rw [if_neg htest] at hus
      exact ⟨us, vs, rfl, hus, hvs⟩
  · intro hts
    split at hts
    · next htest =>
      obtain ⟨us, vs, rfl, hus, hvs⟩ := hts
      refine ⟨us, vs, rfl, ?_, hvs⟩
      rwa [derives_given, ← List.append_assoc, ← Tree.kinds_append, if_pos htest]
    · next htest =>
      obtain ⟨us, vs, rfl, hus, hvs⟩ := hts
      refine ⟨us, vs, rfl, ?_, hvs⟩
      rwa [derives_given, ← List.append_assoc, ← Tree.kinds_append, if_neg htest]

theorem derives_either_append {h : Form} : (.either f g ++ h : Form).Derives n ts behind ↔
      (f ++ h).Derives n ts behind ∨ (g ++ h).Derives n ts behind := by
  simp only [derives_append, derives_either]
  constructor
  · rintro ⟨us, vs, rfl, hus | hus, hvs⟩
    · exact .inl ⟨us, vs, rfl, hus, hvs⟩
    · exact .inr ⟨us, vs, rfl, hus, hvs⟩
  · rintro (⟨us, vs, rfl, hus, hvs⟩ | ⟨us, vs, rfl, hus, hvs⟩)
    · exact ⟨us, vs, rfl, .inl hus, hvs⟩
    · exact ⟨us, vs, rfl, .inr hus, hvs⟩

/-- Items in front of something else. -/
theorem derives_many_append :
    Derives n (.many f ++ g) ts behind
      ↔ Derives n g ts behind ∨ Derives n (f ++ (.many f ++ g)) ts behind := by
  constructor
  · intro h
    obtain ⟨us, vs, rfl, hus, hvs⟩ := derives_append.mp h
    obtain rfl | ⟨us, us', rfl, hf, hrest⟩ := derives_many.mp hus
    · exact .inl hvs
    · refine .inr (derives_append.mpr ⟨us, us' ++ vs, List.append_assoc .., ?_, ?_⟩)
      · rwa [Tree.kinds_append, List.append_assoc]
      · exact derives_append.mpr ⟨us', vs, rfl, hrest, hvs⟩
  · rintro (h | h)
    · exact derives_append.mpr ⟨[], ts, rfl, .stop, h⟩
    · obtain ⟨us, vs, rfl, hf, hvs⟩ := derives_append.mp h
      obtain ⟨us', vs, rfl, hrest, hg⟩ := derives_append.mp hvs
      rw [Tree.kinds_append, List.append_assoc] at hf
      exact derives_append.mpr ⟨us ++ us', vs, (List.append_assoc ..).symm, .round hf hrest, hg⟩

theorem derives_row_cons {h : Form} {forms : List Form} :
    Derives n (row (f :: h :: forms)) ts behind ↔ ∃ us vs, ts = us ++ vs ∧
      Derives n f us (kinds vs ++ behind) ∧ Derives n (row (h :: forms)) vs behind :=
  derives_append

/-- The test on what is behind passes. -/
theorem Derives.then_look {test : List TokenKind → Bool} (h : Derives n f ts behind)
    (htest : test behind = true) : Derives n (f ++ look test) ts behind :=
  derives_append.mpr ⟨ts, [], (List.append_nil ts).symm, h, derives_look.mpr ⟨rfl, htest⟩⟩

theorem derives_append_look {test : List TokenKind → Bool} :
    Derives n (f ++ look test) ts behind ↔ Derives n f ts behind ∧ test behind = true := by
  refine ⟨fun h => ?_, fun ⟨h, htest⟩ => h.then_look htest⟩
  obtain ⟨us, vs, rfl, hus, hvs⟩ := derives_append.mp h
  obtain ⟨rfl, htest⟩ := derives_look.mp hvs
  rw [List.append_nil]
  exact ⟨hus, htest⟩

/-- The items end where the test in front of one more fails. -/
theorem Derives.then_stop {test : List TokenKind → Bool}
    (h : Derives n (.many (look test ++ f)) ts behind) (htest : test behind = false) :
    Derives n (whileAhead test f) ts behind :=
  h.then_look (by rw [htest]; rfl)

theorem Derives.one {k : TokenKind} {text : String} :
    Derives n (.token [k]) [.token k text] behind :=
  .token (List.mem_singleton_self k)

/-- A token in front of what a form derives. -/
theorem Derives.one_append {k : TokenKind} {text : String} (h : Derives n f ts behind) :
    Derives n (.token [k] ++ f) (.token k text :: ts) behind :=
  derives_append.mpr ⟨[_], ts, rfl, .one, h⟩

theorem Derives.one_row {k : TokenKind} {text : String} {forms : List Form}
    (h : Derives n (row (f :: forms)) ts behind) :
    Derives n (row (.token [k] :: f :: forms)) (.token k text :: ts) behind :=
  h.one_append

/-- What is read for a value behind other forms. -/
theorem derives_row_yields {α : Type} [DecidableEq α] {a b : α} (forms : List Form)
    (hforms : forms ≠ []) :
    Derives n (row (forms ++ [yields a .nothing b])) ts behind
      ↔ b = a ∧ Derives n (row forms) ts behind := by
  induction forms generalizing ts with
  | nil => exact absurd rfl hforms
  | cons f forms ih =>
    cases forms with
    | nil =>
      refine Iff.trans ?_ (and_congr_right fun _ => derives_append_nothing)
      exact derives_append_yields
    | cons g forms =>
      have hrest : ∀ {vs}, Derives n (row (g :: forms ++ [yields a .nothing b])) vs behind
          ↔ b = a ∧ Derives n (row (g :: forms)) vs behind := ih (by simp)
      simp only [List.cons_append, derives_row_cons] at hrest ⊢
      simp only [hrest]
      constructor
      · rintro ⟨us, vs, rfl, hf, rfl, hg⟩
        exact ⟨rfl, us, vs, rfl, hf, hg⟩
      · rintro ⟨rfl, us, vs, rfl, hf, hg⟩
        exact ⟨us, vs, rfl, hf, rfl, hg⟩

/-- What holds of no items, and of one more in front, holds of any number. -/
theorem Derives.many_induction {p : List Tree → Prop} (h : Derives n (.many f) ts behind)
    (hstop : p []) (hround : ∀ us vs, Derives n f us (kinds vs ++ behind) → p vs → p (us ++ vs)) :
    p ts := by
  generalize hform : Form.many f = form at h
  induction h with
  | stop => exact hstop
  | round first _ _ ih =>
    obtain rfl := Form.many.inj hform
    exact hround _ _ first (ih hround hform)
  | _ => cases hform

/-- Items with more of them behind. -/
theorem Derives.many_append (h : Derives n (.many f) ts (kinds us ++ behind))
    (hus : Derives n (.many f) us behind) : Derives n (.many f) (ts ++ us) behind := by
  refine h.many_induction (p := fun ts => Derives n (.many f) (ts ++ us) behind) hus ?_
  intro xs ys hxs hys
  rw [List.append_assoc]
  refine .round ?_ hys
  rwa [Tree.kinds_append, List.append_assoc]

/-- An expression that is extended by operators has a beginning, and behind that nothing or an
operator. -/
theorem Derives.extended_head {level : Nat} (h : Derives n (.extended level f) ts behind) :
    ∃ us vs, Tree.leavesAll ts = Tree.leavesAll us ++ Tree.leavesAll vs ∧
      Derives n f us (kinds vs ++ behind) ∧
      (kinds vs = [] ∨ (Operator.extensionOf (kinds vs ++ behind)).isSome = true) := by
  generalize hform : Form.extended level f = form at h
  induction h with
  | @head _ _ _ ts _ hhead =>
    obtain ⟨-, rfl⟩ := Form.extended.inj hform
    exact ⟨ts, [], (List.append_nil _).symm, hhead, .inl rfl⟩
  | @extend _ _ _ ts us _ _ behind _ asked _ _ ih =>
    obtain ⟨us', vs, hleaves, hhead, hnext⟩ := ih hform
    refine ⟨us', vs ++ us, ?_, ?_, .inr ?_⟩
    · rw [Tree.leavesAll_singleton, Tree.leaves, Tree.leavesAll_append, hleaves,
        Tree.leavesAll_append, List.append_assoc]
    · rwa [Tree.kinds_append, List.append_assoc]
    · rw [Tree.kinds_append, List.append_assoc]
      obtain hnil | hsome := hnext
      · rw [hnil, List.nil_append, asked]
        rfl
      · exact hsome
  | _ => cases hform

/-- Fewer levels than there are suffice. -/
theorem Derives.mono (h : Derives n f ts behind) (hnm : n ≤ m) : Derives m f ts behind := by
  induction h generalizing m with
  | nothing => exact .nothing
  | token h => exact .token h
  | seq _ _ ih₁ ih₂ => exact .seq (ih₁ hnm) (ih₂ hnm)
  | left _ ih => exact .left (ih hnm)
  | right _ ih => exact .right (ih hnm)
  | stop => exact .stop
  | round _ _ ih₁ ih₂ => exact .round (ih₁ hnm) (ih₂ hnm)
  | node _ ih => exact .node (ih hnm)
  | part _ ih =>
    obtain ⟨m, rfl⟩ : ∃ m', m = m' + 1 := ⟨m - 1, by omega⟩
    exact .part (ih (by omega))
  | ahead _ ih => exact .ahead (ih hnm)
  | head _ ih => exact .head (ih hnm)
  | extend _ asked tight _ ih₁ ih₂ => exact .extend (ih₁ hnm) asked tight (ih₂ hnm)

/-! ### How forms begin -/

/-- All that the form stands for begins with a token that passes. -/
def Begins (test : TokenKind → Prop) (f : Form) : Prop :=
  ∀ n ts behind, Derives n f ts behind → ∃ k ks, kinds ts = k :: ks ∧ test k

variable {test : TokenKind → Prop}

theorem begins_token {ks : List TokenKind} (h : ∀ k ∈ ks, test k) : Begins test (.token ks) := by
  intro n ts behind hts
  obtain ⟨k, text, hk, rfl⟩ := derives_token.mp hts
  exact ⟨k, [], rfl, h k hk⟩

theorem begins_never : Begins test never := fun _ _ _ h => absurd h not_derives_never

theorem Begins.append (h : Begins test f) (g : Form) : Begins test (f ++ g) := by
  intro n ts behind hts
  obtain ⟨us, vs, rfl, hf, -⟩ := derives_append.mp hts
  obtain ⟨k, ks, hk, htest⟩ := h _ _ _ hf
  exact ⟨k, ks ++ kinds vs, by rw [Tree.kinds_append, hk, List.cons_append], htest⟩

/-- What begins with some token, behind whatever may be in front of it. -/
theorem Begins.appendRight (h : Begins (fun _ => True) g) (f : Form) :
    Begins (fun _ => True) (f ++ g) := by
  intro n ts behind hts
  obtain ⟨us, vs, rfl, -, hg⟩ := derives_append.mp hts
  obtain ⟨k, ks, hk, -⟩ := h _ _ _ hg
  cases hus : kinds us with
  | nil => exact ⟨k, ks, by rw [Tree.kinds_append, hus, hk, List.nil_append], trivial⟩
  | cons k' ks' =>
    exact ⟨k', ks' ++ kinds vs, by rw [Tree.kinds_append, hus, List.cons_append], trivial⟩

theorem Begins.node (h : Begins test f) (kind : NodeKind) : Begins test (.node kind f) := by
  intro n ts behind hts
  obtain ⟨us, rfl, hf⟩ := derives_node.mp hts
  obtain ⟨k, ks, hk, htest⟩ := h _ _ _ hf
  exact ⟨k, ks, by simpa using hk, htest⟩

theorem Begins.either (h₁ : Begins test f) (h₂ : Begins test g) :
    Begins test (.either f g) := by
  intro n ts behind hts
  obtain hts | hts := derives_either.mp hts
  · exact h₁ _ _ _ hts
  · exact h₂ _ _ _ hts

theorem Begins.given {ahead : List TokenKind → Bool} (h₁ : Begins test f) (h₂ : Begins test g) :
    Begins test (given ahead f g) := by
  intro n ts behind hts
  rw [derives_given] at hts
  split at hts
  · exact h₁ _ _ _ hts
  · exact h₂ _ _ _ hts

/-- What may be missing in front of what may not. -/
theorem Begins.ifAhead_append {ahead : List TokenKind → Bool} (hf : Begins test f)
    (hg : Begins test g) : Begins test (ifAhead ahead f ++ g) := by
  intro n ts behind hts
  rw [ifAhead, derives_given_append] at hts
  split at hts
  · exact hf.append g _ _ _ hts
  · exact hg _ _ _ (derives_nothing_append.mp hts)

theorem Begins.mono {test' : TokenKind → Prop} (h : Begins test f) (himp : ∀ k, test k → test' k) :
    Begins test' f := by
  intro n ts behind hts
  obtain ⟨k, ks, hk, htest⟩ := h _ _ _ hts
  exact ⟨k, ks, hk, himp k htest⟩

theorem begins_extended {level : Nat} (h : Begins test f) : Begins test (.extended level f) := by
  intro n ts behind hts
  generalize hform : Form.extended level f = form at hts
  induction hts with
  | head hhead =>
    obtain ⟨-, rfl⟩ := Form.extended.inj hform
    exact h _ _ _ hhead
  | @extend _ _ _ ts us _ _ _ _ _ _ _ ih =>
    obtain ⟨k, ks, hk, htest⟩ := ih hform
    exact ⟨k, ks ++ kinds us, by simp [hk], htest⟩
  | _ => cases hform

/-- What begins with a token is not empty. -/
theorem Begins.kinds_ne_nil (h : Begins test f) (hts : Derives n f ts behind) : kinds ts ≠ [] := by
  obtain ⟨k, ks, hk, -⟩ := h _ _ _ hts
  simp [hk]

/-! ### Tests that hold in front of forms -/

/-- In front of what the form stands for, the test holds. -/
def Shows (test : List TokenKind → Bool) (f : Form) : Prop :=
  ∀ n ts behind, Derives n f ts behind → test (kinds ts ++ behind) = true

variable {ahead : List TokenKind → Bool}

theorem Shows.append (h : Shows ahead f) (g : Form) : Shows ahead (f ++ g) := by
  intro n ts behind hts
  obtain ⟨us, vs, rfl, hf, -⟩ := derives_append.mp hts
  rw [Tree.kinds_append, List.append_assoc]
  exact h _ _ _ hf

theorem Shows.node (h : Shows ahead f) (kind : NodeKind) : Shows ahead (.node kind f) := by
  intro n ts behind hts
  obtain ⟨us, rfl, hf⟩ := derives_node.mp hts
  rw [Tree.kinds_node_cons, Tree.kinds_nil, List.append_nil]
  exact h _ _ _ hf

theorem Shows.either (h₁ : Shows ahead f) (h₂ : Shows ahead g) : Shows ahead (.either f g) := by
  intro n ts behind hts
  obtain hts | hts := derives_either.mp hts
  · exact h₁ _ _ _ hts
  · exact h₂ _ _ _ hts

theorem Shows.given {test : List TokenKind → Bool} (h₁ : Shows ahead f) (h₂ : Shows ahead g) :
    Shows ahead (given test f g) := by
  intro n ts behind hts
  rw [derives_given] at hts
  split at hts
  · exact h₁ _ _ _ hts
  · exact h₂ _ _ _ hts

theorem Shows.mono {ahead' : List TokenKind → Bool} (h : Shows ahead f)
    (himp : ∀ ks, ahead ks = true → ahead' ks = true) : Shows ahead' f :=
  fun n ts behind hts => himp _ (h n ts behind hts)

theorem Shows.yields {α : Type} [DecidableEq α] {a b : α} (h : Shows ahead f) :
    Shows ahead (yields a f b) :=
  fun n ts behind hts => h n ts behind (derives_yields.mp hts).2

/-- A test that is made in front of a form holds there. -/
theorem shows_given_never {test : List TokenKind → Bool} : Shows test (.given test f never) := by
  intro n ts behind hts
  rw [derives_given] at hts
  split at hts
  · assumption
  · exact absurd hts not_derives_never

end RelLang.Form
