import RelLang.Proofs.Syntax.Expression

/-!
# Rules that go on behind a report

A rule *gives* trees if in front of their tokens it makes just these trees, also where it reports
problems on the way. What is said of a rule like this holds of it in every place where the same
tokens are behind. Rules put together give the trees put together, with the problems in the order
in which they are reported.
-/

namespace RelLang

open Rule

namespace State

variable {s t u : State} {ts us : List Tree} {problems more : List Problem}

/-- Trees were added, and problems were reported in front of tokens. -/
structure Adds (ts : List Tree) (problems : List Problem) (s t : State) : Prop where
  bare : t.bare = s.bare ++ ts
  reports : ∃ rs : List Report, t.reports = rs.reverse ++ s.reports ∧
    rs.map (·.problem) = problems ∧ ∀ r ∈ rs, r.fatal = false

theorem Took.adds (h : Took ts s t) : Adds ts [] s t where
  bare := h.bare
  reports := ⟨[], h.reports, rfl, List.forall_mem_nil _⟩

theorem Adds.trans (h : Adds ts problems s t) (h' : Adds us more t u) :
    Adds (ts ++ us) (problems ++ more) s u := by
  obtain ⟨rs, hrs, hproblems, hfatal⟩ := h.reports
  obtain ⟨rs', hrs', hmore, hfatal'⟩ := h'.reports
  refine ⟨by rw [h'.bare, h.bare, List.append_assoc], rs ++ rs', ?_, ?_, ?_⟩
  · rw [hrs', hrs, List.reverse_append, List.append_assoc]
  · rw [List.map_append, hproblems, hmore]
  · exact List.forall_mem_append.mpr ⟨hfatal, hfatal'⟩

end State

namespace Rule

variable {ν α β : Type} {setting : Setting} {enter : ν → State → Bool × State}
variable {a : α} {b : β} {ts us : List Tree} {problems more : List Problem}
  {behind : List (TokenKind × String)}

/-- In front of the tokens of the trees, with the others behind them, the rule yields the value,
makes the trees and reports the problems. -/
def Gives (setting : Setting) (enter : ν → State → Bool × State) (rule : Rule ν α) (a : α)
    (ts : List Tree) (problems : List Problem) (behind : List (TokenKind × String)) : Prop :=
  ∀ s : State, s.Ready → s.temporal = true → s.input = Tree.leavesAll ts ++ behind →
    (rule.run setting enter s).1 = a ∧ State.Adds ts problems s (rule.run setting enter s).2

/-! ### Rules in a row -/

theorem gives_pure (a : α) : Gives setting enter (pure a : Rule ν α) a [] [] behind :=
  fun s _ _ _ => ⟨rfl, (State.Took.refl s).adds⟩

theorem Gives.bind (henter : Steady enter) {first : Rule ν α} {next : α → Rule ν β}
    (h : Gives setting enter first a ts problems (Tree.leavesAll us ++ behind))
    (h' : Gives setting enter (next a) b us more behind) :
    Gives setting enter (first >>= next) b (ts ++ us) (problems ++ more) behind := by
  intro s hs ht hinput
  rw [Tree.leavesAll_append, List.append_assoc] at hinput
  obtain ⟨hvalue, hadds⟩ := h s hs ht hinput
  have hreach := reaches_run setting henter first s
  have hbehind := hreach.input_behind hs hadds.bare hinput
  obtain ⟨hvalue', hadds'⟩ := h' _ (hs.of_reaches hreach) (hreach.temporal ht) hbehind
  rw [run_bind, hvalue]
  exact ⟨hvalue', hadds.trans hadds'⟩

/-- A rule that reports nothing, and another. -/
theorem Gives.then (henter : Steady enter) {first : Rule ν α} {next : α → Rule ν β}
    (h : Gives setting enter first a ts [] (Tree.leavesAll us ++ behind))
    (h' : Gives setting enter (next a) b us problems behind) :
    Gives setting enter (first >>= next) b (ts ++ us) problems behind :=
  .bind henter h h'

/-- A rule, and another that reports nothing. -/
theorem Gives.before (henter : Steady enter) {first : Rule ν α} {next : α → Rule ν β}
    (h : Gives setting enter first a ts problems (Tree.leavesAll us ++ behind))
    (h' : Gives setting enter (next a) b us [] behind) :
    Gives setting enter (first >>= next) b (ts ++ us) problems behind := by
  have hboth := Gives.bind henter h h'
  rwa [List.append_nil] at hboth

/-- A rule, and a last step that does nothing but yield a value. -/
theorem Gives.yielding (henter : Steady enter) {first : Rule ν α} {next : α → Rule ν β}
    (h : Gives setting enter first a ts problems behind)
    (h' : Gives setting enter (next a) b [] [] behind) :
    Gives setting enter (first >>= next) b ts problems behind := by
  have hboth : Gives setting enter (first >>= next) b (ts ++ []) (problems ++ []) behind :=
    .bind henter h h'
  rwa [List.append_nil, List.append_nil] at hboth

/-- What is looked at first does not matter. -/
theorem Gives.behindLook {first : Rule ν α} {next : α → Rule ν β}
    (hlook : ∀ s, (first.run setting enter s).2 = s)
    (h : ∀ a, Gives setting enter (next a) b ts problems behind) :
    Gives setting enter (first >>= next) b ts problems behind := by
  intro s hs ht hinput
  rw [run_bind, hlook]
  exact h _ s hs ht hinput

/-- What is looked at first is told by the tokens. -/
theorem Gives.seeing {first : Rule ν α} {next : α → Rule ν β}
    (hlook : ∀ s : State, s.kinds = Tree.kinds ts ++ behind.map (·.1) →
      first.run setting enter s = (a, s))
    (h : Gives setting enter (next a) b ts problems behind) :
    Gives setting enter (first >>= next) b ts problems behind := by
  intro s hs ht hinput
  rw [run_bind, hlook s (by rw [State.kinds_eq, hinput, List.map_append, Tree.kinds])]
  exact h s hs ht hinput

theorem Gives.ignore {rule : Rule ν α} (h : Gives setting enter rule a ts problems behind) :
    Gives setting enter (Rule.ignore rule) () ts problems behind :=
  fun s hs ht hinput => ⟨rfl, (h s hs ht hinput).2⟩

/-- A report is kept, and with a token ahead it is about no more than that. -/
theorem gives_report (hkeep : setting.maxDiagnostics = none) (problem : Problem)
    (hbehind : behind ≠ []) :
    Gives setting enter (report problem : Rule ν Unit) () [] [problem] behind := by
  intro s _ _ hinput
  have hwords : s.words.isEmpty = false := by
    rw [List.isEmpty_eq_false_iff]
    rintro hnil
    refine hbehind (Eq.symm ?_)
    rwa [State.input, hnil] at hinput
  refine ⟨rfl, ?_, [_], State.reports_report hkeep problem s, rfl, ?_⟩
  · obtain ⟨_, hsame⟩ := State.report_eq setting problem s
    rw [run_report, hsame]
    exact (List.append_nil _).symm
  · rw [List.forall_mem_singleton]
    exact hwords

/-! ### Tokens -/

theorem gives_bump (kind : TokenKind) (text : String) :
    Gives setting enter (bump : Rule ν Unit) () [.token kind text] [] behind := by
  intro s hs _ hinput
  obtain ⟨w, ws, hwords, hw, -⟩ := List.map_eq_cons_iff.mp hinput
  obtain ⟨rfl, rfl⟩ := Prod.mk.inj hw
  exact ⟨rfl, (State.took_bump hs hwords).adds⟩

theorem gives_expectToken (henter : Steady enter) (kind : TokenKind) (text : String) (code : Code)
    (opener : Option ByteRange) :
    Gives setting enter (expectToken kind code opener : Rule ν Bool) true [.token kind text] []
      behind := by
  have heat : Gives setting enter (eat kind : Rule ν Bool) true [.token kind text] []
      behind := by
    refine .seeing (a := true) (fun s hkinds => ?_)
      (.then henter (gives_bump kind text) (gives_pure true))
    rw [run_currentIs, State.kindAt_eq, hkinds]
    simp [Tree.kinds, Tree.leavesAll_singleton, Tree.leaves]
  exact .yielding henter heat (gives_pure true)

/-! ### Nodes and contexts -/

theorem Gives.node {body : Rule ν α} (h : Gives setting enter body a ts problems behind)
    (kind : NodeKind) :
    Gives setting enter (Rule.node kind body) a [.node kind ts] problems behind := by
  intro s hs ht hinput
  rw [Tree.leavesAll_singleton, Tree.leaves] at hinput
  have hinner : State.Ready { s.attachPending with siblings := [] } :=
    (State.ready_attachPending hs).of_eq rfl rfl rfl
  obtain ⟨hvalue, hadds⟩ := h _ hinner ht hinput
  refine ⟨hvalue, ?_, hadds.reports⟩
  have hbare : (body.run setting enter { s.attachPending with siblings := [] }).2.bare = ts :=
    hadds.bare
  rw [bare_node hs, hbare]

theorem Gives.within {body : Rule ν α} (h : Gives setting enter body a ts problems behind)
    (context : Context) :
    Gives setting enter (Rule.within context body) a ts problems behind := by
  intro s hs ht hinput
  obtain ⟨hvalue, hadds⟩ := h { s with contexts := context :: s.contexts }
    (hs.of_eq rfl rfl rfl) ht hinput
  exact ⟨hvalue, hadds.bare, hadds.reports⟩

/-- A repetition that ends at once. -/
theorem gives_repeated_nothing (henter : Steady enter) {body : Rule ν Bool}
    (hmoves : Moves setting enter body)
    (hstops : ∀ s : State, s.kinds = behind.map (·.1) → body.run setting enter s = (false, s)) :
    Gives setting enter (repeated body) () [] [] behind := by
  intro s hs _ hinput
  have hkinds : s.kinds = behind.map (·.1) := by
    rw [State.kinds_eq, hinput]
    rfl
  refine ⟨rfl, ?_⟩
  rw [run_repeated henter hmoves hs.valid, hstops s hkinds, if_neg Bool.false_ne_true]
  exact (State.Took.refl s).adds

/-- A list of one item, in front of the mark that closes it. -/
theorem gives_items (henter : Steady enter) {closer : Punct} {text : String} (code : Code)
    {item : Rule ν Unit}
    (hitem : Gives setting enter item () ts problems ((.punct closer, text) :: behind))
    (hfirst : ∃ k ∈ (Tree.kinds ts).head?, k ≠ .punct closer) :
    Gives setting enter (items closer code item) () ts problems
      ((.punct closer, text) :: behind) := by
  intro s hs ht hinput
  obtain ⟨-, hadds⟩ := hitem s hs ht hinput
  have hreach := reaches_run setting henter item s
  obtain ⟨k, hk, hne⟩ := hfirst
  obtain ⟨ks, hkinds⟩ : ∃ ks, Tree.kinds ts = k :: ks := List.head?_eq_some_iff.mp hk
  have hmoved := hreach.left_lt hs hadds.bare (by rw [hkinds]; exact List.cons_ne_nil _ _)
  have hopen : s.kindAt 0 = some k := by
    rw [State.kindAt_eq, hreach.kinds_eq hs hadds.bare, hkinds]
    rfl
  have hclosed : (item.run setting enter s).2.kindAt 0 = some (.punct closer) := by
    rw [State.kindAt_eq, State.kinds_eq, hreach.input_behind hs hadds.bare hinput]
    rfl
  have hmoves : Moves setting enter (itemsRound closer code item) :=
    Grammar.moves_item henter closer code item
  have hfirstRound : (itemsRound closer code item).run setting enter s
      = (true, (item.run setting enter s).2) := by
    rw [run_itemsRound, hopen, if_neg (by simpa using hne), if_pos (Nat.ne_of_lt hmoved)]
  have hlastRound : (itemsRound closer code item).run setting enter (item.run setting enter s).2
      = (false, (item.run setting enter s).2) := by
    rw [run_itemsRound, hclosed, if_pos (by simp)]
  refine ⟨rfl, ?_⟩
  rw [items_eq, run_repeated henter hmoves hs.valid, hfirstRound, if_pos rfl,
    run_repeated henter hmoves (hreach.valid hs.valid), hlastRound, if_neg Bool.false_ne_true]
  exact hadds

end Rule
end RelLang
