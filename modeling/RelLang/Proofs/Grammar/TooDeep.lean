import RelLang.Proofs.Grammar.Decide
import RelLang.Proofs.Rule.Consume

/-!
# How far text is skipped that is nested too deeply

The skipping counts the groups that are open, and takes one token in each round. So it takes the
words ahead up to some place, and what is to be told is where it ends: where no group is open any
more, and either the first token has opened one, or what is next closes a group around or is waited
for by an open context.
-/

namespace RelLang

/-! ### Taking some words -/

/-- What a word becomes in the tree, with the skipped tokens behind it. -/
def Word.trees (w : Word) : List Tree := w.token.leaf :: w.behind.map Token.skippedTree

namespace State

/-- Takes the current token a number of times. -/
def bumps : Nat → State → State
  | 0, s => s
  | n + 1, s => (bumps n s).bump

variable {s : State} {n : Nat}

theorem words_bumps (s : State) (n : Nat) : (bumps n s).words = s.words.drop n := by
  induction n with
  | zero => rfl
  | succ n ih => rw [bumps, words_bump, ih, List.tail_drop]

theorem kindAt_bumps (s : State) (n : Nat) : (bumps n s).kindAt 0 = s.kindAt n := by
  rw [kindAt, words_bumps, List.getElem?_drop, Nat.add_zero, kindAt]

theorem contexts_bumps (s : State) (n : Nat) : (bumps n s).contexts = s.contexts := by
  induction n with
  | zero => rfl
  | succ n ih => exact (reaches_bump _).contexts.trans ih

theorem reports_bumps (s : State) (n : Nat) : (bumps n s).reports = s.reports := by
  induction n with
  | zero => rfl
  | succ n ih => exact (reports_bump _).trans ih

/-- The trees of the innermost open node or group, with the skipped tokens that come next. -/
def trees (s : State) : List Tree := s.siblings.reverse ++ s.pending.map Token.skippedTree

/-- Taking words puts their tokens into the tree, and nothing around them. -/
theorem trees_bumps (h : n ≤ s.words.length) :
    (bumps n s).trees = s.trees ++ (s.words.take n).flatMap Word.trees := by
  induction n with
  | zero => simp [bumps]
  | succ n ih =>
    have hn : n < s.words.length := h
    have hw : (bumps n s).words = s.words[n] :: s.words.drop (n + 1) := by
      rw [words_bumps, List.drop_eq_getElem_cons hn]
    have hbump : (bumps n s).bump.trees = (bumps n s).trees ++ s.words[n].trees := by
      rw [bump_of_words_eq_cons hw]
      simp [trees, attachPending, Word.trees]
    rw [bumps, hbump, ih (Nat.le_of_lt hn), List.take_succ_eq_append_getElem hn,
      List.flatMap_append, List.append_assoc, List.flatMap_singleton]

end State

namespace Grammar

open Rule
open State (bumps)

/-! ### The groups that are open -/

/-- How many more groups the tokens open than they close. -/
def groupDepth (kinds : List TokenKind) : Int :=
  kinds.countP TokenKind.isOpener - kinds.countP TokenKind.isCloser

/-- How many groups are open behind a token. -/
def openersBehind (k : TokenKind) (openers : Nat) : Nat :=
  if k.isOpener then openers + 1 else if k.isCloser then openers - 1 else openers

/-- What opens a group closes none. -/
theorem isCloser_of_isOpener {k : TokenKind} (h : k.isOpener = true) : k.isCloser = false := by
  cases k with
  | punct p => cases p <;> first | rfl | cases h
  | _ => rfl

/-- The count of the skipping is the depth, if no group is closed that is not open. -/
theorem groupDepth_concat {kinds : List TokenKind} {k : TokenKind} {openers : Nat}
    (h : groupDepth kinds = openers) (hopen : k.isCloser = false ∨ 0 < openers) :
    groupDepth (kinds ++ [k]) = openersBehind k openers := by
  unfold groupDepth openersBehind at *
  rw [List.countP_append, List.countP_append, List.countP_singleton, List.countP_singleton]
  cases ho : k.isOpener with
  | true =>
    rw [isCloser_of_isOpener ho]
    simp
    omega
  | false =>
    cases hc : k.isCloser with
    | true =>
      have hpos := hopen.resolve_left (by simp [hc])
      simp
      omega
    | false =>
      simp
      omega

/-! ### Where the skipping ends -/

/-- The skipping of the tokens may end behind the first `n` of them: nothing is behind those, or no
group is open there, and the first token has opened one or one of the stops is next. -/
def SkipEnds (stops : TokenKind → Bool) (kinds : List TokenKind) (n : Nat) : Prop :=
  kinds.length ≤ n ∨ groupDepth (kinds.take n) = 0 ∧
    (kinds[0]?.any TokenKind.isOpener = true ∨ kinds[n]?.any stops = true)

/-- What the skipping ends in front of if no group is open: a token that closes one, or one that an
open context waits for. -/
def skipStops (contexts : List Context) (k : TokenKind) : Bool :=
  k.isCloser || contexts.any (·.follow.contains k)

/-- The skipping has come behind the first `n` of the tokens: no group was closed that was not open
there, and it could not have ended before. -/
structure SkipComes (stops : TokenKind → Bool) (kinds : List TokenKind) (n : Nat) : Prop where
  le : n ≤ kinds.length
  depth : ∀ m ≤ n, 0 ≤ groupDepth (kinds.take m)
  first : ∀ m, 1 ≤ m → m < n → ¬ SkipEnds stops kinds m

section

variable {ν : Type} {setting : Setting} {enter : ν → State → Bool × State} {s : State}
  {isGroup : Bool} {openers : Nat}

/-- One round of what skips text that is nested too deeply. -/
def nestedRound (isGroup : Bool) (openers : Nat) : Rule ν (Nat × Bool) := do
  let ended ← atEnd
  let opener ← nthPasses 0 TokenKind.isOpener
  let closer ← nthPasses 0 TokenKind.isCloser
  if ended || (closer && openers == 0) then return (openers, false)
  else
    let openers := if opener then openers + 1 else if closer then openers - 1 else openers
    bump
    let recovered ← atRecoveryPoint
    return (openers, !(openers == 0 && (isGroup || recovered)))

theorem nestedText_eq : (nestedText : Rule ν Unit) = (do
    let isGroup ← nthPasses 0 TokenKind.isOpener
    let _ ← loop 0 (nestedRound isGroup)
    return ()) := rfl

theorem advancing_nestedRound (isGroup : Bool) :
    Advancing setting enter Nat (nestedRound isGroup : Nat → Rule ν (Nat × Bool)) := by
  have hskip : Advances setting enter (skipNested : Rule ν Unit) := advances_skipNested
  exact ((hskip.2 ()).2.2 isGroup).1.1

/-- A round ends the skipping at the end and where a group is closed that is not open. Otherwise it
takes a token. -/
theorem run_nestedRound_cases (setting : Setting) (enter : ν → State → Bool × State)
    (isGroup : Bool) (openers : Nat) (s : State) :
    ((∀ k, s.kindAt 0 = some k → k.isCloser = true ∧ openers = 0) ∧
      (nestedRound isGroup openers : Rule ν _).run setting enter s = ((openers, false), s)) ∨
    ∃ k, s.kindAt 0 = some k ∧ (k.isCloser = false ∨ 0 < openers) ∧
      (nestedRound isGroup openers : Rule ν _).run setting enter s
        = ((openersBehind k openers,
            !(openersBehind k openers == 0 && (isGroup || s.bump.atRecoveryPoint))), s.bump) := by
  simp only [nestedRound, run_bind, run_atEnd, run_nthPasses, run_ite]
  cases hk : s.kindAt 0 with
  | none => exact .inl ⟨nofun, rfl⟩
  | some k =>
    by_cases hstop : k.isCloser = true ∧ openers = 0
    · refine .inl ⟨fun k' hk' => Option.some.inj hk' ▸ hstop, ?_⟩
      simp [hstop]
    · refine .inr ⟨k, rfl, ?_, ?_⟩
      · cases hc : k.isCloser with
        | false => exact .inl rfl
        | true => exact .inr (Nat.pos_of_ne_zero fun hzero => hstop ⟨hc, hzero⟩)
      · rw [if_neg (by simpa using hstop)]
        rfl

/-- The skipping that began in the state has come behind some words, with some groups open, and it
has not ended there. -/
structure Skipping (s : State) (n openers : Nat) : Prop where
  comes : SkipComes (skipStops s.contexts) s.kinds n
  depth : groupDepth (s.kinds.take n) = openers
  goesOn : 1 ≤ n → openers = 0 →
    (s.kindAt 0).any TokenKind.isOpener = false ∧ (bumps n s).atRecoveryPoint = false

theorem atRecoveryPoint_bumps (s : State) (n : Nat) : (bumps n s).atRecoveryPoint
    = (s.kindAt n).all fun k => s.contexts.any fun c => c.follow.contains k := by
  rw [State.atRecoveryPoint_eq, State.kindAt_bumps, State.contexts_bumps]

theorem length_kinds_le_iff {n : Nat} : s.kinds.length ≤ n ↔ s.kindAt n = none := by
  rw [State.kindAt_eq, List.getElem?_eq_none_iff]

/-- In front of a token that it takes, the skipping could not have ended. -/
theorem Skipping.not_ends {n openers : Nat} (h : Skipping s n openers) (hn : 1 ≤ n)
    {k : TokenKind} (hk : s.kindAt n = some k) (hopen : k.isCloser = false ∨ 0 < openers) :
    ¬ SkipEnds (skipStops s.contexts) s.kinds n := by
  rintro (hend | ⟨hzero, hstop⟩)
  · rw [length_kinds_le_iff, hk] at hend
    cases hend
  · rw [h.depth, Int.natCast_eq_zero] at hzero
    obtain ⟨hgroup, hrecovered⟩ := h.goesOn hn hzero
    rw [atRecoveryPoint_bumps, hk, Option.all_some] at hrecovered
    rw [← State.kindAt_eq, ← State.kindAt_eq, hgroup, hk, Option.any_some, skipStops, hrecovered,
      Bool.or_false] at hstop
    obtain hfalse | hcloser := hstop
    · cases hfalse
    · rw [hcloser, hzero] at hopen
      simp at hopen

/-- Behind the next token the skipping has come one word further. -/
theorem Skipping.next {n openers : Nat} (h : Skipping s n openers) {k : TokenKind}
    (hk : s.kindAt n = some k) (hopen : k.isCloser = false ∨ 0 < openers) :
    SkipComes (skipStops s.contexts) s.kinds (n + 1) ∧
      groupDepth (s.kinds.take (n + 1)) = openersBehind k openers := by
  have htake : s.kinds.take (n + 1) = s.kinds.take n ++ [k] := by
    rw [List.take_add_one, ← State.kindAt_eq, hk, Option.toList_some]
  have hdepth : groupDepth (s.kinds.take (n + 1)) = openersBehind k openers := by
    rw [htake]
    exact groupDepth_concat h.depth hopen
  refine ⟨⟨?_, fun m hm => ?_, fun m hm hlt => ?_⟩, hdepth⟩
  · rw [State.kindAt_eq] at hk
    exact (List.getElem?_eq_some_iff.mp hk).1
  · obtain hlt | rfl := Nat.lt_or_eq_of_le hm
    · exact h.comes.depth m (Nat.le_of_lt_succ hlt)
    · rw [hdepth]
      exact Int.natCast_nonneg _
  · obtain hlt | rfl := Nat.lt_or_eq_of_le (Nat.le_of_lt_succ hlt)
    · exact h.comes.first m hm hlt
    · exact h.not_ends hm hk hopen

/-- The skipping takes the first words ahead, at least one and no more than to the first place where
it may end. -/
theorem run_skipping (setting : Setting) (henter : Steady enter) (hs : s.Valid) {k : TokenKind}
    (hk : s.kindAt 0 = some k) (hcloser : k.isCloser = false) :
    ∃ n, 1 ≤ n ∧ SkipComes (skipStops s.contexts) s.kinds n ∧
      SkipEnds (skipStops s.contexts) s.kinds n ∧
      ((nestedText : Rule ν Unit).run setting enter s).2 = bumps n s := by
  have hstart : Skipping s 0 0 :=
    ⟨⟨Nat.zero_le _, fun m hm => by simp [groupDepth, Nat.le_zero.mp hm], by omega⟩, rfl, by omega⟩
  have hadvancing : Advancing setting enter Nat
      (nestedRound ((s.kindAt 0).any TokenKind.isOpener) : Nat → Rule ν (Nat × Bool)) :=
    advancing_nestedRound _
  obtain ⟨openers, t, -, ⟨n, rfl, hskip⟩, hlast, hrun⟩ := loop_last henter hadvancing
    (fun openers t => ∃ n, t = bumps n s ∧ Skipping s n openers)
    (fun openers t _ hinv hmore => by
      obtain ⟨n, rfl, hskip⟩ := hinv
      obtain ⟨-, hround⟩ | ⟨k, hk, hopen, hround⟩ :=
        run_nestedRound_cases setting enter _ openers (bumps n s)
      · rw [hround] at hmore
        cases hmore
      · rw [State.kindAt_bumps] at hk
        obtain ⟨hcomes, hdepth⟩ := hskip.next hk hopen
        rw [hround] at hmore ⊢
        refine ⟨n + 1, rfl, hcomes, hdepth, fun _ hzero => ?_⟩
        dsimp only at hzero hmore
        simpa [hzero, bumps] using hmore)
    hs ⟨0, rfl, hstart⟩
  have htext : ((nestedText : Rule ν Unit).run setting enter s).2
      = ((nestedRound ((s.kindAt 0).any TokenKind.isOpener) openers).run setting enter
          (bumps n s)).2 := by
    rw [nestedText_eq, run_bind, run_nthPasses, run_bind, hrun]
    rfl
  rw [htext]
  obtain ⟨hstop, hround⟩ | ⟨k', hk', hopen, hround⟩ :=
    run_nestedRound_cases setting enter _ openers (bumps n s)
  · rw [State.kindAt_bumps] at hstop
    refine ⟨n, Nat.pos_of_ne_zero ?_, hskip.comes, ?_, by rw [hround]⟩
    · rintro rfl
      rw [(hstop k hk).1] at hcloser
      cases hcloser
    · cases hnext : s.kindAt n with
      | none => exact .inl (length_kinds_le_iff.mpr hnext)
      | some k' =>
        obtain ⟨hcloser', hzero⟩ := hstop k' hnext
        refine .inr ⟨by rw [hskip.depth, hzero]; rfl, .inr ?_⟩
        rw [← State.kindAt_eq, hnext, Option.any_some, skipStops, hcloser', Bool.true_or]
  · rw [State.kindAt_bumps] at hk'
    obtain ⟨hcomes, hdepth⟩ := hskip.next hk' hopen
    refine ⟨n + 1, Nat.succ_pos n, hcomes, ?_, by rw [hround]; rfl⟩
    rw [hround] at hlast
    have hrecovered := atRecoveryPoint_bumps s (n + 1)
    rw [bumps] at hrecovered
    rw [hrecovered, Bool.not_eq_false', Bool.and_eq_true, beq_iff_eq, Bool.or_eq_true] at hlast
    obtain ⟨hzero, hgroup | hrecovered⟩ := hlast
    · exact .inr ⟨by rw [hdepth, hzero]; rfl, .inl (by rw [← State.kindAt_eq, hgroup])⟩
    · cases hnext : s.kindAt (n + 1) with
      | none => exact .inl (length_kinds_le_iff.mpr hnext)
      | some k'' =>
        rw [hnext, Option.all_some] at hrecovered
        refine .inr ⟨by rw [hdepth, hzero]; rfl, .inr ?_⟩
        rw [← State.kindAt_eq, hnext, Option.any_some, skipStops, hrecovered, Bool.or_true]

/-! ### What is skipped -/

/-- What a word becomes are tokens, and error nodes around invalid ones. -/
theorem mem_trees {w : Word} {child : Tree} (h : child ∈ w.trees) :
    (∃ kind text, child = .token kind text) ∨
      ∃ text, child = .node .error [.token .invalid text] := by
  obtain rfl | h := List.mem_cons.mp h
  · exact .inl ⟨_, _, rfl⟩
  · obtain ⟨u, -, rfl⟩ := List.mem_map.mp h
    unfold Token.skippedTree
    split
    · next hinvalid => exact .inr ⟨u.text, by rw [Token.leaf, hinvalid]⟩
    · exact .inl ⟨_, _, rfl⟩

/-- The words that are skipped stand side by side in one error node, behind one report. -/
theorem run_skipNested (setting : Setting) (henter : Steady enter) (hs : s.Valid) {k : TokenKind}
    (hk : s.kindAt 0 = some k) (hcloser : k.isCloser = false) :
    ∃ n t, (skipNested : Rule ν Unit).run setting enter s = ((), t) ∧ 1 ≤ n ∧
      SkipComes (skipStops s.contexts) s.kinds n ∧ SkipEnds (skipStops s.contexts) s.kinds n ∧
      t.words = s.words.drop n ∧ t.reports = (s.report setting .tooDeep).reports ∧
      ∃ children, t.siblings = .node .error children :: s.attachPending.siblings ∧
        children ++ t.pending.map Token.skippedTree = (s.words.take n).flatMap Word.trees := by
  obtain ⟨reports, hreport⟩ := State.report_eq setting .tooDeep s
  let u : State := { s.attachPending with siblings := [], reports }
  obtain ⟨n, hn, hcomes, hends, htext⟩ := run_skipping setting henter
    (hs.opened.of_eq rfl rfl rfl : u.Valid) hk hcloser
  have hskip : (skipNested : Rule ν Unit).run setting enter s = ((), { bumps n u with
      siblings := .node .error (bumps n u).siblings.reverse :: s.attachPending.siblings }) := by
    rw [skipNested_eq, run_bind, run_report, hreport, run_node, ← htext]
    rfl
  refine ⟨n, _, hskip, hn, hcomes, hends, State.words_bumps u n, ?_,
    (bumps n u).siblings.reverse, rfl, ?_⟩
  · rw [hreport]
    exact State.reports_bumps u n
  · have hle : n ≤ u.words.length := by
      have hle := hcomes.le
      rwa [State.kinds, List.length_map] at hle
    exact State.trees_bumps hle

end

end Grammar
end RelLang
