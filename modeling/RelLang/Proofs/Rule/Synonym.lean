import RelLang.Parse
import RelLang.Proofs.Rule.Look
import RelLang.Proofs.Token.Synonym

/-!
# Readings of texts that differ in the spelling of operators

Two states are *akin* if they are at the same token of two texts that are the same in words, have
made the same trees in words, and have reported the same but for the messages. Rules run *in
parallel* if from akin states they yield the same and go on to akin states. Steps do, and so do
rules made of them if what they ask of the kinds ahead is blind. All that a rule may do with the
kind of an operator, or with a place, is to report it.
-/

namespace RelLang

/-! ### What is compared -/

/-- What a diagnostic says apart from its message, with places in numbers of tokens. -/
structure Outline where
  code : Code
  kind : DiagnosticClass
  hint : Option String
  fatal : Bool
  place : Nat × Nat
  notes : List (String × Nat × Nat)
  deriving DecidableEq, Repr

/-- The outline of a diagnostic about a text. -/
def Diagnostic.outline (tokens : List Token) (d : Diagnostic) : Outline where
  code := d.code
  kind := d.kind
  hint := d.hint
  fatal := d.fatal
  place := d.range.inTokens tokens
  notes := d.notes.map fun note => (note.message, note.range.inTokens tokens)

/-- What the outline takes from the problem. -/
def Problem.outline (tokens : List Token) (problem : Problem) :
    Code × Option String × List (String × Nat × Nat) :=
  (problem.code, problem.hint,
    problem.notes.map fun note => (note.message, note.range.inTokens tokens))

def Report.outline (tokens : List Token) (r : Report) : Outline := r.toDiagnostic.outline tokens

theorem Report.outline_eq {tokens tokens' : List Token} {r r' : Report}
    (hproblem : r.problem.outline tokens = r'.problem.outline tokens')
    (hplace : r.range.inTokens tokens = r'.range.inTokens tokens') (hfatal : r.fatal = r'.fatal) :
    r.outline tokens = r'.outline tokens' := by
  simp only [Problem.outline, Prod.mk.injEq] at hproblem
  obtain ⟨hcode, hhint, hnotes⟩ := hproblem
  simp only [outline, toDiagnostic, Diagnostic.outline, hcode, hhint, hnotes, hplace, hfatal]

/-- Two texts that are the same in words, to be read alike. -/
structure Respelling where
  config : ParseConfig
  first : List Token
  second : List Token
  placed_first : Token.Placed 0 first
  placed_second : Token.Placed 0 second
  same : first.map Token.inWords = second.map Token.inWords

namespace Respelling

def setting₁ (c : Respelling) : Setting := Parse.setting c.config c.first

def setting₂ (c : Respelling) : Setting := Parse.setting c.config c.second

theorem length_eq (c : Respelling) : c.first.length = c.second.length := by
  simpa using congrArg List.length c.same

end Respelling

/-- The token of a word and the tokens behind it in words. -/
def Word.inWords (w : Word) : (TokenKind × String) × List (TokenKind × String) :=
  (w.token.inWords, w.behind.map Token.inWords)

/-- Two readings are at the same place of the two texts, and have made and reported the same but
for the spelling of operators and the messages. -/
structure State.Akin (c : Respelling) (s t : State) : Prop where
  pending : s.pending.map Token.inWords = t.pending.map Token.inWords
  words : s.words.map Word.inWords = t.words.map Word.inWords
  suffix_first : Word.tokens s.words <:+ c.first
  suffix_second : Word.tokens t.words <:+ c.second
  left : s.left = t.left
  siblings : s.siblings.map Tree.inWords = t.siblings.map Tree.inWords
  reports : s.reports.map (·.outline c.first) = t.reports.map (·.outline c.second)
  contexts : s.contexts = t.contexts
  temporal : s.temporal = t.temporal
  stalled : s.stalled = t.stalled

namespace State

variable {c : Respelling} {s t : State}

/-! ### What rules see -/

theorem Akin.kinds_eq (h : s.Akin c t) :
    s.kinds.map TokenKind.inWords = t.kinds.map TokenKind.inWords := by
  have hkinds (words : List Word) : (words.map (·.token.kind)).map TokenKind.inWords
      = (words.map Word.inWords).map (·.1.1.inWords) := by
    rw [List.map_map, List.map_map]
    exact List.map_congr_left fun w _ => (fst_inWords w.token.toPair).symm
  rw [kinds, kinds, hkinds, hkinds, h.words]

theorem Akin.kindAt_eq (h : s.Akin c t) (n : Nat) :
    (s.kindAt n).map TokenKind.inWords = (t.kindAt n).map TokenKind.inWords := by
  have hkinds := congrArg (·[n]?) h.kinds_eq
  simpa [kinds, kindAt] using hkinds

theorem Akin.atRecoveryPoint_eq (h : s.Akin c t) : s.atRecoveryPoint = t.atRecoveryPoint := by
  have hfollow (context : Context) : Blind context.follow.contains := by
    cases context <;> exact .intro rfl rfl rfl rfl rfl
  have hblind (contexts : List Context) :
      Blind fun k => contexts.any fun c => c.follow.contains k :=
    fun k => congrArg contexts.any (funext fun context => hfollow context k)
  rw [State.atRecoveryPoint_eq, State.atRecoveryPoint_eq, h.contexts]
  exact (hblind t.contexts).option_eq (f := Option.all _) (h.kindAt_eq 0)

theorem Akin.isEmpty_eq (h : s.Akin c t) : s.words.isEmpty = t.words.isEmpty := by
  have hlength := congrArg List.length h.words
  rw [List.length_map, List.length_map] at hlength
  rw [Bool.eq_iff_iff, List.isEmpty_iff_length_eq_zero, List.isEmpty_iff_length_eq_zero, hlength]

/-! ### Places -/

theorem length_tokens (words : List Word) : (Word.tokens words).length
    = ((words.map Word.inWords).map fun w => w.2.length + 1).sum := by
  simp [Word.tokens, Word.inWords, List.length_flatMap, Function.comp_def]

/-- The place of the current token is told by the number of tokens to come. -/
theorem inTokens_currentRange {config : ParseConfig} {tokens : List Token}
    (htokens : Token.Placed 0 tokens) (h : Word.tokens s.words <:+ tokens) :
    (s.currentRange (Parse.setting config tokens)).inTokens tokens
      = (tokens.length - (Word.tokens s.words).length,
        tokens.length - (Word.tokens s.words).length + if s.words.isEmpty then 0 else 1) := by
  obtain ⟨front, rfl⟩ := h
  have hlength : (front ++ Word.tokens s.words).length - (Word.tokens s.words).length
      = front.length := by simp
  rw [hlength]
  unfold currentRange current?
  cases hw : s.words with
  | nil =>
    rw [hw] at htokens
    show (ByteRange.empty (Token.listStop (front ++ []))).inTokens (front ++ []) = _
    rw [List.append_nil]
    exact Token.Placed.inTokens_end (List.append_nil front ▸ htokens)
  | cons w ws =>
    rw [hw, Word.tokens_cons] at htokens
    exact htokens.inTokens_range

theorem Akin.place_eq (h : s.Akin c t) : (s.currentRange c.setting₁).inTokens c.first
    = (t.currentRange c.setting₂).inTokens c.second := by
  rw [Respelling.setting₁, Respelling.setting₂, inTokens_currentRange c.placed_first h.suffix_first,
    inTokens_currentRange c.placed_second h.suffix_second, length_tokens, length_tokens, h.words,
    c.length_eq, h.isEmpty_eq]

/-! ### Single steps -/

theorem Akin.keep (h : s.Akin c t) {r r' : Report} (hr : r.outline c.first = r'.outline c.second) :
    (s.keep c.setting₁ r).Akin c (t.keep c.setting₂ r') := by
  have hlength := congrArg List.length h.reports
  rw [List.length_map, List.length_map] at hlength
  have hfatal : r.fatal = r'.fatal := congrArg Outline.fatal hr
  have hmax : c.setting₁.maxDiagnostics = c.setting₂.maxDiagnostics := rfl
  unfold State.keep
  dsimp only
  rw [hlength, hfatal, hmax]
  split
  · exact h
  · exact { h with reports := by rw [List.map_cons, List.map_cons, hr, h.reports] }

theorem Akin.report (h : s.Akin c t) {problem problem' : Problem}
    (hproblem : problem.outline c.first = problem'.outline c.second) :
    (s.report c.setting₁ problem).Akin c (t.report c.setting₂ problem') :=
  h.keep (Report.outline_eq hproblem h.place_eq h.isEmpty_eq)

theorem inWords_skippedTree (t : Token) : t.skippedTree.inWords
    = if t.inWords.1 = .invalid then .node .error [.token t.inWords.1 t.inWords.2]
      else .token t.inWords.1 t.inWords.2 := by
  have hinvalid : t.inWords.1 = .invalid ↔ t.kind = .invalid := by
    rw [← TokenKind.inWords_eq_iff rfl, Token.inWords, fst_inWords]
    exact TokenKind.inWords_eq_iff rfl
  unfold Token.skippedTree
  simp only [hinvalid]
  split <;> rfl

theorem Akin.attachPending (h : s.Akin c t) : s.attachPending.Akin c t.attachPending := by
  have hlength := congrArg List.length h.pending
  rw [List.length_map, List.length_map] at hlength
  have htrees (pending : List Token) : (pending.map Token.skippedTree).map Tree.inWords
      = (pending.map Token.inWords).map fun p =>
        if p.1 = .invalid then .node .error [.token p.1 p.2] else .token p.1 p.2 := by
    rw [List.map_map, List.map_map]
    exact List.map_congr_left fun t _ => inWords_skippedTree t
  refine { h with pending := rfl, left := ?_, siblings := ?_ }
  · show s.left - s.pending.length = t.left - t.pending.length
    rw [h.left, hlength]
  · simp only [State.attachPending, List.map_append, List.map_reverse, htrees, h.pending,
      h.siblings]

theorem Akin.bump (h : s.Akin c t) : s.bump.Akin c t.bump := by
  have hattach := h.attachPending
  have hwords := h.words
  cases hv : s.words <;> cases hw : t.words <;> rw [hv, hw] at hwords
  · rw [bump_of_words_eq_nil hv, bump_of_words_eq_nil hw]
    exact hattach
  · cases hwords
  · cases hwords
  · next v vs w ws =>
    obtain ⟨hfirst, hrest⟩ := List.cons.inj hwords
    obtain ⟨htoken, hbehind⟩ := Prod.mk.inj hfirst
    have htokens {u : Word} {us : List Word} : Word.tokens us <:+ Word.tokens (u :: us) := by
      rw [Word.tokens_cons]
      exact List.suffix_append _ _ |>.trans (List.suffix_cons _ _)
    rw [bump_of_words_eq_cons hv, bump_of_words_eq_cons hw]
    refine { hattach with
      pending := hbehind, words := hrest, left := congrArg (· - 1) hattach.left
      suffix_first := htokens.trans (hv ▸ h.suffix_first)
      suffix_second := htokens.trans (hw ▸ h.suffix_second), siblings := ?_ }
    simp only [List.map_cons, Tree.inWords_leaf, htoken]
    exact congrArg _ hattach.siblings

/-- Where nodes and groups begin, nothing has been read. -/
theorem Akin.opened (h : s.Akin c t) :
    Akin c { s.attachPending with siblings := [] } { t.attachPending with siblings := [] } :=
  { h.attachPending with siblings := rfl }

/-- What is made with no trees in front is put behind trees. -/
theorem Akin.behind {s' t' : State} (h : s.Akin c t) (h' : s'.Akin c t') :
    Akin c { s' with siblings := s'.siblings ++ s.siblings }
      { t' with siblings := t'.siblings ++ t.siblings } :=
  { h' with siblings := by rw [List.map_append, List.map_append, h.siblings, h'.siblings] }

/-- A node around all trees. -/
theorem Akin.wrap (h : s.Akin c t) (kind : NodeKind) :
    Akin c { s with siblings := [.node kind s.siblings.reverse] }
      { t with siblings := [.node kind t.siblings.reverse] } :=
  { h with
    siblings := by
      simp only [List.map_cons, List.map_nil, Tree.inWords, Tree.allInWords_eq_map,
        List.map_reverse, h.siblings] }

end State

namespace Rule

variable {ν α β σ : Type} {c : Respelling} {enter₁ enter₂ : ν → State → Bool × State}

/-- From akin states the rules yield the same, and go on to akin states. -/
def Parallel (c : Respelling) (enter₁ enter₂ : ν → State → Bool × State) (rule₁ rule₂ : Rule ν α) :
    Prop :=
  ∀ s t, s.Akin c t →
    (rule₁.run c.setting₁ enter₁ s).1 = (rule₂.run c.setting₂ enter₂ t).1 ∧
      (rule₁.run c.setting₁ enter₁ s).2.Akin c (rule₂.run c.setting₂ enter₂ t).2

theorem akin_iterate {body₁ body₂ : σ → Rule ν (σ × Bool)}
    (h : ∀ a, Parallel c enter₁ enter₂ (body₁ a) (body₂ a)) (rounds : Nat) (a : σ) {s t : State}
    (hakin : s.Akin c t) :
    (iterate (fun a s => (body₁ a).run c.setting₁ enter₁ s) rounds a s).1
        = (iterate (fun a t => (body₂ a).run c.setting₂ enter₂ t) rounds a t).1 ∧
      (iterate (fun a s => (body₁ a).run c.setting₁ enter₁ s) rounds a s).2.Akin c
        (iterate (fun a t => (body₂ a).run c.setting₂ enter₂ t) rounds a t).2 := by
  induction rounds generalizing a s t with
  | zero => exact ⟨rfl, { hakin with stalled := rfl }⟩
  | succ rounds ih =>
    obtain ⟨hvalue, hstate⟩ := h a s t hakin
    simp only [iterate]
    generalize (body₁ a).run c.setting₁ enter₁ s = round₁ at hvalue hstate ⊢
    generalize (body₂ a).run c.setting₂ enter₂ t = round₂ at hvalue hstate ⊢
    obtain ⟨⟨b, more⟩, s'⟩ := round₁
    obtain ⟨_, t'⟩ := round₂
    cases hvalue
    cases more with
    | true => exact ih b hstate
    | false => exact ⟨rfl, hstate⟩

namespace Parallel

/-! ### Rules in a row -/

theorem done (a : α) : Parallel c enter₁ enter₂ (.done a) (.done a) := fun _ _ h => ⟨rfl, h⟩

theorem pure (a : α) : Parallel c enter₁ enter₂ (Pure.pure a) (Pure.pure a) := done a

theorem bind {first₁ first₂ : Rule ν α} {next₁ next₂ : α → Rule ν β}
    (hfirst : Parallel c enter₁ enter₂ first₁ first₂)
    (hnext : ∀ a, Parallel c enter₁ enter₂ (next₁ a) (next₂ a)) :
    Parallel c enter₁ enter₂ (first₁ >>= next₁) (first₂ >>= next₂) := by
  intro s t h
  obtain ⟨hvalue, hstate⟩ := hfirst s t h
  rw [run_bind, run_bind, hvalue]
  exact hnext _ _ _ hstate

theorem ite {condition : Prop} [Decidable condition] {yes₁ yes₂ no₁ no₂ : Rule ν α}
    (hyes : Parallel c enter₁ enter₂ yes₁ yes₂) (hno : Parallel c enter₁ enter₂ no₁ no₂) :
    Parallel c enter₁ enter₂ (if condition then yes₁ else no₁)
      (if condition then yes₂ else no₂) := by
  split
  · exact hyes
  · exact hno

theorem «when» {condition : Bool} {rule₁ rule₂ : Rule ν Unit}
    (h : Parallel c enter₁ enter₂ rule₁ rule₂) :
    Parallel c enter₁ enter₂ (Rule.when condition rule₁) (Rule.when condition rule₂) :=
  ite h (done ())

theorem pick {condition : Bool} {yes₁ yes₂ no₁ no₂ : Rule ν α}
    (hyes : Parallel c enter₁ enter₂ yes₁ yes₂) (hno : Parallel c enter₁ enter₂ no₁ no₂) :
    Parallel c enter₁ enter₂ (Rule.pick condition yes₁ no₁) (Rule.pick condition yes₂ no₂) :=
  ite hyes hno

theorem ignore {rule₁ rule₂ : Rule ν α} (h : Parallel c enter₁ enter₂ rule₁ rule₂) :
    Parallel c enter₁ enter₂ (Rule.ignore rule₁) (Rule.ignore rule₂) :=
  bind h fun _ => done ()

/-! ### Looking ahead -/

/-- What the next rule does with a kind has to be the same for both spellings. -/
theorem peek (n : Nat) {next₁ next₂ : Option TokenKind → Rule ν α}
    (h : ∀ k₁ k₂, k₁.map TokenKind.inWords = k₂.map TokenKind.inWords →
      Parallel c enter₁ enter₂ (next₁ k₁) (next₂ k₂)) :
    Parallel c enter₁ enter₂ (.peek n >>= next₁) (.peek n >>= next₂) :=
  fun s t hakin => h _ _ (hakin.kindAt_eq n) s t hakin

/-- A kind that the next rule is blind to. -/
theorem peekBlind (n : Nat) {next : Option TokenKind → Rule ν α}
    (hblind : Blind fun k => next (some k)) (h : ∀ k, Parallel c enter₁ enter₂ (next k) (next k)) :
    Parallel c enter₁ enter₂ (.peek n >>= next) (.peek n >>= next) :=
  peek n fun k₁ _ hk => hblind.option_eq hk ▸ h k₁

/-- A kind of one spelling is told from the others. -/
theorem nthIs (n : Nat) {kind : TokenKind} (h : kind.hasSynonym = false) :
    Parallel c enter₁ enter₂ (Rule.nthIs n kind) (Rule.nthIs n kind) :=
  peek n fun k₁ k₂ hk => by
    rw [kind.beq_eq h hk]
    exact done _

theorem currentIs {kind : TokenKind} (h : kind.hasSynonym = false) :
    Parallel c enter₁ enter₂ (Rule.currentIs kind) (Rule.currentIs kind) :=
  nthIs 0 h

theorem nthPasses (n : Nat) {test : TokenKind → Bool} (h : Blind test) :
    Parallel c enter₁ enter₂ (Rule.nthPasses n test) (Rule.nthPasses n test) :=
  peek n fun k₁ k₂ hk => by
    rw [h.any_eq hk]
    exact done _

theorem currentIn {kinds : List TokenKind} (h : Blind kinds.contains) :
    Parallel c enter₁ enter₂ (Rule.currentIn kinds) (Rule.currentIn kinds) :=
  nthPasses 0 h

theorem atEnd : Parallel c enter₁ enter₂ Rule.atEnd Rule.atEnd :=
  peek 0 fun k₁ k₂ hk => by
    rw [← Option.isNone_map, hk, Option.isNone_map]
    exact done _

theorem ahead {test : List TokenKind → Bool}
    (h : ∀ kinds, test (kinds.map TokenKind.inWords) = test kinds) :
    Parallel c enter₁ enter₂ (.ahead test) (.ahead test) := by
  intro s t hakin
  rw [run_ahead, run_ahead, ← h, hakin.kinds_eq, h]
  exact ⟨rfl, hakin⟩

theorem atRecoveryPoint : Parallel c enter₁ enter₂ .atRecoveryPoint .atRecoveryPoint :=
  fun _ _ h => ⟨h.atRecoveryPoint_eq, h⟩

/-- A place may be reported. -/
theorem currentRange {next₁ next₂ : ByteRange → Rule ν α}
    (h : ∀ r₁ r₂ : ByteRange, r₁.inTokens c.first = r₂.inTokens c.second →
      Parallel c enter₁ enter₂ (next₁ r₁) (next₂ r₂)) :
    Parallel c enter₁ enter₂ (.currentRange >>= next₁) (.currentRange >>= next₂) :=
  fun s t hakin => h _ _ hakin.place_eq s t hakin

/-- What the next rule does with a text has to be the same for both spellings. -/
theorem currentText {next₁ next₂ : String → Rule ν α}
    (h : ∀ token₁ token₂, inWords token₁ = inWords token₂ →
      Parallel c enter₁ enter₂ (next₁ token₁.2) (next₂ token₂.2)) :
    Parallel c enter₁ enter₂ (.currentText >>= next₁) (.currentText >>= next₂) := by
  intro s t hakin
  have htoken := congrArg List.head? hakin.words
  rw [List.head?_map, List.head?_map] at htoken
  rw [run_bind, run_bind]
  simp only [run, State.current?]
  cases hs : s.words.head? <;> cases ht : t.words.head? <;> rw [hs, ht] at htoken
  · exact h (.ident, "") (.ident, "") rfl s t hakin
  · cases htoken
  · cases htoken
  · next v w => exact h _ _ (congrArg Prod.fst (Option.some.inj htoken)) s t hakin

theorem andAlso {first₁ first₂ second₁ second₂ : Rule ν Bool}
    (hfirst : Parallel c enter₁ enter₂ first₁ first₂)
    (hsecond : Parallel c enter₁ enter₂ second₁ second₂) :
    Parallel c enter₁ enter₂ (Rule.andAlso first₁ second₁) (Rule.andAlso first₂ second₂) :=
  bind hfirst fun _ => ite hsecond (done _)

theorem orElse {first₁ first₂ second₁ second₂ : Rule ν Bool}
    (hfirst : Parallel c enter₁ enter₂ first₁ first₂)
    (hsecond : Parallel c enter₁ enter₂ second₁ second₂) :
    Parallel c enter₁ enter₂ (Rule.orElse first₁ second₁) (Rule.orElse first₂ second₂) :=
  bind hfirst fun _ => ite (done _) hsecond

/-! ### Steps -/

theorem bump : Parallel c enter₁ enter₂ .bump .bump := fun _ _ h => ⟨rfl, h.bump⟩

/-- The words of a problem do not matter. -/
theorem report {problem₁ problem₂ : Problem}
    (h : problem₁.outline c.first = problem₂.outline c.second) :
    Parallel c enter₁ enter₂ (.report problem₁) (.report problem₂) :=
  fun _ _ hakin => ⟨rfl, hakin.report h⟩

theorem requireTemporal : Parallel c enter₁ enter₂ .requireTemporal .requireTemporal := by
  intro s t h
  refine ⟨rfl, ?_⟩
  simp only [run, h.temporal]
  split
  · exact h
  · exact h.report rfl

theorem admitTemporal : Parallel c enter₁ enter₂ .admitTemporal .admitTemporal := by
  intro s t h
  have hmode : c.setting₁.mode = c.setting₂.mode := rfl
  refine ⟨rfl, ?_⟩
  simp only [run, hmode]
  split
  · exact { h with temporal := rfl }
  · exact h

theorem group {body₁ body₂ : Rule ν α} (h : Parallel c enter₁ enter₂ body₁ body₂) :
    Parallel c enter₁ enter₂ (.group body₁) (.group body₂) := by
  intro s t hakin
  obtain ⟨hvalue, hstate⟩ := h _ _ hakin.opened
  exact ⟨hvalue, hakin.attachPending.behind hstate⟩

theorem enclose (kind : NodeKind) {body₁ body₂ : Rule ν α}
    (h : Parallel c enter₁ enter₂ body₁ body₂) :
    Parallel c enter₁ enter₂ (.enclose kind body₁) (.enclose kind body₂) := by
  intro s t hakin
  obtain ⟨hvalue, hstate⟩ := h s t hakin
  exact ⟨hvalue, hstate.wrap kind⟩

theorem node (kind : NodeKind) {body₁ body₂ : Rule ν α}
    (h : Parallel c enter₁ enter₂ body₁ body₂) :
    Parallel c enter₁ enter₂ (.node kind body₁) (.node kind body₂) := by
  have hnode := group (enclose kind h)
  exact hnode

theorem within (context : Context) {body₁ body₂ : Rule ν α}
    (h : Parallel c enter₁ enter₂ body₁ body₂) :
    Parallel c enter₁ enter₂ (.within context body₁) (.within context body₂) := by
  intro s t hakin
  obtain ⟨hvalue, hstate⟩ := h { s with contexts := context :: s.contexts }
    { t with contexts := context :: t.contexts }
    { hakin with contexts := congrArg (context :: ·) hakin.contexts }
  exact ⟨hvalue, { hstate with contexts := congrArg List.tail hstate.contexts }⟩

theorem progress {body₁ body₂ : Rule ν α} (h : Parallel c enter₁ enter₂ body₁ body₂) :
    Parallel c enter₁ enter₂ (.progress body₁) (.progress body₂) := by
  intro s t hakin
  obtain ⟨hvalue, hstate⟩ := h s t hakin
  rw [run_progress, run_progress, hvalue, hstate.left, hakin.left]
  exact ⟨rfl, hstate⟩

/-- Loops go round equally often. -/
theorem loop (a : σ) {body₁ body₂ : σ → Rule ν (σ × Bool)}
    (h : ∀ a, Parallel c enter₁ enter₂ (body₁ a) (body₂ a)) :
    Parallel c enter₁ enter₂ (.loop a body₁) (.loop a body₂) := by
  intro s t hakin
  rw [run, run, hakin.left]
  exact akin_iterate h (t.left + 1) a hakin

theorem repeated {body₁ body₂ : Rule ν Bool} (h : Parallel c enter₁ enter₂ body₁ body₂) :
    Parallel c enter₁ enter₂ (Rule.repeated body₁) (Rule.repeated body₂) :=
  loop () fun _ => bind h fun _ => done _

/-! ### Taking tokens -/

theorem tokenNode (kind : NodeKind) :
    Parallel c enter₁ enter₂ (Rule.tokenNode kind) (Rule.tokenNode kind) :=
  node kind bump

theorem eat {kind : TokenKind} (h : kind.hasSynonym = false) :
    Parallel c enter₁ enter₂ (Rule.eat kind) (Rule.eat kind) :=
  bind (currentIs h) fun _ => bind (.when bump) fun _ => done _

theorem skipToken {problem : Problem} (h : problem.outline c.first = problem.outline c.second) :
    Parallel c enter₁ enter₂ (Rule.skipToken problem) (Rule.skipToken problem) :=
  bind (report h) fun _ => bind atEnd fun _ => .when (node .error bump)

theorem expectToken {kind : TokenKind} (h : kind.hasSynonym = false) (code : Code)
    {opener₁ opener₂ : Option ByteRange}
    (hopener : opener₁.map (·.inTokens c.first) = opener₂.map (·.inTokens c.second)) :
    Parallel c enter₁ enter₂ (Rule.expectToken kind code opener₁)
      (Rule.expectToken kind code opener₂) := by
  have hmissing : (Problem.missing kind code opener₁).outline c.first
      = (Problem.missing kind code opener₂).outline c.second := by
    cases opener₁ <;> cases opener₂
    · rfl
    · cases hopener
    · cases hopener
    · simp only [Problem.outline, Problem.code, Problem.hint, Problem.notes, List.map_cons,
        List.map_nil, Option.some.inj hopener]
  exact bind (eat h) fun _ => ite (done _) <| bind atRecoveryPoint fun _ => bind (nthIs 1 h)
    fun _ => ite (bind (skipToken rfl) fun _ => bind bump fun _ => done _)
      (bind (report hmissing) fun _ => done _)

theorem expect {kind : TokenKind} (h : kind.hasSynonym = false) :
    Parallel c enter₁ enter₂ (Rule.expect kind) (Rule.expect kind) :=
  expectToken h _ rfl

theorem expectCloser {kind : TokenKind} (h : kind.hasSynonym = false) {opener₁ opener₂ : ByteRange}
    (hopener : opener₁.inTokens c.first = opener₂.inTokens c.second) :
    Parallel c enter₁ enter₂ (Rule.expectCloser kind opener₁) (Rule.expectCloser kind opener₂) :=
  expectToken h _ (congrArg some hopener)

/-! ### Recovery and lists -/

theorem skipUntil {problem : Problem} (h : problem.outline c.first = problem.outline c.second)
    {stops : List TokenKind} (hstops : Blind stops.contains) :
    Parallel c enter₁ enter₂ (Rule.skipUntil problem stops) (Rule.skipUntil problem stops) :=
  bind (report h) fun _ => bind atEnd fun _ => .when <| node .error <| bind bump fun _ =>
    repeated <| bind (currentIn hstops) fun _ => bind atRecoveryPoint fun _ =>
    bind (.when bump) fun _ => done _

theorem items {closer : Punct} (h : (TokenKind.punct closer).hasSynonym = false) (code : Code)
    {item₁ item₂ : Rule ν Unit} (hitem : Parallel c enter₁ enter₂ item₁ item₂) :
    Parallel c enter₁ enter₂ (Rule.items closer code item₁) (Rule.items closer code item₂) :=
  repeated <| bind (currentIs h) fun _ => bind atEnd fun _ => ite (done _) <|
    bind (progress hitem) fun _ => ite (done _) <| bind atRecoveryPoint fun _ =>
    bind (.when (skipToken rfl)) fun _ => done _

end Parallel
end Rule
end RelLang
