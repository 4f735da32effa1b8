import RelLang.Proofs.Syntax.Expression

/-!
# What nodes end with

Skipped tokens are put into the tree in front of something: a token that is taken, or a node or
group that begins. They are left at the end of a node only if nothing comes behind them, because
the text is at its end or because the last node or group in it is empty. So a rule is described by
what it needs to know of the tokens ahead, by whether it begins behind something that is no trivia,
and by whether it ends there, depending on what it yields. Only readings without reports are looked
at, so a rule that reports is described by anything.
-/

namespace RelLang

open Grammar Rule

/-- There is a last leaf, and it is no trivia. -/
def Tree.Backed (children : List Tree) : Prop :=
  ∃ leaf, (leavesAll children).getLast? = some leaf ∧ leaf.1.isTrivia = false

/-- The last leaf of a node is no trivia, and only a list of arguments in front of the bracket that
closes them holds nothing. -/
def BackedNode (kind : NodeKind) (children : List Tree) (behind : List (TokenKind × String)) :
    Prop :=
  Tree.Backed children ∨
    kind = .exprList ∧ children = [] ∧ ∃ text, behind.head? = some (.punct .rbracket, text)

theorem Tree.backed_append (ts : List Tree) {us : List Tree} (h : Backed us) :
    Backed (ts ++ us) := by
  obtain ⟨leaf, hlast, htrivia⟩ := h
  refine ⟨leaf, ?_, htrivia⟩
  rw [leavesAll_append, List.getLast?_append, hlast]
  rfl

theorem Tree.backed_node {kind : NodeKind} {children : List Tree} :
    Backed [.node kind children] ↔ Backed children := by
  rw [Backed, leavesAll_singleton, leaves, Backed]

theorem backedNode_invalid (text : String) (behind : List (TokenKind × String)) :
    BackedNode .error [.token .invalid text] behind :=
  .inl ⟨(.invalid, text), rfl, rfl⟩

namespace State

variable {s : State} {k : TokenKind} {ks : List TokenKind}

/-- The last leaf of what the innermost node or group holds is no trivia. -/
def Closed (s : State) : Prop := Tree.Backed s.siblings.reverse

/-- Behind a token that was taken. -/
theorem closed_bump (hs : s.Ready) (hk : s.kinds = k :: ks) : s.bump.Closed := by
  obtain ⟨w, ws, hw, -⟩ := words_of_kinds hk
  have hsig := hs.valid.token w (by rw [hw]; exact List.mem_cons_self)
  simp only [TokenKind.isSignificant, Bool.and_eq_true, Bool.not_eq_true'] at hsig
  rw [bump_of_words_eq_cons hw, Closed, List.reverse_cons]
  exact Tree.backed_append _ ⟨w.token.toPair, by simp, hsig.1⟩

theorem kinds_bump (hk : s.kinds = k :: ks) : s.bump.kinds = ks := by
  obtain ⟨w, ws, hw, -⟩ := words_of_kinds hk
  rw [kinds, hw] at hk
  rw [bump_of_words_eq_cons hw, kinds]
  exact (List.cons.inj hk).2

/-- Where a node or group begins, nothing is skipped in front of the next token. -/
theorem head?_rest_attachPending (hk : s.kinds = k :: ks) :
    ∃ text, (s.attachPending.rest.map Token.toPair).head? = some (k, text) := by
  obtain ⟨w, ws, hw, rfl⟩ := words_of_kinds hk
  exact ⟨w.token.text, by simp [rest, attachPending, hw, Word.tokens_cons, Token.toPair]⟩

/-- Where a node or group begins, it holds nothing. -/
theorem ready_opened (hs : s.Ready) : Ready { s.attachPending with siblings := [] } :=
  (ready_attachPending hs).of_eq rfl rfl rfl

end State

/-- In a reading without reports from a place where the tokens ahead are as `pre` says, and the
last leaf is no trivia if `closed` is true, all nodes are backed; and the last leaf at the end is
no trivia if `closes` is true of what the rule yields. -/
def Neat (r : Reader) {α : Type} (closed : Bool) (pre : List TokenKind → Prop)
    (rule : Rule Nonterminal α) (closes : α → Bool) : Prop :=
  ∀ s : State, s.Ready → s.Sound BackedNode → (closed = true → s.Closed) → pre s.kinds →
    (rule.run r.setting r.enter s).2.reports = [] →
    (rule.run r.setting r.enter s).2.Sound BackedNode ∧
      (closes (rule.run r.setting r.enter s).1 = true → (rule.run r.setting r.enter s).2.Closed)

/-- A reader whose calls end with what is no trivia if they find what they look for. -/
structure Reader.Tidy (r : Reader) : Prop where
  expression : ∀ level, Neat r false anything (call (.expression level)) id
  boundGroup : Neat r false anything (call .boundGroup) fun _ => true

variable {r : Reader} {α β σ : Type} {closed : Bool} {pre : List TokenKind → Prop}
  {rest : List TokenKind → Prop} {ks : List TokenKind} {kind : TokenKind}

namespace Neat

theorem mono {closed' : Bool} {pre' : List TokenKind → Prop} {rule : Rule Nonterminal α}
    {closes closes' : α → Bool} (h : Neat r closed pre rule closes)
    (hclosed : closed = true → closed' = true) (hpre : ∀ ks, pre' ks → pre ks)
    (hcloses : ∀ a, closes' a = true → closes a = true) : Neat r closed' pre' rule closes' := by
  intro s hs hsound hstart hp hclean
  obtain ⟨hsound', hend⟩ := h s hs hsound (fun hc => hstart (hclosed hc)) (hpre _ hp) hclean
  exact ⟨hsound', fun ha => hend (hcloses _ ha)⟩

/-- What closes from anywhere. -/
theorem always {rule : Rule Nonterminal α} {closes : α → Bool}
    (h : Neat r false anything rule fun _ => true) : Neat r closed pre rule closes :=
  h.mono nofun (fun _ _ => trivial) fun _ _ => rfl

/-! ### Rules in a row -/

theorem done {closes : α → Bool} {a : α} (h : closes a = true → closed = true) :
    Neat r closed pre (pure a) closes :=
  fun _ _ hsound hclosed _ _ => ⟨hsound, fun ha => hclosed (h ha)⟩

theorem bind (hr : r.Faithful) {first : Rule Nonterminal α} {next : α → Rule Nonterminal β}
    {between : α → Bool} {closes : β → Bool} (hfirst : Neat r closed pre first between)
    (hnext : ∀ a, Neat r (between a) anything (next a) closes) :
    Neat r closed pre (first >>= next) closes := by
  intro s hs hsound hclosed hp hclean
  have hready := hs.of_reaches (reaches_run r.setting hr.steady first s)
  have hreach := reaches_run r.setting hr.steady (next (first.run r.setting r.enter s).1)
    (first.run r.setting r.enter s).2
  obtain ⟨hsound', hclosed'⟩ := hfirst s hs hsound hclosed hp (hreach.reports_eq_nil hclean)
  exact hnext _ _ hready hsound' hclosed' trivial hclean

/-- Behind a rule of which nothing is needed but that its nodes are backed. -/
theorem «then» (hr : r.Faithful) {first : Rule Nonterminal α} {next : α → Rule Nonterminal β}
    {closes : β → Bool} (hfirst : Neat r closed pre first fun _ => false)
    (hnext : ∀ a, Neat r false anything (next a) closes) :
    Neat r closed pre (first >>= next) closes :=
  bind hr hfirst hnext

/-- Behind a rule that closes. -/
theorem after (hr : r.Faithful) {first : Rule Nonterminal α} {next : α → Rule Nonterminal β}
    {closes : β → Bool} (hfirst : Neat r closed pre first fun _ => true)
    (hnext : ∀ a, Neat r true anything (next a) closes) :
    Neat r closed pre (first >>= next) closes :=
  bind hr hfirst hnext

/-- What is known behind the first rule follows from what it reads. -/
theorem thenKnown (hr : r.Faithful) {first : Rule Nonterminal Unit}
    {next : Unit → Rule Nonterminal β} {closes : β → Bool} {f : Form}
    (hread : Reads r pre anyhow (fun _ => f) first)
    (hfirst : Neat r closed pre first fun _ => false)
    (hnext : Neat r false rest (next ()) closes)
    (hknown : ∀ n ts behind, f.Derives n ts behind → pre (Tree.kinds ts ++ behind) → rest behind) :
    Neat r closed pre (first >>= next) closes := by
  intro s hs hsound hclosed hp hclean
  have hreach := reaches_run r.setting hr.steady first s
  have hclean' := (reaches_run r.setting hr.steady (next ())
    (first.run r.setting r.enter s).2).reports_eq_nil hclean
  obtain ⟨ts, hbare, hts⟩ := hread.sound s hs hp hclean'
  rw [hreach.kinds_eq hs hbare] at hp
  exact hnext _ (hs.of_reaches hreach) (hfirst s hs hsound hclosed
    (by rwa [hreach.kinds_eq hs hbare]) hclean').1 nofun (hknown _ _ _ hts hp) hclean

theorem ignore (hr : r.Faithful) {rule : Rule Nonterminal α} {b : Bool}
    (h : Neat r closed pre rule fun _ => b) : Neat r closed pre (Rule.ignore rule) fun _ => b :=
  bind hr h fun _ => done id

/-- A look at the tokens ahead tells something about them. -/
theorem look {first : Rule Nonterminal α} {v : List TokenKind → α} (hl : Looks first v)
    {next : α → Rule Nonterminal β} {closes : β → Bool}
    (hnext : ∀ a, Neat r closed (fun ks => pre ks ∧ v ks = a) (next a) closes) :
    Neat r closed pre (first >>= next) closes := by
  intro s hs hsound hclosed hp hclean
  rw [run_bind, hl] at hclean ⊢
  exact hnext _ s hs hsound hclosed ⟨hp, rfl⟩ hclean

/-- Looks that nothing depends on. -/
theorem skipLook {first : Rule Nonterminal α} {next : α → Rule Nonterminal β} {closes : β → Bool}
    (hfirst : ∀ s, (first.run r.setting r.enter s).2 = s)
    (hnext : ∀ a, Neat r closed pre (next a) closes) :
    Neat r closed pre (first >>= next) closes := by
  intro s hs hsound hclosed hp hclean
  rw [run_bind, hfirst] at hclean ⊢
  exact hnext _ s hs hsound hclosed hp hclean

theorem ofLoud {rule : Rule Nonterminal α} (h : Rejects r rule) {closes : α → Bool} :
    Neat r closed pre rule closes :=
  fun s _ _ _ _ hclean => absurd hclean (h s)

theorem report (hr : r.Faithful) (problem : Problem) {closes : Unit → Bool} :
    Neat r closed pre (.report problem) closes :=
  ofLoud (rejects_report hr problem)

theorem progress {rule : Rule Nonterminal α} {b : Bool} (h : Neat r closed pre rule fun _ => b) :
    Neat r closed pre (.progress rule) fun _ => b := h

theorem ite {c : Prop} [Decidable c] {yes no : Rule Nonterminal α} {closes : α → Bool}
    (hyes : c → Neat r closed pre yes closes) (hno : ¬ c → Neat r closed pre no closes) :
    Neat r closed pre (if c then yes else no) closes := by
  split
  · next hc => exact hyes hc
  · next hc => exact hno hc

theorem «when» {condition : Bool} {rule : Rule Nonterminal Unit}
    (h : condition = true → Neat r closed pre rule fun _ => closed) :
    Neat r closed pre (Rule.when condition rule) fun _ => closed :=
  ite h fun _ => done id

/-- Nothing is taken where nothing is reported. -/
theorem whenReport (hr : r.Faithful) {condition : Bool} {problem : Problem}
    {next : Unit → Rule Nonterminal β} {closes : β → Bool}
    (hnext : Neat r closed pre (next ()) closes) :
    Neat r closed pre (Rule.when condition (.report problem) >>= next) closes := by
  cases condition with
  | false => exact hnext
  | true => exact ofLoud ((rejects_report hr problem).bind hr next)

/-! ### Taking tokens -/

/-- A token of which it is known that it is there. -/
theorem bump (hfront : ∀ ahead, pre ahead → Front ks rest ahead) {closes : Unit → Bool} :
    Neat r closed pre .bump closes := by
  intro s hs hsound _ hp _
  obtain ⟨k, behind, hkinds, -, -⟩ := hfront _ hp
  exact ⟨hsound.bump backedNode_invalid, fun _ => State.closed_bump hs hkinds⟩

/-- A token may be missing where nothing has to be closed. -/
theorem bumpLoose : Neat r closed pre .bump fun _ => false :=
  fun _ _ hsound _ _ _ => ⟨hsound.bump backedNode_invalid, nofun⟩

/-- Behind a token of which it is known that it is there, the others are still ahead. -/
theorem bumpThen (hfront : ∀ ahead, pre ahead → Front ks rest ahead)
    {next : Unit → Rule Nonterminal α} {closes : α → Bool}
    (hnext : Neat r true rest (next ()) closes) :
    Neat r closed pre (.bump >>= next) closes := by
  intro s hs hsound _ hp hclean
  obtain ⟨k, behind, hkinds, -, hrest⟩ := hfront _ hp
  refine hnext s.bump (hs.of_reaches (State.reaches_bump s)) (hsound.bump backedNode_invalid)
    (fun _ => State.closed_bump hs hkinds) ?_ hclean
  rwa [State.kinds_bump hkinds]

theorem bumpBump {ms : List TokenKind} {closes : Unit → Bool}
    (hfront : ∀ ahead, pre ahead → Front ks (Front ms rest) ahead) :
    Neat r closed pre (.bump >>= fun _ => .bump) closes :=
  bumpThen hfront (bump fun _ => id)

theorem eat : Neat r closed pre (Rule.eat kind) fun present => closed || present := by
  intro s hs hsound hclosed _ _
  rw [run_eat]
  split
  · next hk =>
    rw [State.kindAt_eq] at hk
    obtain ⟨k, behind, hkinds, -, -⟩ := front_of_at? hk
    exact ⟨hsound.bump backedNode_invalid, fun _ => State.closed_bump hs hkinds⟩
  · exact ⟨hsound, fun h => hclosed (by simpa using h)⟩

/-- A token that may be there. -/
theorem mayEat : Neat r closed pre (Rule.eat kind) fun _ => closed :=
  eat.mono id (fun _ => id) fun _ hc => Bool.or_eq_true_iff.mpr (.inl hc)

/-- What is done only behind a token. -/
theorem eatWhen (hr : r.Faithful) {rule : Rule Nonterminal Unit}
    (h : Neat r true anything rule fun _ => true) :
    Neat r closed pre (Rule.eat kind >>= fun present => Rule.when present rule)
      fun _ => closed := by
  refine bind hr eat fun present => ?_
  cases present with
  | true => exact h.mono (fun _ => Bool.or_true _) (fun _ => id) fun _ _ => rfl
  | false => exact done fun hc => by rw [hc, Bool.true_or]

/-- A token that has to be there. -/
theorem expectToken (hr : r.Faithful) {code : Code} {opener : Option ByteRange}
    {closes : Bool → Bool} :
    Neat r closed pre (Rule.expectToken kind code opener) closes := by
  refine bind hr eat fun present => ite (fun hpresent => done fun _ => ?_) fun _ => ?_
  · rw [hpresent, Bool.or_true]
  · exact skipLook (fun _ => rfl) fun _ => skipLook (fun _ => rfl) fun _ => ite
      (fun _ => ofLoud ((rejects_skipToken hr _).bind hr _))
      fun _ => ofLoud ((rejects_report hr _).bind hr _)

theorem requireToken (hr : r.Faithful) {code : Code} {opener : Option ByteRange}
    {closes : Unit → Bool} :
    Neat r closed pre (Rule.ignore (Rule.expectToken kind code opener)) closes :=
  after hr (expectToken hr) fun _ => done fun _ => rfl

/-! ### Nodes and groups -/

theorem node (hr : r.Faithful) {body : Rule Nonterminal α} {kind : NodeKind} {closes : α → Bool}
    (h : Neat r false pre body fun _ => true) : Neat r closed pre (.node kind body) closes := by
  intro s hs hsound _ hp hclean
  obtain ⟨hbody, hclosed⟩ := h _ (State.ready_opened hs) (State.sound_of_siblings_eq_nil rfl)
    nofun hp hclean
  refine ⟨sound_node backedNode_invalid hr.steady hsound rfl hbody (.inl (hclosed rfl)),
    fun _ => ?_⟩
  rw [run_node, State.Closed, List.reverse_cons]
  exact Tree.backed_append _ (Tree.backed_node.mpr (hclosed rfl))

/-- A list of arguments, which holds nothing in front of the bracket that closes it. -/
theorem argumentNode (hr : r.Faithful) {rule : Rule Nonterminal Unit}
    (h : Neat r false pre rule fun _ => true) :
    Neat r closed pre (.node .exprList do
      let closed ← currentIs Punct.rbracket
      Rule.when (!closed) rule) fun _ => false := by
  intro s hs hsound _ hp hclean
  have hopened := State.sound_of_siblings_eq_nil (P := BackedNode)
    (s := { s.attachPending with siblings := [] }) rfl
  have hbody : (do
      let closed ← currentIs Punct.rbracket
      Rule.when (!closed) rule : Rule Nonterminal Unit).run r.setting r.enter
        { s.attachPending with siblings := [] }
      = (Rule.when (!Form.at? (.punct .rbracket) s.kinds) rule).run r.setting r.enter
        { s.attachPending with siblings := [] } := by
    rw [run_bind, looks_currentIs]
    rfl
  rw [run_node, hbody] at hclean
  cases hclosing : Form.at? (.punct .rbracket) s.kinds with
  | true =>
    rw [hclosing] at hbody
    obtain ⟨k, behind, hkinds, hk, -⟩ := front_of_at? hclosing
    rw [List.mem_singleton.mp hk] at hkinds
    exact ⟨sound_node backedNode_invalid hr.steady hsound (congrArg Prod.snd hbody) hopened
      (.inr ⟨rfl, rfl, State.head?_rest_attachPending hkinds⟩), nofun⟩
  | false =>
    rw [hclosing] at hbody hclean
    obtain ⟨hrest, hclosed⟩ := h _ (State.ready_opened hs) hopened nofun hp hclean
    exact ⟨sound_node backedNode_invalid hr.steady hsound (congrArg Prod.snd hbody) hrest
      (.inl (hclosed rfl)), nofun⟩

theorem tokenNode (hr : r.Faithful) {kind : NodeKind}
    (hfront : ∀ ahead, pre ahead → Front ks rest ahead) {closes : Unit → Bool} :
    Neat r closed pre (Rule.tokenNode kind) closes :=
  node hr (bump hfront)

theorem group (hr : r.Faithful) {body : Rule Nonterminal α} {closes : α → Bool}
    (h : Neat r false pre body closes) : Neat r closed pre (.group body) closes := by
  intro s hs hsound _ hp hclean
  obtain ⟨hbody, hclosed⟩ := h _ (State.ready_opened hs) (State.sound_of_siblings_eq_nil rfl)
    nofun hp hclean
  refine ⟨sound_group backedNode_invalid hr.steady hsound hbody, fun ha => ?_⟩
  rw [run_group, State.Closed, List.reverse_append]
  exact Tree.backed_append _ (hclosed ha)

theorem enclose {body : Rule Nonterminal α} {kind : NodeKind} {closes : α → Bool}
    (h : Neat r closed pre body fun _ => true) :
    Neat r closed pre (.enclose kind body) closes := by
  intro s hs hsound hclosed hp hclean
  obtain ⟨hbody, hclosed'⟩ := h s hs hsound hclosed hp hclean
  exact ⟨hbody.wrap (.inl (hclosed' rfl)), fun _ => Tree.backed_node.mpr (hclosed' rfl)⟩

theorem within {body : Rule Nonterminal α} {context : Context} {closes : α → Bool}
    (h : Neat r closed pre body closes) : Neat r closed pre (.within context body) closes := by
  intro s hs hsound hclosed hp hclean
  obtain ⟨hbody, hclosed'⟩ := h { s with contexts := context :: s.contexts } (hs.of_eq rfl rfl rfl)
    (hsound.of_eq rfl rfl) hclosed hp hclean
  exact ⟨hbody.of_eq rfl rfl, hclosed'⟩

/-- Temporal constructs are admitted where nothing is reported. -/
theorem requireTemporal (hr : r.Faithful) {next : Unit → Rule Nonterminal α} {closes : α → Bool}
    (hnext : Neat r closed pre (next ()) closes) :
    Neat r closed pre (.requireTemporal >>= next) closes := by
  intro s hs hsound hclosed hp hclean
  rw [run_bind, run] at hclean ⊢
  split at hclean
  · next htemporal =>
    rw [if_pos htemporal]
    exact hnext s hs hsound hclosed hp hclean
  · exact absurd hclean ((rejects_report hr .temporalDisabled).bind hr next s)

theorem whenTemporal (hr : r.Faithful) {temporal : Bool} {next : Unit → Rule Nonterminal α}
    {closes : α → Bool} (hnext : Neat r closed pre (next ()) closes) :
    Neat r closed pre (Rule.when temporal .requireTemporal >>= next) closes := by
  cases temporal with
  | false => exact hnext
  | true => exact requireTemporal hr hnext

theorem admitTemporal : Neat r closed pre .admitTemporal fun _ => closed := by
  intro s _ hsound hclosed _ _
  rw [run]
  split
  · exact ⟨hsound.of_eq rfl rfl, hclosed⟩
  · exact ⟨hsound, hclosed⟩

/-! ### Loops -/

theorem loop (hr : r.Faithful) {a : σ} {body : σ → Rule Nonterminal (σ × Bool)}
    (h : ∀ a, Neat r closed anything (body a) fun _ => closed) :
    Neat r closed pre (.loop a body) fun _ => closed := by
  have hrounds (rounds : Nat) (a : σ) (s : State) (hs : s.Ready) (hsound : s.Sound BackedNode)
      (hclosed : closed = true → s.Closed)
      (hclean : (iterate (fun a t => (body a).run r.setting r.enter t) rounds a s).2.reports = []) :
      (iterate (fun a t => (body a).run r.setting r.enter t) rounds a s).2.Sound BackedNode ∧
        (closed = true →
          (iterate (fun a t => (body a).run r.setting r.enter t) rounds a s).2.Closed) := by
    induction rounds generalizing a s with
    | zero => exact ⟨hsound.of_eq rfl rfl, hclosed⟩
    | succ rounds ih =>
      unfold iterate at hclean ⊢
      dsimp only at hclean ⊢
      split at hclean
      · next hmore =>
        rw [if_pos hmore]
        have hround := (reaches_iterate (fun a s => reaches_run r.setting hr.steady (body a) s)
          rounds _ _).reports_eq_nil hclean
        obtain ⟨hsound', hclosed'⟩ := h a s hs hsound hclosed trivial hround
        exact ih _ _ (hs.of_reaches (reaches_run r.setting hr.steady (body a) s)) hsound' hclosed'
          hclean
      · next hlast =>
        rw [if_neg hlast]
        exact h a s hs hsound hclosed trivial hclean
  exact fun s hs hsound hclosed _ hclean => hrounds _ a s hs hsound hclosed hclean

theorem repeated (hr : r.Faithful) {body : Rule Nonterminal Bool}
    (h : Neat r closed anything body fun _ => closed) :
    Neat r closed pre (Rule.repeated body) fun _ => closed :=
  loop hr fun _ => bind hr h fun _ => done id

/-- A rule that is repeated as long as a test holds. -/
theorem repeatedWhile (hr : r.Faithful) {look : Rule Nonterminal Bool} {v : List TokenKind → Bool}
    (hl : Looks look v) {rule : Rule Nonterminal Unit}
    (h : Neat r closed (v · = true) rule fun _ => closed) :
    Neat r closed pre (Rule.repeated do
      let more ← look
      Rule.when more rule
      return more) fun _ => closed :=
  repeated hr <| .look hl fun _ => bind hr
    (.when fun hmore => h.mono id (fun _ hp => hp.2.trans hmore) fun _ => id) fun _ => done id

/-- A rule that is repeated behind separators. -/
theorem separated (hr : r.Faithful) {rule : Rule Nonterminal Unit}
    (h : Neat r true anything rule fun _ => true) :
    Neat r closed pre (Rule.repeated do
      let more ← Rule.eat kind
      Rule.when more rule
      return more) fun _ => closed := by
  refine repeated hr <| bind hr eat fun more => ?_
  cases more with
  | true =>
    exact after hr (h.mono (fun _ => Bool.or_true _) (fun _ => id) fun _ => id) fun _ =>
      done fun _ => rfl
  | false =>
    have hnot : Neat r (closed || false) anything (pure false) fun _ => closed :=
      done fun hc => by rw [hc, Bool.true_or]
    exact hnot

/-- A list of items each of which leaves it as closed as it was. -/
theorem items (hr : r.Faithful) {closer : Punct} {code : Code} {item : Rule Nonterminal Unit}
    (hitem : Neat r closed anything item fun _ => closed) :
    Neat r closed pre (Rule.items closer code item) fun _ => closed := by
  refine repeated hr <| skipLook (fun _ => rfl) fun atCloser => skipLook (fun _ => rfl) fun ended =>
    ite (fun _ => done id) fun _ => ?_
  exact bind hr (progress (hitem.mono id (fun _ _ => trivial) fun _ => id)) fun moved =>
    ite (fun _ => done id) fun _ => skipLook (fun _ => rfl) fun recovered =>
    bind hr (.when fun _ => ofLoud (rejects_skipToken hr _)) fun _ => done id

end Neat

end RelLang
