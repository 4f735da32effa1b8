import Mathlib.Data.List.Nodup
import RelLang.Proofs.Parse.Lossless
import RelLang.Traversal.Walk

/-!
# What a walk tells

Whoever is told the events of a walk, and nothing else, can keep the nodes that are open,
the latest first, and knows by them where each node and each token stands: a node below the
latest open node, as its next child, and a token directly below it. A walk never tells what
does not nest. It enters every node once, on the path by which it is reached from the
start, and it tells the significant tokens directly below each node, in their order.
-/

namespace RelLang
namespace WalkEvent

/-! ### Keeping the open nodes -/

/-- A node that has been entered and not left, the path to it, and how many of its children have
been entered. -/
structure OpenNode where
  node : Located
  path : List Nat
  entered : Nat

/-- What an event tells: a node with the path to it, or a token with the path to its parent. -/
inductive Note where
  | node (path : List Nat) (node : Located)
  | token (path : List Nat) (kind : TokenKind) (text : String)

/-- Enters a node as the next child of the latest open node. -/
def enterNode (n : Located) : List OpenNode → List OpenNode × Option Note
  | [] => ([⟨n, [], 0⟩], some (.node [] n))
  | f :: fs =>
    let path := f.path ++ [f.entered]
    (⟨n, path, 0⟩ :: { f with entered := f.entered + 1 } :: fs, some (.node path n))

/-- What an event does to the open nodes and what it tells; none if it does not nest, or if it
enters a node of the other sort. -/
def step : List OpenNode → WalkEvent → Option (List OpenNode × Option Note)
  | fs, .enter n => if n.kind = .error then none else some (enterNode n fs)
  | fs, .enterError n => if n.kind = .error then some (enterNode n fs) else none
  | f :: fs, .exit kind => if f.node.kind = kind then some (fs, none) else none
  | f :: fs, .token kind text => some (f :: fs, some (.token f.path kind text))
  | [], _ => none

/-- What events do to the open nodes, one after the other, and what they tell. -/
def replay : List OpenNode → List WalkEvent → Option (List OpenNode × List Note)
  | fs, [] => some (fs, [])
  | fs, e :: es => do
    let (fs, note) ← step fs e
    let (fs, notes) ← replay fs es
    return (fs, note.toList ++ notes)

/-- The nodes that are told, with the paths to them. -/
def nodesTold (notes : List Note) : List (List Nat × Located) :=
  notes.filterMap fun
    | .node path n => some (path, n)
    | .token .. => none

/-- The tokens that are told directly below the node at the end of a path. -/
def tokensTold (path : List Nat) (notes : List Note) : List (TokenKind × String) :=
  notes.filterMap fun
    | .node .. => none
    | .token p kind text => if p = path then some (kind, text) else none

/-- The tokens among events. -/
def tokens (events : List WalkEvent) : List (TokenKind × String) :=
  events.filterMap fun
    | .token kind text => some (kind, text)
    | _ => none

theorem replay_cons {fs gs hs : List OpenNode} {e : WalkEvent} {es : List WalkEvent}
    {note : Option Note} {notes : List Note} (hstep : step fs e = some (gs, note))
    (hrest : replay gs es = some (hs, notes)) :
    replay fs (e :: es) = some (hs, note.toList ++ notes) := by
  simp only [replay, hstep, hrest, Option.bind_eq_bind, Option.bind_some, Option.pure_def]

theorem replay_append {fs gs hs : List OpenNode} {as bs : List WalkEvent} {notes more : List Note}
    (hfirst : replay fs as = some (gs, notes)) (hrest : replay gs bs = some (hs, more)) :
    replay fs (as ++ bs) = some (hs, notes ++ more) := by
  induction as generalizing fs notes with
  | nil =>
    obtain ⟨rfl, rfl⟩ := Prod.mk.injEq .. ▸ Option.some.inj hfirst
    exact hrest
  | cons e as ih =>
    obtain ⟨⟨gs', note⟩, hstep, h⟩ := Option.bind_eq_some_iff.mp hfirst
    obtain ⟨⟨hs', notes'⟩, hreplay, h⟩ := Option.bind_eq_some_iff.mp h
    obtain ⟨rfl, rfl⟩ := Prod.mk.injEq .. ▸ Option.some.inj h
    rw [List.append_assoc]
    exact replay_cons hstep (ih hreplay)

theorem replay_exit (f : OpenNode) (fs : List OpenNode) :
    replay (f :: fs) [.exit f.node.kind] = some (fs, []) :=
  have hstep : step (f :: fs) (.exit f.node.kind) = some (fs, none) := if_pos rfl
  replay_cons hstep rfl

theorem step_entering (n : Located) (fs : List OpenNode) :
    step fs (entering n) = some (enterNode n fs) := by
  by_cases hkind : n.kind = .error
  · rw [entering, if_pos hkind, step, if_pos hkind]
  · rw [entering, if_neg hkind, step, if_neg hkind]

/-! ### The notes of a tree -/

namespace Note

/-- The note, told from further above. -/
def within (path : List Nat) : Note → Note
  | node p n => node (path ++ p) n
  | token p kind text => token (path ++ p) kind text

theorem map_within (p q : List Nat) (notes : List Note) :
    (notes.map (within q)).map (within p) = notes.map (within (p ++ q)) := by
  rw [List.map_map]
  exact List.map_congr_left fun note _ => by cases note <;> simp [within]

end Note

/-- Counts a node, but no token. -/
def nodeCount : Tree → Nat
  | .node .. => 1
  | .token .. => 0

mutual

/-- What is told of a tree: if it is a node, then as the child with a number. -/
def notesOf (i start : Nat) (before : List Tree) : Tree → List Note
  | .token kind text => if kind.isTrivia then [] else [.token [] kind text]
  | .node kind children =>
    (.node [] ⟨kind, children, start, before⟩ :: allNotesOf 0 start [] children).map (.within [i])

/-- What is told of the trees below a node, from a child with a number on. -/
def allNotesOf (i start : Nat) (before : List Tree) : List Tree → List Note
  | [] => []
  | t :: ts =>
    notesOf i start before t ++ allNotesOf (i + nodeCount t) (start + t.width) (t :: before) ts

end

mutual

theorem replay_ofTree (f : OpenNode) (fs : List OpenNode) (start : Nat) (before : List Tree) :
    ∀ t : Tree, replay (f :: fs) (ofTree start before t)
      = some ({ f with entered := f.entered + nodeCount t } :: fs,
        (notesOf f.entered start before t).map (.within f.path))
  | .token kind text => by
    rw [ofTree, notesOf]
    split
    · rfl
    · simp [replay, step, nodeCount, Note.within]
  | .node kind children => by
    obtain ⟨k, hchildren⟩ := replay_ofTrees
      ⟨⟨kind, children, start, before⟩, f.path ++ [f.entered], 0⟩
      ({ f with entered := f.entered + 1 } :: fs) start [] children
    rw [ofTree, notesOf, Note.map_within, List.map_cons, Note.within, List.append_nil]
    exact replay_cons (step_entering ⟨kind, children, start, before⟩ (f :: fs))
      (List.append_nil (List.map _ _) ▸ replay_append hchildren (replay_exit _ _))

theorem replay_ofTrees (f : OpenNode) (fs : List OpenNode) (start : Nat) (before : List Tree) :
    ∀ ts : List Tree, ∃ k, replay (f :: fs) (ofTrees start before ts)
      = some ({ f with entered := f.entered + k } :: fs,
        (allNotesOf f.entered start before ts).map (.within f.path))
  | [] => ⟨0, rfl⟩
  | t :: ts => by
    obtain ⟨k, hrest⟩ := replay_ofTrees { f with entered := f.entered + nodeCount t } fs
      (start + t.width) (t :: before) ts
    refine ⟨nodeCount t + k, ?_⟩
    rw [ofTrees, allNotesOf, List.map_append, ← Nat.add_assoc]
    exact replay_append (replay_ofTree f fs start before t) hrest

end

/-- What is told of a node and everything below it. -/
def transcript (n : Located) : List Note := .node [] n :: allNotesOf 0 n.start [] n.children

theorem notesOf_node (i start : Nat) (before children : List Tree) (kind : NodeKind) :
    notesOf i start before (.node kind children)
      = (transcript ⟨kind, children, start, before⟩).map (.within [i]) := by
  rw [notesOf, transcript]

/-- A walk nests. -/
theorem replay_walk (n : Located) : replay [] n.walk = some ([], transcript n) := by
  obtain ⟨k, hchildren⟩ := replay_ofTrees ⟨n, [], 0⟩ [] n.start [] n.children
  have hwithin : (allNotesOf 0 n.start [] n.children).map (.within [])
      = allNotesOf 0 n.start [] n.children :=
    List.map_id'' (fun note => by cases note <;> rfl) _
  rw [hwithin] at hchildren
  have hall := replay_cons (step_entering n []) (replay_append hchildren (replay_exit _ _))
  rwa [List.append_nil] at hall

/-! ### The nodes told -/

theorem nodesTold_append (as bs : List Note) :
    nodesTold (as ++ bs) = nodesTold as ++ nodesTold bs :=
  List.filterMap_append

theorem nodesTold_within (path : List Nat) (notes : List Note) :
    nodesTold (notes.map (.within path)) = (nodesTold notes).map fun p => (path ++ p.1, p.2) := by
  rw [nodesTold, nodesTold, List.filterMap_map, List.map_filterMap]
  congr 1
  funext note
  cases note <;> rfl

theorem nodesTold_token (i start : Nat) (before : List Tree) (kind : TokenKind) (text : String) :
    nodesTold (notesOf i start before (.token kind text)) = [] := by
  rw [notesOf]
  split <;> rfl

/-- The nodes told below a node are those told of its children, each with its number. -/
theorem nodesTold_allNotesOf (i start : Nat) (before ts : List Tree) :
    nodesTold (allNotesOf i start before ts)
      = ((Located.nodesIn start before ts).zipIdx i).flatMap fun c =>
        (nodesTold (transcript c.1)).map fun p => (c.2 :: p.1, p.2) := by
  induction ts generalizing i start before with
  | nil => rfl
  | cons t ts ih =>
    rw [allNotesOf, nodesTold_append, ih]
    cases t with
    | token kind text =>
      rw [nodesTold_token]
      rfl
    | node kind children =>
      rw [notesOf_node, nodesTold_within]
      rfl

theorem mem_nodesTold_allNotesOf {i start : Nat} {before ts : List Tree} {path : List Nat}
    {m : Located} : (path, m) ∈ nodesTold (allNotesOf i start before ts)
      ↔ ∃ j c rest, path = (i + j) :: rest ∧ (Located.nodesIn start before ts)[j]? = some c ∧
        (rest, m) ∈ nodesTold (transcript c) := by
  rw [nodesTold_allNotesOf, List.mem_flatMap]
  constructor
  · rintro ⟨⟨c, k⟩, hc, hm⟩
    obtain ⟨hle, hc⟩ := List.mk_mem_zipIdx_iff_le_and_getElem?_sub.mp hc
    obtain ⟨⟨rest, m⟩, hrest, heq⟩ := List.mem_map.mp hm
    obtain ⟨rfl, rfl⟩ := Prod.mk.injEq .. ▸ heq
    exact ⟨k - i, c, rest, by rw [Nat.add_sub_cancel' hle], hc, hrest⟩
  · rintro ⟨j, c, rest, rfl, hc, hrest⟩
    refine ⟨(c, i + j), List.mk_mem_zipIdx_iff_le_and_getElem?_sub.mpr ?_, ?_⟩
    · exact ⟨Nat.le_add_right i j, by rw [Nat.add_sub_cancel_left, hc]⟩
    · exact List.mem_map.mpr ⟨(rest, m), hrest, rfl⟩

/-- The nodes told are those that the paths lead to. -/
theorem mem_nodesTold_transcript {n m : Located} {path : List Nat} :
    (path, m) ∈ nodesTold (transcript n) ↔ n.follow? path = some m := by
  have hsplit : nodesTold (transcript n)
      = ([], n) :: nodesTold (allNotesOf 0 n.start [] n.children) := rfl
  induction path generalizing n with
  | nil =>
    rw [hsplit, List.mem_cons, mem_nodesTold_allNotesOf, Located.follow?]
    simp [eq_comm]
  | cons i path ih =>
    rw [hsplit, List.mem_cons, mem_nodesTold_allNotesOf, Located.follow?, Option.bind_eq_some_iff]
    constructor
    · rintro (h | ⟨j, c, rest, heq, hc, hrest⟩)
      · simp at h
      · obtain ⟨rfl, rfl⟩ := List.cons.inj heq
        rw [Nat.zero_add]
        exact ⟨c, hc, (ih rfl).mp hrest⟩
    · rintro ⟨c, hc, hrest⟩
      exact .inr ⟨i, c, path, by rw [Nat.zero_add], hc, (ih rfl).mpr hrest⟩

/-- Below a node no path is told twice, if none is below its children. -/
theorem nodup_allNotesOf {i start : Nat} {before ts : List Tree}
    (h : ∀ c ∈ Located.nodesIn start before ts, ((nodesTold (transcript c)).map Prod.fst).Nodup) :
    ((nodesTold (allNotesOf i start before ts)).map Prod.fst).Nodup := by
  induction ts generalizing i start before with
  | nil => exact List.nodup_nil
  | cons t ts ih =>
    rw [allNotesOf, nodesTold_append, List.map_append]
    cases t with
    | token kind text =>
      rw [nodesTold_token]
      exact ih h
    | node kind children =>
      rw [notesOf_node, nodesTold_within, List.map_map]
      refine List.nodup_append.mpr
        ⟨?_, ih fun c hc => h c (List.mem_cons_of_mem _ hc), fun path hpath other hother => ?_⟩
      · have hpaths := List.Nodup.map (List.append_right_injective [i]) (h _ List.mem_cons_self)
        rwa [List.map_map] at hpaths
      · -- The paths through this child begin with its number, those through later ones do not.
        obtain ⟨⟨rest, m⟩, -, rfl⟩ := List.mem_map.mp hpath
        obtain ⟨⟨path, m⟩, hm, rfl⟩ := List.mem_map.mp hother
        obtain ⟨j, -, -, rfl, -⟩ := mem_nodesTold_allNotesOf.mp hm
        rintro heq
        have hhead := (List.cons.inj heq).1
        rw [nodeCount] at hhead
        omega

theorem nodup_transcript (n : Located) : ((nodesTold (transcript n)).map Prod.fst).Nodup := by
  have hbelow : ((nodesTold (allNotesOf 0 n.start [] n.children)).map Prod.fst).Nodup :=
    nodup_allNotesOf fun c hc =>
      have := Located.sizeOf_children_lt hc
      nodup_transcript c
  refine List.nodup_cons.mpr ⟨fun hmem => ?_, hbelow⟩
  obtain ⟨⟨path, m⟩, hm, heq⟩ := List.mem_map.mp hmem
  obtain ⟨j, -, rest, rfl, -⟩ := mem_nodesTold_allNotesOf.mp hm
  exact List.cons_ne_nil _ _ heq
termination_by sizeOf n.children

/-! ### The tokens told -/

/-- The tokens that the grammar or the lexer has something to say about. -/
def significant (tokens : List (TokenKind × String)) : List (TokenKind × String) :=
  tokens.filter (!·.1.isTrivia)

theorem tokensTold_append (path : List Nat) (as bs : List Note) :
    tokensTold path (as ++ bs) = tokensTold path as ++ tokensTold path bs :=
  List.filterMap_append

theorem tokensTold_within_self (i : Nat) (path : List Nat) (notes : List Note) :
    tokensTold (i :: path) (notes.map (.within [i])) = tokensTold path notes := by
  rw [tokensTold, tokensTold, List.filterMap_map]
  congr 1
  funext note
  cases note <;> simp [Note.within]

theorem tokensTold_within_of_ne {i : Nat} {path : List Nat} (h : path.head? ≠ some i)
    (notes : List Note) : tokensTold path (notes.map (.within [i])) = [] := by
  rw [tokensTold, List.filterMap_map, List.filterMap_eq_nil_iff]
  intro note _
  cases note with
  | node => rfl
  | token p kind text =>
    refine if_neg fun heq => h ?_
    rw [← heq]
    rfl

theorem tokensTold_nil_token (i start : Nat) (before : List Tree) (kind : TokenKind)
    (text : String) :
    tokensTold [] (notesOf i start before (.token kind text)) = significant [(kind, text)] := by
  rw [notesOf]
  cases h : kind.isTrivia <;> simp [tokensTold, significant, h]

theorem tokensTold_cons_token (i start j : Nat) (path : List Nat) (before : List Tree)
    (kind : TokenKind) (text : String) :
    tokensTold (j :: path) (notesOf i start before (.token kind text)) = [] := by
  rw [notesOf]
  split <;> simp [tokensTold]

/-- The tokens directly in a list of trees. -/
def tokensIn (ts : List Tree) : List (TokenKind × String) :=
  ts.filterMap fun
    | .token kind text => some (kind, text)
    | .node .. => none

/-- Directly below a node its significant tokens are told. -/
theorem tokensTold_nil_allNotesOf (i start : Nat) (before ts : List Tree) :
    tokensTold [] (allNotesOf i start before ts) = significant (tokensIn ts) := by
  induction ts generalizing i start before with
  | nil => rfl
  | cons t ts ih =>
    rw [allNotesOf, tokensTold_append, ih]
    cases t with
    | token kind text =>
      rw [tokensTold_nil_token, significant, significant, ← List.filter_append]
      rfl
    | node kind children =>
      rw [notesOf_node, tokensTold_within_of_ne (by simp)]
      rfl

/-- Nothing is told below children that have been entered before. -/
theorem tokensTold_of_lt {i j : Nat} (h : j < i) (start : Nat) (path : List Nat)
    (before ts : List Tree) : tokensTold (j :: path) (allNotesOf i start before ts) = [] := by
  induction ts generalizing i start before with
  | nil => rfl
  | cons t ts ih =>
    rw [allNotesOf, tokensTold_append, ih (Nat.lt_add_right _ h), List.append_nil]
    cases t with
    | token kind text => exact tokensTold_cons_token ..
    | node kind children =>
      rw [notesOf_node]
      exact tokensTold_within_of_ne (by simpa using Nat.ne_of_lt h) _

/-- Further below, the tokens told are those told below the child. -/
theorem tokensTold_cons_allNotesOf (i start j : Nat) (path : List Nat) (before ts : List Tree) :
    tokensTold ((i + j) :: path) (allNotesOf i start before ts)
      = ((Located.nodesIn start before ts)[j]?.map fun c =>
        tokensTold path (transcript c)).getD [] := by
  induction ts generalizing i start before j with
  | nil => rfl
  | cons t ts ih =>
    rw [allNotesOf, tokensTold_append]
    cases t with
    | token kind text =>
      rw [tokensTold_cons_token, List.nil_append, Located.nodesIn]
      exact ih ..
    | node kind children =>
      rw [notesOf_node, Located.nodesIn, nodeCount]
      cases j with
      | zero =>
        rw [Nat.add_zero, tokensTold_within_self, tokensTold_of_lt (Nat.lt_succ_self i),
          List.append_nil]
        rfl
      | succ j =>
        rw [tokensTold_within_of_ne (by simp), List.nil_append, ← Nat.add_assoc,
          Nat.add_right_comm, ih]
        rfl

/-- The tokens told directly below a node are its significant tokens. -/
theorem tokensTold_transcript (n : Located) (path : List Nat) :
    tokensTold path (transcript n)
      = ((n.follow? path).map fun m => significant m.childTokens).getD [] := by
  have hbelow : tokensTold path (transcript n)
      = tokensTold path (allNotesOf 0 n.start [] n.children) := rfl
  rw [hbelow]
  induction path generalizing n with
  | nil => exact tokensTold_nil_allNotesOf ..
  | cons i path ih =>
    have hcons := tokensTold_cons_allNotesOf 0 n.start i path [] n.children
    rw [Nat.zero_add] at hcons
    rw [hcons, Located.follow?, Located.childNodes]
    cases (Located.nodesIn n.start [] n.children)[i]? with
    | none => rfl
    | some c => exact ih c rfl

theorem tokens_entering (n : Located) (events : List WalkEvent) :
    tokens (entering n :: events) = tokens events := by
  rw [entering]
  split <;> rfl

mutual

/-- The tokens of a walk are the significant leaves. -/
theorem tokens_ofTree (start : Nat) (before : List Tree) :
    ∀ t : Tree, tokens (ofTree start before t) = significant t.leaves
  | .token kind text => by
    rw [ofTree, Tree.leaves]
    cases h : kind.isTrivia <;> simp [tokens, significant, h]
  | .node kind children => by
    rw [ofTree, tokens_entering, tokens, List.filterMap_append, ← tokens, tokens_ofTrees,
      Tree.leaves]
    exact List.append_nil _

theorem tokens_ofTrees (start : Nat) (before : List Tree) :
    ∀ ts : List Tree, tokens (ofTrees start before ts) = significant (Tree.leavesAll ts)
  | [] => rfl
  | t :: ts => by
    rw [ofTrees, Tree.leavesAll, tokens, List.filterMap_append, significant, List.filter_append]
    exact congrArg₂ _ (tokens_ofTree start before t) (tokens_ofTrees _ _ ts)

end

/-- A walk over the tree of a text tells its significant tokens, invalid ones included. -/
theorem tokens_walk_root (config : ParseConfig) (entry : Entry) (text : String) :
    ∃ root, Located.root? (Parse.ofText config entry text).tree = some root ∧
      tokens root.walk = (significantTokens text).map Token.toPair := by
  have hleaves := Parse.leaves_ofTokens config entry (tokenize text)
  obtain ⟨kind, children, htree⟩ : ∃ kind children,
      (Parse.ofTokens config entry (tokenize text)).tree = .node kind children :=
    ⟨_, _, Parse.tree_ofTokens config entry (tokenize text)⟩
  refine ⟨⟨kind, children, 0, []⟩, congrArg Located.root? htree, ?_⟩
  rw [htree] at hleaves
  refine (tokens_ofTree 0 [] (.node kind children)).trans ?_
  rw [hleaves, significant, List.filter_map]
  rfl

/-- A walk tells the whole source once, well nested. Over the tree of a text its tokens are the
significant ones of the text. From any node, its events nest, every node that can be reached is
entered once and as what it is, and directly below each node its significant tokens are told. -/
theorem walk_nests :
    (∀ (config : ParseConfig) (entry : Entry) (text : String), ∃ root,
      Located.root? (Parse.ofText config entry text).tree = some root ∧
      tokens root.walk = (significantTokens text).map Token.toPair) ∧
    ∀ n : Located, ∃ notes, replay [] n.walk = some ([], notes) ∧
      ((nodesTold notes).map Prod.fst).Nodup ∧
      (∀ path m, (path, m) ∈ nodesTold notes ↔ n.follow? path = some m) ∧
      ∀ path, tokensTold path notes
        = ((n.follow? path).map fun m => significant m.childTokens).getD [] :=
  ⟨tokens_walk_root, fun n => ⟨transcript n, replay_walk n, nodup_transcript n,
    fun _ _ => mem_nodesTold_transcript, tokensTold_transcript n⟩⟩

end WalkEvent
end RelLang
