import Mathlib.Algebra.Ring.Nat
import RelLang.Proofs.Tree.Bare
import RelLang.View.Located

/-!
# What holds at every node

A property of nodes may look at the kind of a node, at its children, and at the
tokens behind the node in the whole tree. If it holds everywhere in a tree, it holds
of each node that is found in the tree, with the tokens that stand behind it there.
-/

namespace RelLang

namespace Tree

/-- The number of bytes of some tokens. -/
def bytes (ls : List (TokenKind × String)) : Nat := (ls.map (·.2.utf8ByteSize)).sum

@[simp] theorem bytes_append (ls ms : List (TokenKind × String)) :
    bytes (ls ++ ms) = bytes ls + bytes ms := by
  simp [bytes]

mutual

theorem width_eq : (t : Tree) → t.width = bytes t.leaves
  | .token _ _ => by simp [width, leaves, bytes]
  | .node _ children => by rw [width, leaves, widths_eq children]

theorem widths_eq : (ts : List Tree) → widths ts = bytes (leavesAll ts)
  | [] => rfl
  | t :: ts => by rw [widths, leavesAll, bytes_append, width_eq t, widths_eq ts]

end

mutual

/-- The property holds of all nodes of a tree, given the tokens behind the tree. -/
def Everywhere (P : NodeKind → List Tree → List (TokenKind × String) → Prop) :
    Tree → List (TokenKind × String) → Prop
  | .token _ _, _ => True
  | .node kind children, behind => P kind children behind ∧ EverywhereAll P children behind

/-- The property holds of all nodes of a list of trees, given the tokens behind the list. -/
def EverywhereAll (P : NodeKind → List Tree → List (TokenKind × String) → Prop) :
    List Tree → List (TokenKind × String) → Prop
  | [], _ => True
  | t :: ts, behind => t.Everywhere P (leavesAll ts ++ behind) ∧ EverywhereAll P ts behind

end

variable {P : NodeKind → List Tree → List (TokenKind × String) → Prop}

theorem everywhere_node {kind : NodeKind} {children : List Tree}
    {behind : List (TokenKind × String)} : (node kind children).Everywhere P behind
      ↔ P kind children behind ∧ EverywhereAll P children behind :=
  Iff.rfl

theorem everywhereAll_append (ts us : List Tree) (behind : List (TokenKind × String)) :
    EverywhereAll P (ts ++ us) behind
      ↔ EverywhereAll P ts (leavesAll us ++ behind) ∧ EverywhereAll P us behind := by
  induction ts with
  | nil => simp [EverywhereAll]
  | cons t ts ih =>
    simp only [List.cons_append, EverywhereAll, leavesAll_append, ih, List.append_assoc, and_assoc]

variable {Q : NodeKind → List Tree → List (TokenKind × String) → Prop}

mutual

theorem Everywhere.mono (h : ∀ kind children behind, P kind children behind →
    Q kind children behind) : (t : Tree) → {behind : List (TokenKind × String)} →
    t.Everywhere P behind → t.Everywhere Q behind
  | .token _ _, _, ht => ht
  | .node _ children, _, ht => ⟨h _ _ _ ht.1, EverywhereAll.mono h children ht.2⟩

theorem EverywhereAll.mono (h : ∀ kind children behind, P kind children behind →
    Q kind children behind) : (ts : List Tree) → {behind : List (TokenKind × String)} →
    EverywhereAll P ts behind → EverywhereAll Q ts behind
  | [], _, hts => hts
  | t :: ts, _, hts => ⟨Everywhere.mono h t hts.1, EverywhereAll.mono h ts hts.2⟩

end

mutual

/-- What holds at every node of a tree without trivia holds at every node of the tree, of its
children without trivia; the tokens behind do not count. -/
theorem everywhere_of_bare {R : NodeKind → List Tree → Prop} : (t : Tree) →
    {behind behind' : List (TokenKind × String)} →
    t.bare.Everywhere (fun kind ts _ => R kind ts) behind →
    t.Everywhere (fun kind ts _ => R kind (bareAll ts)) behind'
  | .token _ _, _, _, _ => trivial
  | .node _ children, _, _, h => ⟨h.1, everywhereAll_of_bareAll children h.2⟩

theorem everywhereAll_of_bareAll {R : NodeKind → List Tree → Prop} : (ts : List Tree) →
    {behind behind' : List (TokenKind × String)} →
    EverywhereAll (fun kind us _ => R kind us) (bareAll ts) behind →
    EverywhereAll (fun kind us _ => R kind (bareAll us)) ts behind'
  | [], _, _, _ => trivial
  | t :: ts, _, _, h => by
    rw [bareAll] at h
    split at h
    · next htrivia =>
      cases t with
      | token => exact ⟨trivial, everywhereAll_of_bareAll ts h⟩
      | node => cases htrivia
    · exact ⟨everywhere_of_bare t h.1, everywhereAll_of_bareAll ts h.2⟩

end

/-- One property holds of the tree itself, and another of all nodes below it, given the tokens
behind the tree. -/
def Atop (Q P : NodeKind → List Tree → List (TokenKind × String) → Prop) :
    Tree → List (TokenKind × String) → Prop
  | .token _ _, _ => True
  | .node kind children, behind => Q kind children behind ∧ EverywhereAll P children behind

/-- One property holds of the trees of a list, and another of all nodes below them. -/
def AtopAll (Q P : NodeKind → List Tree → List (TokenKind × String) → Prop) :
    List Tree → List (TokenKind × String) → Prop
  | [], _ => True
  | t :: ts, behind => t.Atop Q P (leavesAll ts ++ behind) ∧ AtopAll Q P ts behind

theorem atopAll_append (ts us : List Tree) (behind : List (TokenKind × String)) :
    AtopAll Q P (ts ++ us) behind
      ↔ AtopAll Q P ts (leavesAll us ++ behind) ∧ AtopAll Q P us behind := by
  induction ts with
  | nil => simp [AtopAll]
  | cons t ts ih =>
    simp only [List.cons_append, AtopAll, leavesAll_append, ih, List.append_assoc, and_assoc]

theorem AtopAll.mono {Q' P' : NodeKind → List Tree → List (TokenKind × String) → Prop}
    (hQ : ∀ kind children behind, Q kind children behind → Q' kind children behind)
    (hP : ∀ kind children behind, P kind children behind → P' kind children behind)
    {ts : List Tree} {behind : List (TokenKind × String)} (h : AtopAll Q P ts behind) :
    AtopAll Q' P' ts behind := by
  induction ts with
  | nil => trivial
  | cons t ts ih =>
    refine ⟨?_, ih h.2⟩
    cases t with
    | token kind text => trivial
    | node kind children => exact ⟨hQ _ _ _ h.1.1, EverywhereAll.mono hP _ h.1.2⟩

theorem EverywhereAll.atopAll
    (hQ : ∀ kind children behind, P kind children behind → Q kind children behind)
    {ts : List Tree} {behind : List (TokenKind × String)} (h : EverywhereAll P ts behind) :
    AtopAll Q P ts behind := by
  induction ts with
  | nil => trivial
  | cons t ts ih =>
    refine ⟨?_, ih h.2⟩
    cases t with
    | token kind text => trivial
    | node kind children => exact ⟨hQ _ _ _ h.1.1, h.1.2⟩

end Tree

namespace Located

variable {P : NodeKind → List Tree → List (TokenKind × String) → Prop}

mutual

/-- A node of a tree stands between tokens, and the property holds of it there. -/
theorem everywhere_of_mem_nodesOf : (t : Tree) → {start : Nat} → {before : List Tree} →
    {behind : List (TokenKind × String)} → {n : Located} →
    t.Everywhere P behind → n ∈ nodesOf start before t →
    ∃ front back, t.leaves ++ behind = front ++ n.tree.leaves ++ back ∧
      n.start = start + Tree.bytes front ∧ P n.kind n.children back
  | .token _ _, _, _, _, _, _, hn => by cases hn
  | .node kind children, start, before, behind, n, ht, hn => by
    obtain rfl | hn := List.mem_cons.mp hn
    · exact ⟨[], behind, rfl, rfl, ht.1⟩
    · exact everywhere_of_mem_allNodesOf children ht.2 hn

theorem everywhere_of_mem_allNodesOf : (ts : List Tree) → {start : Nat} → {before : List Tree} →
    {behind : List (TokenKind × String)} → {n : Located} →
    Tree.EverywhereAll P ts behind → n ∈ allNodesOf start before ts →
    ∃ front back, Tree.leavesAll ts ++ behind = front ++ n.tree.leaves ++ back ∧
      n.start = start + Tree.bytes front ∧ P n.kind n.children back
  | [], _, _, _, _, _, hn => by cases hn
  | t :: ts, start, before, behind, n, hts, hn => by
    obtain hn | hn := List.mem_append.mp hn
    · obtain ⟨front, back, hleaves, hstart, hP⟩ := everywhere_of_mem_nodesOf t hts.1 hn
      refine ⟨front, back, ?_, hstart, hP⟩
      rw [Tree.leavesAll, List.append_assoc, hleaves]
    · obtain ⟨front, back, hleaves, hstart, hP⟩ := everywhere_of_mem_allNodesOf ts hts.2 hn
      refine ⟨t.leaves ++ front, back, ?_, ?_, hP⟩
      · rw [Tree.leavesAll, List.append_assoc, hleaves]
        simp only [List.append_assoc]
      · rw [hstart, Tree.width_eq, Tree.bytes_append, Nat.add_assoc]

end

/-- A node in a list of trees is one of the trees or below one of them, and has the property of
such nodes there. -/
theorem atop_of_mem_allNodesOf {Q : NodeKind → List Tree → List (TokenKind × String) → Prop}
    {ts : List Tree} {start : Nat} {before : List Tree} {behind : List (TokenKind × String)}
    {n : Located} (hts : Tree.AtopAll Q P ts behind) (hn : n ∈ allNodesOf start before ts) :
    ∃ front back, Tree.leavesAll ts ++ behind = front ++ n.tree.leaves ++ back ∧
      n.start = start + Tree.bytes front ∧
      (P n.kind n.children back ∨ n ∈ nodesIn start before ts ∧ Q n.kind n.children back) := by
  induction ts generalizing start before with
  | nil => cases hn
  | cons t ts ih =>
    rcases List.mem_append.mp hn with hn | hn
    · cases t with
      | token kind text => cases hn
      | node kind children =>
        rcases List.mem_cons.mp hn with rfl | hn
        · refine ⟨[], Tree.leavesAll ts ++ behind, ?_, rfl, .inr ⟨List.mem_cons_self, hts.1.1⟩⟩
          rw [Tree.leavesAll, List.append_assoc]
          rfl
        · obtain ⟨front, back, hleaves, hstart, hP⟩ :=
            everywhere_of_mem_allNodesOf children hts.1.2 hn
          refine ⟨front, back, ?_, hstart, .inl hP⟩
          rw [Tree.leavesAll, List.append_assoc, Tree.leaves, hleaves]
    · obtain ⟨front, back, hleaves, hstart, hheld⟩ := ih hts.2 hn
      refine ⟨t.leaves ++ front, back, ?_, ?_, hheld.imp_right fun h => ⟨?_, h.2⟩⟩
      · rw [Tree.leavesAll, List.append_assoc, hleaves]
        simp only [List.append_assoc]
      · rw [hstart, Tree.width_eq, Tree.bytes_append, Nat.add_assoc]
      · cases t with
        | token kind text => exact h.1
        | node kind children => exact List.mem_cons_of_mem _ h.1

/-! ### Nodes below nodes -/

/-- What stands in front of a node in a list: trees of the list, and what is in front of them. -/
theorem exists_before_of_mem_nodesIn {start : Nat} {before ts : List Tree} {n : Located}
    (h : n ∈ nodesIn start before ts) :
    ∃ us vs, ts = us ++ n.tree :: vs ∧ n.before = us.reverse ++ before ∧
      n.start = start + Tree.bytes (Tree.leavesAll us) := by
  induction ts generalizing start before with
  | nil => cases h
  | cons t ts ih =>
    have hlater (h : n ∈ nodesIn (start + t.width) (t :: before) ts) :
        ∃ us vs, t :: ts = us ++ n.tree :: vs ∧ n.before = us.reverse ++ before ∧
          n.start = start + Tree.bytes (Tree.leavesAll us) := by
      obtain ⟨us, vs, rfl, hbefore, hstart⟩ := ih h
      refine ⟨t :: us, vs, rfl, by rw [hbefore]; simp, ?_⟩
      rw [hstart, Tree.leavesAll, Tree.bytes_append, Tree.width_eq, Nat.add_assoc]
    cases t with
    | token kind text => exact hlater h
    | node kind children =>
      obtain rfl | h := List.mem_cons.mp h
      · exact ⟨[], ts, rfl, rfl, rfl⟩
      · exact hlater h

theorem mem_allNodesOf_of_mem_nodesIn {start : Nat} {before ts : List Tree} {m : Located}
    (h : m ∈ nodesIn start before ts) : m ∈ allNodesOf start before ts := by
  induction ts generalizing start before with
  | nil => cases h
  | cons t ts ih =>
    cases t with
    | token kind text => exact List.mem_append_right _ (ih h)
    | node kind children =>
      obtain rfl | h := List.mem_cons.mp h
      · exact List.mem_append_left _ List.mem_cons_self
      · exact List.mem_append_right _ (ih h)

mutual

theorem mem_nodesOf_of_mem_childNodes : (t : Tree) → {start : Nat} → {before : List Tree} →
    {n m : Located} → n ∈ nodesOf start before t → m ∈ n.childNodes → m ∈ nodesOf start before t
  | .token _ _, _, _, _, _, hn, _ => by cases hn
  | .node kind children, start, before, n, m, hn, hm => by
    obtain rfl | hn := List.mem_cons.mp hn
    · exact List.mem_cons_of_mem _ (mem_allNodesOf_of_mem_nodesIn hm)
    · exact List.mem_cons_of_mem _ (mem_allNodesOf_of_mem_childNodes children hn hm)

theorem mem_allNodesOf_of_mem_childNodes : (ts : List Tree) → {start : Nat} →
    {before : List Tree} → {n m : Located} → n ∈ allNodesOf start before ts →
    m ∈ n.childNodes → m ∈ allNodesOf start before ts
  | [], _, _, _, _, hn, _ => by cases hn
  | t :: ts, start, before, n, m, hn, hm => by
    obtain hn | hn := List.mem_append.mp hn
    · exact List.mem_append_left _ (mem_nodesOf_of_mem_childNodes t hn hm)
    · exact List.mem_append_right _ (mem_allNodesOf_of_mem_childNodes ts hn hm)

end

/-- What is below a node below is below. -/
theorem mem_descendants_of_mem_childNodes {root n m : Located} (hn : n ∈ root.descendants)
    (hm : m ∈ n.childNodes) : m ∈ root.descendants :=
  mem_nodesOf_of_mem_childNodes root.tree hn hm

end Located
end RelLang
