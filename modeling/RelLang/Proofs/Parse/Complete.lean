import Mathlib
import RelLang.Proofs.Parse.Precedence
import RelLang.Proofs.Parse.Syntax
import RelLang.Proofs.View.Complete

/-!
# Accepted texts have no holes

The views of a tree yield what is missing in no well-formed text, if nothing is reported
about the text. The tree without trivia is derived from the form for the text, where
every node is whole, and trivia are parts of no node.
-/

namespace RelLang

namespace Tree

/-! ### Whole nodes with trivia -/

/-- A part of the bare children is one of the children. -/
theorem any_of_any_bareAll {p : Constituent} {ts : List Tree}
    (h : (bareAll ts).any p.isAt = true) : ts.any p.isAt = true := by
  induction ts with
  | nil => cases h
  | cons t ts ih =>
    rw [bareAll] at h
    rw [List.any_cons]
    split at h
    · rw [ih h, Bool.or_true]
    · rw [List.any_cons, Constituent.isAt_bare] at h
      obtain h | h := Bool.or_eq_true_iff.mp h
      · rw [h, Bool.true_or]
      · rw [ih h, Bool.or_true]

theorem exprCount_bareAll (ts : List Tree) : exprCount (bareAll ts) = exprCount ts := by
  induction ts with
  | nil => rfl
  | cons t ts ih =>
    rw [bareAll]
    cases t with
    | token k text =>
      split
      · exact ih
      · exact ih
    | node kind children =>
      have hnode : exprCount (.node kind (bareAll children) :: bareAll ts)
          = exprCount (bareAll ts) + if isOf .expr (.node kind children) then 1 else 0 :=
        List.countP_cons
      exact hnode.trans (by rw [ih]; exact List.countP_cons.symm)

theorem any_elseWord_bareAll {ts : List Tree}
    (h : ts.any Constituent.elseWord.isAt = true) :
    (bareAll ts).any Constituent.elseWord.isAt = true := by
  induction ts with
  | nil => cases h
  | cons t ts ih =>
    rw [List.any_cons] at h
    rw [bareAll]
    split
    · next htrivia =>
      obtain h | h := Bool.or_eq_true_iff.mp h
      · cases t with
        | token k text =>
          obtain rfl := List.mem_singleton.mp (List.contains_iff_mem.mp h)
          cases htrivia
        | node kind children => cases h
      · exact ih h
    · rw [List.any_cons, Constituent.isAt_bare]
      obtain h | h := Bool.or_eq_true_iff.mp h
      · rw [h, Bool.true_or]
      · rw [ih h, Bool.or_true]

theorem Whole.of_bareAll {kind : NodeKind} {ts : List Tree} (h : Whole kind (bareAll ts)) :
    Whole kind ts where
  parts p hp := any_of_any_bareAll (h.parts p hp)
  operands hform := exprCount_bareAll ts ▸ h.operands hform
  otherwise hform helse := exprCount_bareAll ts ▸ h.otherwise hform (any_elseWord_bareAll helse)

/-- All nodes of a tree are whole. -/
abbrev AllWhole (t : Tree) (rest : List (TokenKind × String)) : Prop :=
  t.Everywhere (fun kind ts _ => Whole kind ts) rest

/-- Nodes are whole with trivia if they are whole without. -/
theorem allWhole_of_bare (t : Tree) {rest rest' : List (TokenKind × String)}
    (h : t.bare.AllWhole rest) : t.AllWhole rest' :=
  Everywhere.mono (fun _ _ _ hwhole => hwhole.of_bareAll) t (everywhere_of_bare t h)

end Tree

namespace Parse

/-- The root of a tree is no more than its children. -/
theorem whole_root (entry : Entry) (ts : List Tree) : Tree.Whole entry.rootKind ts := by
  cases entry <;> exact ⟨nofun, nofun, nofun⟩

/-- Every text that is accepted, whatever the configuration, if reports are not dropped: each node
of its tree has what no node of its kind goes without, and the views find it. -/
theorem accepted_complete (config : ParseConfig) (hkeep : config.maxDiagnostics = none)
    (entry : Entry) (text : String) (hok : (ofText config entry text).ok = true) {root : Located}
    (hroot : Located.root? (ofText config entry text).tree = some root) {n : Located}
    (hn : n ∈ root.descendants) : n.Complete := by
  obtain ⟨ts, hbare, hts⟩ := derives_of_ok hkeep hok
  have hbelow : Tree.AllWhole (.node entry.rootKind ts) [] :=
    ⟨whole_root entry ts, Form.everywhere_of_derives hts (Form.whole_ofEntry entry) []⟩
  have htree : (ofText config entry text).tree.bare = .node entry.rootKind ts := hbare
  have hwhole : Tree.AllWhole (ofText config entry text).tree [] :=
    Tree.allWhole_of_bare _ (htree ▸ hbelow)
  obtain ⟨hroot, -⟩ := Located.of_root? hroot
  refine Located.complete_of_whole (fun m hm => ?_) hn
  obtain ⟨-, -, -, -, hm⟩ := Located.everywhere_of_mem_nodesOf root.tree (hroot ▸ hwhole) hm
  exact hm

/-- In `sig A { f: B }` the field has a name and a type. -/
theorem accepted_complete_field :
    ∃ root n : Located, (ofText {} .wholeModule "sig A { f: B }").ok = true ∧
      Located.root? (ofText {} .wholeModule "sig A { f: B }").tree = some root ∧
      n ∈ root.descendants ∧ n.kind = .fieldDecl ∧ n.Complete := by
  have hok : (ofText {} .wholeModule "sig A { f: B }").ok = true := by rw [ofText_eq]; rfl
  have htree : (ofText {} .wholeModule "sig A { f: B }").tree = .node .sourceFile
      [.node .sigDecl [.token (.keyword .sigKw) "sig", .token .whitespace " ",
        .node .nameList [.node .name [.token .ident "A"]], .token .whitespace " ",
        .node .fieldList [.token (.punct .lbrace) "\x7b", .token .whitespace " ",
          .node .fieldDecl [.node .nameList [.node .name [.token .ident "f"]],
            .token (.punct .colon) ":", .token .whitespace " ",
            .node .nameRef [.node .qualName [.token .ident "B"]]],
          .token .whitespace " ", .token (.punct .rbrace) "\x7d"]]] := by rw [ofText_eq]; rfl
  have hfield : ((Located.root? (ofText {} .wholeModule "sig A { f: B }").tree).map fun root =>
      root.descendants.any (·.kind == .fieldDecl)) = some true := by rw [htree]; rfl
  obtain ⟨root, hroot, hany⟩ := Option.map_eq_some_iff.mp hfield
  obtain ⟨n, hn, hkind⟩ := List.any_eq_true.mp hany
  exact ⟨root, n, hok, hroot, hn, eq_of_beq hkind,
    accepted_complete {} rfl .wholeModule "sig A { f: B }" hok hroot hn⟩

end Parse
end RelLang
