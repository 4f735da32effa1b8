import RelLang.Proofs.Parse.Context
import RelLang.Proofs.Parse.Sequence
import RelLang.Proofs.Syntax.Joined

/-!
# Modules concatenate

A module with the paragraphs of another one behind it, on a line of their own, is a module
with the paragraphs of both. One thing is between them: the label of a command is taken
for a part of the declaration in front of it if that ends with `run`, with `check`, or with
the number of a scope.
-/

namespace RelLang

open Grammar
open RelLang.Tree (kinds nodeKinds)

namespace Form

variable {n : Nat} {ts : List Tree}

/-- A module that has no evaluation. -/
theorem withoutEvals_of_nodeKinds (hts : sourceFile.Derives n ts [])
    (heval : .evalDecl ∉ nodeKinds ts) : withoutEvals.Derives n ts [] := by
  obtain ⟨header, rest, rfl, hheader, hrest⟩ := derives_row_cons.mp hts
  obtain ⟨imports, body, rfl, himports, hbody⟩ := derives_append.mp (derives_append_look.mp hrest).1
  refine derives_row_cons.mpr ⟨header, _, rfl, hheader, ?_⟩
  refine derives_append.mpr ⟨imports, body, rfl, himports, ?_⟩
  obtain hparagraphs | hevals := derives_either.mp hbody
  · exact hparagraphs
  · obtain ⟨first, later, rfl, hfirst, -⟩ := derives_append.mp hevals
    obtain ⟨parts, rfl, -⟩ := derives_node.mp hfirst
    refine absurd ?_ heval
    simp

/-- A module that has only paragraphs. -/
theorem paragraphs_of_nodeKinds (hts : withoutEvals.Derives n ts [])
    (hmodule : .moduleDecl ∉ nodeKinds ts) (himport : .importDecl ∉ nodeKinds ts) :
    (many paragraph).Derives n ts [] := by
  obtain ⟨header, rest, rfl, hheader, hrest⟩ := derives_row_cons.mp hts
  obtain ⟨imports, paragraphs, rfl, himports, hparagraphs⟩ := derives_append.mp hrest
  obtain rfl : header = [] := by
    rw [ifAhead, derives_given] at hheader
    split at hheader
    · obtain ⟨parts, rfl, -⟩ := derives_node.mp hheader
      exact absurd (by simp) hmodule
    · exact derives_nothing.mp hheader
  obtain rfl : imports = [] := by
    obtain hnil | ⟨first, later, rfl, hfirst, -⟩ := derives_many.mp himports
    · exact hnil
    · obtain ⟨parts, rfl, -⟩ := derives_node.mp hfirst
      exact absurd (by simp) himport
  exact hparagraphs

end Form

namespace Parse

open Lexer (Closed words)

/-- The kinds of the declarations, if a module has been read. -/
def declarationKinds (p : Parse) : List NodeKind :=
  ((Located.root? p.tree).map fun root => root.childNodes.map (·.kind)).getD []

theorem declarationKinds_of_bare {p : Parse} {ts : List Tree}
    (h : p.tree.bare = .node .sourceFile ts) : p.declarationKinds = nodeKinds ts := by
  unfold declarationKinds
  cases htree : p.tree with
  | token kind text =>
    rw [htree] at h
    cases h
  | node kind children =>
    rw [htree, Tree.bare] at h
    obtain ⟨rfl, rfl⟩ := Tree.node.inj h
    rw [Tree.nodeKinds_bareAll, ← Located.map_kind_nodesIn 0 []]
    rfl

/-- What is known of a text that is accepted as a module. -/
structure AsModule (A : String) (ts : List Tree) : Prop where
  closed : Closed A
  bare : (ofText {} .wholeModule A).tree.bare = .node .sourceFile ts
  derives : Form.sourceFile.Derives nestingLimit ts []
  leaves : Tree.leavesAll ts = words A.toList

theorem asModule_of_ok {A : String} (hok : (ofText {} .wholeModule A).ok = true) :
    ∃ ts, AsModule A ts := by
  obtain ⟨ts, htree, hts⟩ := derives_of_ok rfl hok
  exact ⟨ts, Lexer.ne_invalid_of_tokenize (whole_of_ok rfl hok), htree, hts,
    (leaves_of_bare htree).trans (map_toPair_significantTokens A)⟩

theorem AsModule.kinds_eq {A : String} {ts : List Tree} (h : AsModule A ts) :
    kinds ts = kindsOf A := by
  rw [kindsOf_eq, ← h.leaves]
  rfl

/-- Modules concatenate: the second has paragraphs and nothing else, and there is no evaluation in
the first. If a label is what the second begins with, the first does not end with what would take
it for its own. -/
theorem modules_concatenate {A B : String} (hA : (ofText {} .wholeModule A).ok = true)
    (hB : (ofText {} .wholeModule B).ok = true)
    (heval : .evalDecl ∉ (ofText {} .wholeModule A).declarationKinds)
    (honly : ∀ kind ∈ [.moduleDecl, .importDecl, .evalDecl],
      kind ∉ (ofText {} .wholeModule B).declarationKinds)
    (hlabel : Form.at? .ident (kindsOf B) = true → ¬ Form.TakesName (kindsOf A)) :
    let p := ofText {} .wholeModule (A ++ "\n" ++ B)
    p.ok = true ∧ p.paragraphs.map View.bare
      = (ofText {} .wholeModule A).paragraphs.map View.bare
        ++ (ofText {} .wholeModule B).paragraphs.map View.bare := by
  intro p
  obtain ⟨ts, hfirst⟩ := asModule_of_ok hA
  obtain ⟨us, hsecond⟩ := asModule_of_ok hB
  rw [declarationKinds_of_bare hfirst.bare] at heval
  rw [declarationKinds_of_bare hsecond.bare] at honly
  rw [← hfirst.kinds_eq, ← hsecond.kinds_eq] at hlabel
  have hdeclarations := Form.withoutEvals_of_nodeKinds hfirst.derives heval
  have hparagraphs : (Form.many Form.paragraph).Derives nestingLimit us [] :=
    Form.paragraphs_of_nodeKinds
      (Form.withoutEvals_of_nodeKinds hsecond.derives (honly _ (by simp)))
      (honly _ (by simp)) (honly _ (by simp))
  have hleaves : Tree.leavesAll (ts ++ us) = words (A ++ "\n" ++ B).toList := by
    have htext : (A ++ "\n" ++ B).toList = A.toList ++ '\n' :: B.toList := by simp
    rw [Tree.leavesAll_append, hfirst.leaves, hsecond.leaves, htext,
      Lexer.words_append_line hfirst.closed]
  have hvalid : ∀ w ∈ Tree.leavesAll (ts ++ us), w.1 ≠ .invalid := by
    intro w hw
    rw [Tree.leavesAll_append, hfirst.leaves, hsecond.leaves] at hw
    exact (List.mem_append.mp hw).elim (valid_of_closed hfirst.closed w)
      (valid_of_closed hsecond.closed w)
  have hjoined : (Form.ofEntry .wholeModule).Derives nestingLimit (ts ++ us) [] :=
    hdeclarations.joined hparagraphs hlabel
  obtain ⟨hok, hbare⟩ := ok_of_leaves ((map_toPair_significantTokens _).trans hleaves.symm) hvalid
    hjoined (.inl (Nat.le_refl _))
  refine ⟨hok, ?_⟩
  rw [map_bare_paragraphs hbare, map_bare_paragraphs hfirst.bare, map_bare_paragraphs hsecond.bare,
    List.filter_append]

/-- A label behind a scope, the number of which has a name behind it. -/
theorem modules_concatenate_label :
    ((ofText {} .wholeModule "module m\nrun p for 3 but 2 S").ok = true ∧
      (ofText {} .wholeModule "again: check \x7b\x7d").ok = true ∧
      .evalDecl ∉ (ofText {} .wholeModule "module m\nrun p for 3 but 2 S").declarationKinds ∧
      (∀ kind ∈ [.moduleDecl, .importDecl, .evalDecl],
        kind ∉ (ofText {} .wholeModule "again: check \x7b\x7d").declarationKinds) ∧
      (Form.at? .ident (kindsOf "again: check \x7b\x7d") = true →
        ¬ Form.TakesName (kindsOf "module m\nrun p for 3 but 2 S"))) ∧
    (let p := ofText {} .wholeModule
      ("module m\nrun p for 3 but 2 S" ++ "\n" ++ "again: check \x7b\x7d")
     p.ok = true ∧ p.paragraphs.map View.bare
       = (ofText {} .wholeModule "module m\nrun p for 3 but 2 S").paragraphs.map View.bare
         ++ (ofText {} .wholeModule "again: check \x7b\x7d").paragraphs.map View.bare) := by
  have hA : (ofText {} .wholeModule "module m\nrun p for 3 but 2 S").ok = true := by rw [ofText_eq]; rfl
  have hB : (ofText {} .wholeModule "again: check \x7b\x7d").ok = true := by rw [ofText_eq]; rfl
  have hAkinds : (ofText {} .wholeModule "module m\nrun p for 3 but 2 S").declarationKinds
      = [.moduleDecl, .cmdDecl] := by rw [ofText_eq]; rfl
  have hBkinds : (ofText {} .wholeModule "again: check \x7b\x7d").declarationKinds = [.cmdDecl] := by
    rw [ofText_eq]; rfl
  have heval : .evalDecl ∉ (ofText {} .wholeModule "module m\nrun p for 3 but 2 S").declarationKinds := by
    rw [hAkinds]; decide
  have honly : ∀ kind ∈ [.moduleDecl, .importDecl, .evalDecl],
      kind ∉ (ofText {} .wholeModule "again: check \x7b\x7d").declarationKinds := by
    rw [hBkinds]; decide
  have hend : kindsOf "module m\nrun p for 3 but 2 S" = [.keyword .moduleKw, .ident, .keyword .runKw,
      .ident, .keyword .forKw, .number, .keyword .butKw, .number, .ident] := by
    rw [kindsOf, significantTokens, tokenize_eq]; rfl
  have hlabel : Form.at? .ident (kindsOf "again: check \x7b\x7d") = true →
      ¬ Form.TakesName (kindsOf "module m\nrun p for 3 but 2 S") := by
    intro _
    rw [hend]
    decide
  exact ⟨⟨hA, hB, heval, honly, hlabel⟩, modules_concatenate hA hB heval honly hlabel⟩

/-- The label of the second command is taken for the name of a signature, with the number of the
first one's scope in front of it. -/
theorem label_taken_for_signature :
    (ofText {} .wholeModule "run p for 3").ok = true ∧
      (ofText {} .wholeModule "run p for 3").declarationKinds = [.cmdDecl] ∧
      (ofText {} .wholeModule "again: run q").ok = true ∧
      (ofText {} .wholeModule "again: run q").declarationKinds = [.cmdDecl] ∧
      (ofText {} .wholeModule ("run p for 3" ++ "\n" ++ "again: run q")).ok = false := by
  have hfirst : (ofText {} .wholeModule "run p for 3").ok = true := by rw [ofText_eq]; rfl
  have hfirstKinds : (ofText {} .wholeModule "run p for 3").declarationKinds = [.cmdDecl] := by
    rw [ofText_eq]; rfl
  have hsecond : (ofText {} .wholeModule "again: run q").ok = true := by rw [ofText_eq]; rfl
  have hsecondKinds : (ofText {} .wholeModule "again: run q").declarationKinds = [.cmdDecl] := by
    rw [ofText_eq]; rfl
  have hjoined : (ofText {} .wholeModule ("run p for 3" ++ "\n" ++ "again: run q")).ok = false := by
    rw [ofText_eq]; rfl
  exact ⟨hfirst, hfirstKinds, hsecond, hsecondKinds, hjoined⟩

end Parse
end RelLang
