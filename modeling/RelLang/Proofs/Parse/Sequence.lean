import Mathlib
import RelLang.Proofs.Grammar.Parts
import RelLang.Proofs.Parse.Syntax

/-!
# The declarations of accepted modules

A module that nothing is reported about has its declarations in the order of the
grammar: what is read of it has a form, and every form of a declaration stands for
one node. Only behind an evaluation imports and evaluations may alternate, as an
evaluation is not seen as a paragraph when an import is read.
-/

namespace RelLang

open Grammar

namespace Tree

/-- The kinds of the nodes among some trees. -/
def nodeKinds (ts : List Tree) : List NodeKind :=
  ts.filterMap fun
    | .node kind _ => some kind
    | .token .. => none

@[simp] theorem nodeKinds_append (ts us : List Tree) :
    nodeKinds (ts ++ us) = nodeKinds ts ++ nodeKinds us :=
  List.filterMap_append

@[simp] theorem nodeKinds_node_cons (kind : NodeKind) (children ts : List Tree) :
    nodeKinds (.node kind children :: ts) = kind :: nodeKinds ts := rfl

/-- Trivia are no nodes. -/
theorem nodeKinds_bareAll (ts : List Tree) : nodeKinds (bareAll ts) = nodeKinds ts := by
  induction ts with
  | nil => rfl
  | cons t ts ih =>
    cases t with
    | token kind text =>
      rw [bareAll]
      split
      · exact ih
      · exact ih
    | node kind children => exact congrArg (kind :: ·) ih

end Tree

theorem Located.map_kind_nodesIn (start : Nat) (before ts : List Tree) :
    (nodesIn start before ts).map (·.kind) = Tree.nodeKinds ts := by
  induction ts generalizing start before with
  | nil => rfl
  | cons t ts ih =>
    cases t with
    | token kind text => exact ih _ _
    | node kind children => exact congrArg (kind :: ·) (ih _ _)

/-- The kinds of the declarations of a module are in order: those in front of its body, and those
in the body. -/
structure NodeKind.InOrder (header imports body : List NodeKind) : Prop where
  header : header = [] ∨ header = [.moduleDecl]
  imports : ∀ kind ∈ imports, kind = .importDecl
  /-- Evaluations are not mixed with other paragraphs, and imports are behind none of these. -/
  body : (∀ kind ∈ body, kind.isPlainParagraph = true) ∨
    ∃ later, body = .evalDecl :: later ∧ ∀ kind ∈ later, kind = .importDecl ∨ kind = .evalDecl

namespace Form

open Tree (nodeKinds)

/-- All that the form derives is one node, of a kind that passes. -/
def IsNode (test : NodeKind → Prop) (f : Form) : Prop :=
  ∀ n ts behind, Derives n f ts behind → ∃ kind us, ts = [.node kind us] ∧ test kind

section IsNode

variable {test : NodeKind → Prop} {f g : Form} {n : Nat} {ts : List Tree}
  {behind : List TokenKind}

theorem isNode_node {kind : NodeKind} (h : test kind) : IsNode test (.node kind f) := by
  intro n ts behind hts
  obtain ⟨us, rfl, -⟩ := derives_node.mp hts
  exact ⟨kind, us, rfl, h⟩

theorem IsNode.either (hf : IsNode test f) (hg : IsNode test g) : IsNode test (.either f g) := by
  intro n ts behind hts
  obtain hts | hts := derives_either.mp hts
  · exact hf _ _ _ hts
  · exact hg _ _ _ hts

theorem isNode_anyOf {forms : List Form} (h : ∀ f ∈ forms, IsNode test f) :
    IsNode test (anyOf forms) := by
  intro n ts behind hts
  obtain ⟨f, hf, hts⟩ := derives_anyOf.mp hts
  exact h f hf _ _ _ hts

theorem IsNode.mono {test' : NodeKind → Prop} (hf : IsNode test f)
    (himp : ∀ kind, test kind → test' kind) : IsNode test' f := by
  intro n ts behind hts
  obtain ⟨kind, us, rfl, hkind⟩ := hf _ _ _ hts
  exact ⟨kind, us, rfl, himp kind hkind⟩

theorem IsNode.nodeKinds (hf : IsNode test f) (hts : Derives n f ts behind) :
    ∃ kind, nodeKinds ts = [kind] ∧ test kind := by
  obtain ⟨kind, us, rfl, hkind⟩ := hf _ _ _ hts
  exact ⟨kind, rfl, hkind⟩

/-- Nodes one behind the other. -/
theorem IsNode.many (hf : IsNode test f) (hts : Derives n (.many f) ts behind) :
    ∀ kind ∈ Tree.nodeKinds ts, test kind := by
  refine hts.many_induction (p := fun ts => ∀ kind ∈ Tree.nodeKinds ts, test kind) ?_ ?_
  · exact fun kind hkind => absurd hkind List.not_mem_nil
  · intro us vs hus ih
    obtain ⟨kind, us, rfl, hkind⟩ := hf _ _ _ hus
    exact List.forall_mem_cons.mpr ⟨hkind, ih⟩

end IsNode

/-- Every paragraph but an evaluation is one node, of a kind of its own. -/
theorem isNode_paragraph : IsNode (·.isPlainParagraph = true) paragraph := by
  intro n ts behind hts
  have hahead := derives_ahead.mp hts
  split at hahead
  · next start _ =>
    have htagged : ∀ form : AssertionForm, form.node.isPlainParagraph = true := by
      intro form
      cases form <;> rfl
    refine (?_ : IsNode (·.isPlainParagraph = true) (ofParagraph start)) _ _ _ hahead
    cases start with
    | assertion =>
      refine IsNode.either (isNode_anyOf fun f hf => ?_) (isNode_node rfl)
      simp only [List.mem_cons, List.not_mem_nil, or_false] at hf
      obtain rfl | rfl | rfl | rfl := hf
      all_goals exact isNode_node (htagged _)
    | _ => exact isNode_node rfl
  · exact absurd hahead not_derives_never

variable {n : Nat} {ts : List Tree}

/-- The declarations of a module behind its header: imports, and then paragraphs. -/
theorem nodeKinds_declarations {behind : List TokenKind}
    (hts : (declarations {}).Derives n ts behind) :
    ∃ imports body, nodeKinds ts = imports ++ body ∧ NodeKind.InOrder [] imports body := by
  obtain ⟨us, vs, rfl, himports, hbody⟩ := derives_append.mp hts
  have himport : IsNode (· = .importDecl) importDecl := isNode_node rfl
  have heval : IsNode (· = .evalDecl) evalDecl := isNode_node rfl
  refine ⟨nodeKinds us, nodeKinds vs, Tree.nodeKinds_append us vs,
    .inl rfl, himport.many himports, ?_⟩
  obtain hparagraphs | hevals := derives_either.mp hbody
  · exact .inl (isNode_paragraph.many hparagraphs)
  · obtain ⟨xs, ys, rfl, hfirst, hlater⟩ := derives_append.mp hevals
    obtain ⟨kind, hkind, rfl⟩ := heval.nodeKinds hfirst
    have hmixed : IsNode (fun k => k = .importDecl ∨ k = .evalDecl)
        (.either importDecl evalDecl) :=
      (himport.mono fun _ => .inl).either (heval.mono fun _ => .inr)
    refine .inr ⟨nodeKinds ys, ?_, hmixed.many hlater⟩
    rw [Tree.nodeKinds_append, hkind, List.singleton_append]

theorem nodeKinds_sourceFile (hts : sourceFile.Derives n ts []) :
    ∃ header imports body, nodeKinds ts = header ++ imports ++ body ∧
      NodeKind.InOrder header imports body := by
  obtain ⟨us, vs, rfl, hheader, hrest⟩ := derives_row_cons.mp hts
  obtain ⟨imports, body, hkinds, horder⟩ := nodeKinds_declarations (derives_append_look.mp hrest).1
  refine ⟨nodeKinds us, imports, body, ?_, ?_, horder.imports, horder.body⟩
  · rw [Tree.nodeKinds_append, hkinds, List.append_assoc]
  · rw [ifAhead, derives_given] at hheader
    split at hheader
    · obtain ⟨children, rfl, -⟩ := derives_node.mp hheader
      exact .inr rfl
    · obtain rfl := derives_nothing.mp hheader
      exact .inl rfl

/-- A module whose first token begins none of the declarations that are no paragraphs, nor an
evaluation, has paragraphs and nothing else. -/
theorem paragraphs_of_first {kind : TokenKind}
    (hkind : kind ∉ [.keyword .moduleKw, .keyword .openKw, .keyword .evalKw])
    (hts : sourceFile.Derives n ts []) (hfirst : (Tree.kinds ts)[0]? = some kind) :
    (many paragraph).Derives n ts [] := by
  have hnone : ∀ {f : Form} {k : TokenKind} {us vs : List Tree} {behind : List TokenKind},
      k ∈ [.keyword .moduleKw, .keyword .openKw, .keyword .evalKw] → BeginsWith k f →
      Derives n f us behind → (Tree.kinds (us ++ vs))[0]? ≠ some kind := by
    intro f k us vs behind hk hbegins hus hkinds
    obtain ⟨k, ks, hkinds', rfl⟩ := hbegins _ _ _ hus
    rw [Tree.kinds_append, hkinds'] at hkinds
    exact hkind (Option.some.inj hkinds ▸ hk)
  obtain ⟨us, vs, rfl, hheader, hrest⟩ := derives_row_cons.mp hts
  rw [ifAhead, derives_given, List.append_nil, ← Tree.kinds_append] at hheader
  obtain rfl : us = [] := by
    split at hheader
    · have hmodule : BeginsWith (.keyword .moduleKw) moduleDecl :=
        ((beginsWith_token _).append _).node _
      exact absurd hfirst (hnone (by decide) hmodule hheader)
    · exact derives_nothing.mp hheader
  obtain ⟨hdeclarations, -⟩ := derives_append_look.mp hrest
  rw [List.nil_append] at hfirst ⊢
  obtain ⟨us, xs, rfl, himports, hbody⟩ := derives_append.mp hdeclarations
  obtain rfl : us = [] := by
    obtain hnil | ⟨us, us', rfl, himport, -⟩ := derives_many.mp himports
    · exact hnil
    · have hopen : BeginsWith (.keyword .openKw) importDecl :=
        ((beginsWith_token _).append _).node _
      rw [List.append_assoc] at hfirst
      exact absurd hfirst (hnone (by decide) hopen himport)
  obtain hparagraphs | hevals := derives_either.mp hbody
  · exact hparagraphs
  · have heval : BeginsWith (.keyword .evalKw)
        (evalDecl ++ many (either importDecl evalDecl)) :=
      (((beginsWith_token _).append _).node _).append _
    rw [List.nil_append, ← List.append_nil xs] at hfirst
    exact absurd hfirst (hnone (by decide) heval hevals)

end Form

namespace Parse

/-- Every module that is accepted, whatever the configuration, if reports are not dropped: at most
one module declaration, then imports, and then either paragraphs other than evaluations and nothing
else, or an evaluation with evaluations and imports behind it. -/
theorem accepted_order (config : ParseConfig) (hkeep : config.maxDiagnostics = none)
    (text : String) (hok : (ofText config .wholeModule text).ok = true) :
    ∃ root header imports body, Located.root? (ofText config .wholeModule text).tree = some root ∧
      root.kind = .sourceFile ∧ root.childNodes.map (·.kind) = header ++ imports ++ body ∧
      NodeKind.InOrder header imports body := by
  obtain ⟨ts, hbare, hts⟩ := derives_of_ok hkeep hok
  obtain ⟨header, imports, body, hkinds, horder⟩ := Form.nodeKinds_sourceFile hts
  have hroot : (ofText config .wholeModule text).tree.bare = .node .sourceFile ts := hbare
  cases htree : (ofText config .wholeModule text).tree with
  | token kind text =>
    rw [htree] at hroot
    cases hroot
  | node kind children =>
    rw [htree, Tree.bare] at hroot
    obtain ⟨rfl, rfl⟩ := Tree.node.inj hroot
    refine ⟨⟨.sourceFile, children, 0, []⟩, header, imports, body, rfl, rfl, ?_, horder⟩
    rw [Located.childNodes, Located.map_kind_nodesIn, ← Tree.nodeKinds_bareAll, hkinds]

/-- A header, an import and two paragraphs. -/
theorem accepted_order_paragraphs :
    (ofText {} .wholeModule "module m\nopen a\nsig A {}\nrun {}").ok = true ∧
    ∃ root header imports body,
      Located.root? (ofText {} .wholeModule "module m\nopen a\nsig A {}\nrun {}").tree = some root ∧
      root.kind = .sourceFile ∧ root.childNodes.map (·.kind) = header ++ imports ++ body ∧
      NodeKind.InOrder header imports body := by
  have hok : (ofText {} .wholeModule "module m\nopen a\nsig A {}\nrun {}").ok = true := by rw [ofText_eq]; rfl
  exact ⟨hok, accepted_order {} rfl "module m\nopen a\nsig A {}\nrun {}" hok⟩

/-- An evaluation is a paragraph, but an import behind it is accepted. -/
theorem import_behind_eval :
    (ofText {} .wholeModule "eval x\nopen y").ok = true ∧
      (Located.root? (ofText {} .wholeModule "eval x\nopen y").tree).map
        (fun root => root.childNodes.map (·.kind)) = some [.evalDecl, .importDecl] ∧
      Category.paragraph.admits .evalDecl = true := by
  have hok : (ofText {} .wholeModule "eval x\nopen y").ok = true := by rw [ofText_eq]; rfl
  have hkinds : (Located.root? (ofText {} .wholeModule "eval x\nopen y").tree).map
      (fun root => root.childNodes.map (·.kind)) = some [.evalDecl, .importDecl] := by rw [ofText_eq]; rfl
  exact ⟨hok, hkinds, rfl⟩

end Parse
end RelLang
