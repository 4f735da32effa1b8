import Mathlib.Data.List.TakeWhile
import RelLang.Proofs.Parse.Order
import RelLang.Proofs.Parse.Trivia
import RelLang.View.Declaration

/-!
# The language of a module

The language of a text is named by a language line in front of all tokens that are no trivia. From
the tree it is read off the tokens that stand directly in the module. The declarations between them
are left out, so a language line behind a declaration counts there too, if there is none in front.
-/

namespace RelLang

/-- The tokens among the trees of a module begin with the trivia that the leaves of the trees begin
with, if every node among them begins with what is no trivia; and the others are trivia too. -/
theorem Located.childTokens_of_moduleParts (n : Located) {behind : List (TokenKind × String)}
    (hparts : ∀ t ∈ n.children, t.isModulePart = true)
    (hfronted : Tree.EverywhereAll FrontedNode n.children behind) :
    ∃ later, n.childTokens = (Tree.leavesAll n.children).takeWhile (·.1.isTrivia) ++ later ∧
      ∀ t ∈ later, t.1.isTrivia = true := by
  unfold childTokens
  generalize n.children = ts at hparts hfronted ⊢
  induction ts with
  | nil => exact ⟨[], rfl, nofun⟩
  | cons t ts ih =>
    obtain ⟨later, htokens, hlater⟩ :=
      ih (fun u hu => hparts u (List.mem_cons_of_mem _ hu)) hfronted.2
    cases t with
    | token kind text =>
      have htrivia : kind.isTrivia = true := hparts _ List.mem_cons_self
      refine ⟨later, ?_, hlater⟩
      simp [Tree.leavesAll, Tree.leaves, htokens, htrivia]
    | node kind children =>
      cases hleaves : Tree.leavesAll children with
      | nil => exact ⟨later, by simp [Tree.leavesAll, Tree.leaves, htokens, hleaves], hlater⟩
      | cons leaf leaves =>
        -- the node ends the trivia in front, so all tokens beside it come later
        have hleaf : leaf.1.isTrivia = false := hfronted.1.1 leaf (by rw [hleaves]; rfl)
        refine ⟨_, by simp [Tree.leavesAll, Tree.leaves, hleaves, hleaf]; rfl, fun u hu => ?_⟩
        rw [htokens] at hu
        obtain hu | hu := List.mem_append.mp hu
        · exact List.all_eq_true.mp List.all_takeWhile u hu
        · exact hlater u hu

/-- So it is when a module has been read. -/
theorem State.childTokens_of_sound {s : State} (hparts : ∀ t ∈ s.siblings, t.isModulePart = true)
    (hsound : s.Sound FrontedNode) :
    ∃ later, (⟨.sourceFile, s.siblings.reverse, 0, []⟩ : Located).childTokens
        = (Tree.leavesAll s.siblings.reverse).takeWhile (·.1.isTrivia) ++ later ∧
      ∀ t ∈ later, t.1.isTrivia = true :=
  Located.childTokens_of_moduleParts ⟨.sourceFile, s.siblings.reverse, 0, []⟩
    (fun t ht => hparts t (List.mem_reverse.mp ht)) hsound.all

namespace Parse

/-- A language line in front of all tokens that are no trivia is found from the tree as well; if
there is none, the first of the language lines that stand directly in the module is. -/
theorem language_of_tree (config : ParseConfig) (text : String) :
    let p := ofText config .wholeModule text
    ∃ (root : SourceFile) (later : List (TokenKind × String)),
      (Located.root? p.tree).bind (·.as? (.only .sourceFile)) = some root ∧
      root.node.childTokens
        = ((tokenize text).map Token.toPair).takeWhile (·.1.isTrivia) ++ later ∧
      root.language = p.language.or (later.findSome? fun t => languageName? t.1 t.2) := by
  have hnone : ∀ problem : Problem, problem.OfDeclaration → (fun _ => false) problem = false :=
    fun _ _ => rfl
  have hparts := (parts_final config (tokenize text) hnone).1
  obtain ⟨later, htokens, hlater⟩ :=
    State.childTokens_of_sound hparts (fronted_final config .wholeModule (tokenize text))
  have hleaves := leaves_ofTokens config .wholeModule (tokenize text)
  rw [tree_ofTokens, Tree.leaves] at hleaves
  rw [hleaves] at htokens
  dsimp only
  rw [ofText, tree_ofTokens]
  generalize (final config .wholeModule (tokenize text)).siblings = ts at htokens ⊢
  have hall : ∀ t ∈ ((tokenize text).map Token.toPair).takeWhile (·.1.isTrivia) ++ later,
      t.1.isTrivia = true :=
    fun t ht => (List.mem_append.mp ht).elim List.mem_takeWhile_imp (hlater t)
  refine ⟨⟨⟨.sourceFile, ts.reverse, 0, []⟩, beq_self_eq_true _⟩, later, rfl, htokens, ?_⟩
  rw [SourceFile.language, htokens, languageOf, List.takeWhile_eq_self_iff.mpr hall,
    List.findSome?_append]
  rfl

/-- A language line behind a declaration names no language of the text, but one of its module. -/
theorem late_language_line :
    (ofText {} .wholeModule "sig A {}\n#lang forge").language = none ∧
      ((Located.root? (ofText {} .wholeModule "sig A {}\n#lang forge").tree).bind
        (·.as? (.only .sourceFile))).bind SourceFile.language = some "forge" := by
  simp only [ofText_eq]
  exact ⟨rfl, rfl⟩

end Parse
end RelLang
