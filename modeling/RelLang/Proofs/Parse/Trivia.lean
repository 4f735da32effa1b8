import Mathlib
import RelLang.Proofs.Grammar.Front
import RelLang.Proofs.Parse.Syntax
import RelLang.Proofs.Syntax.Tidy

/-!
# Where trivia stands

Trivia stands between nodes and not at their ends: no node begins with it, whatever the text, and
where nothing is reported no node ends with it either.
-/

namespace RelLang.Parse

open Rule

variable {config : ParseConfig} {entry : Entry} {tokens : List Token}

/-- All nodes below the root begin with a token that is no trivia, if they hold any. -/
theorem fronted_final (config : ParseConfig) (entry : Entry) (tokens : List Token) :
    (final config entry tokens).Sound FrontedNode := by
  have hstart : (start config tokens).Sound FrontedNode :=
    State.sound_of_siblings_eq_nil (siblings_start config tokens)
  have hrun : ((entry.rule.run (setting config tokens)
      (Grammar.language.enter (setting config tokens) nestingLimit)
      (start config tokens)).2).Sound FrontedNode :=
    fronted_run (Grammar.language.steady_enter _ _) (Grammar.fronted_enter _ _) entry.rule
      (valid_start config tokens) hstart (.inr entry.headed_rule)
  exact hrun.attachPending fronted_invalid

/-- Where nothing is reported, all nodes below the root end with a token that is no trivia, or are
empty lists of arguments. -/
theorem backed_final (hkeep : config.maxDiagnostics = none)
    (hok : (ofTokens config entry tokens).ok = true) :
    (final config entry tokens).Sound BackedNode := by
  have hr : (Grammar.readerOf (setting config tokens) nestingLimit 0 fun _ => True).Faithful :=
    Grammar.faithful_readerOf hkeep (fun _ _ => trivial) _ _ (.inl (Nat.zero_le _))
  have hrun := Grammar.neat_entry hr (Grammar.tidy_readerOf hkeep _) entry (start config tokens)
    (ready_start (whole_of_ok hkeep hok))
    (State.sound_of_siblings_eq_nil (siblings_start config tokens)) nofun trivial (ok_iff.mp hok)
  exact hrun.1.attachPending backedNode_invalid

/-- A property of all nodes below the root, where they stand in the text. -/
theorem nodes_of_sound {P : NodeKind → List Tree → List (TokenKind × String) → Prop}
    (hsound : (final config entry tokens).Sound P) {n : Located}
    (hn : n ∈ (Located.nodesOf 0 [] (ofTokens config entry tokens).tree).tail) :
    ∃ front back, (ofTokens config entry tokens).tree.leaves = front ++ n.tree.leaves ++ back ∧
      n.start = Tree.bytes front ∧ P n.kind n.children back := by
  have hall := hsound.all
  rw [rest_final, List.map_nil] at hall
  obtain ⟨front, back, hleaves, hstart, hP⟩ := Located.everywhere_of_mem_allNodesOf _ hall hn
  rw [List.append_nil] at hleaves
  exact ⟨front, back, hleaves, by rw [hstart, Nat.zero_add], hP⟩

/-- Nodes are tight. For every text, whatever it is read as and whatever it is read by, the first
token of every node below the root is no trivia. If nothing is reported, so is the last one; and
then a node below the root that holds no token is a list of arguments, without children, in front of
the bracket that closes it. -/
theorem nodes_tight (entry : Entry) (text : String) :
    (∀ config, ∀ n ∈ (Located.nodesOf 0 [] (ofText config entry text).tree).tail,
      ∀ first, n.tree.leaves.head? = some first → first.1.isTrivia = false) ∧
    ∀ mode, (ofText { temporal := mode } entry text).errors = [] →
      ∀ n ∈ (Located.nodesOf 0 [] (ofText { temporal := mode } entry text).tree).tail,
        (∀ last, n.tree.leaves.getLast? = some last → last.1.isTrivia = false) ∧
        (n.tree.leaves = [] → n.kind = .exprList ∧ n.children = [] ∧
          ∃ front back closer, (ofText { temporal := mode } entry text).tree.leaves
            = front ++ (.punct .rbracket, closer) :: back ∧ n.start = Tree.bytes front) := by
  refine ⟨fun config n hn first hfirst => ?_, fun mode hnone n hn => ?_⟩
  · obtain ⟨_, _, -, -, hfronted⟩ := nodes_of_sound (fronted_final config entry _) hn
    exact hfronted first hfirst
  · obtain ⟨front, back, hleaves, hstart, hbacked⟩ :=
      nodes_of_sound (backed_final rfl (errors_eq_nil_iff.mp hnone)) hn
    obtain ⟨leaf, hlast, htrivia⟩ | ⟨hkind, hempty, closer, hcloser⟩ := hbacked
    · refine ⟨fun last hlast' => ?_, fun hnil => ?_⟩
      · rw [Option.some.inj (hlast'.symm.trans hlast)]
        exact htrivia
      · exact absurd (hlast.symm.trans (congrArg List.getLast? hnil)) nofun
    · have hnil : n.tree.leaves = [] := by rw [Located.tree, Tree.leaves, hempty]; rfl
      obtain ⟨rest, rfl⟩ := List.head?_eq_some_iff.mp hcloser
      refine ⟨fun last hlast => ?_, fun _ => ⟨hkind, hempty, front, rest, closer, ?_, hstart⟩⟩
      · rw [hnil] at hlast
        cases hlast
      · rw [ofText, hleaves, hnil, List.append_nil]

/-- Without arguments their list holds nothing; what is skipped stands in front of it. -/
theorem nodes_tight_no_arguments :
    ∃ n ∈ (Located.nodesOf 0 [] (ofText {} .oneExpression "a[ ]").tree).tail,
      n.tree.leaves = [] ∧ n.start = 3 ∧ n.kind = .exprList ∧ n.children = [] := by
  have herrors : (ofText {} .oneExpression "a[ ]").errors = [] :=
    errors_eq_nil_iff.mpr (by rw [ofText_eq]; rfl)
  have htree : (ofText {} .oneExpression "a[ ]").tree = .node .exprRoot
      [.node .boxJoinExpr [.node .nameRef [.node .qualName [.token .ident "a"]],
        .token (.punct .lbracket) "[", .token .whitespace " ", .node .exprList [],
        .token (.punct .rbracket) "]"]] := by rw [ofText_eq]; rfl
  have hmem : (⟨.exprList, [], 3, [.token .whitespace " ", .token (.punct .lbracket) "[",
      .node .nameRef [.node .qualName [.token .ident "a"]]]⟩ : Located)
        ∈ (Located.nodesOf 0 [] (ofText {} .oneExpression "a[ ]").tree).tail := by
    rw [htree]
    simp [Located.nodesOf, Located.allNodesOf, Tree.width, Tree.widths]
    rfl
  have hempty := ((nodes_tight .oneExpression "a[ ]").2 .enabled herrors _ hmem).2 rfl
  exact ⟨_, hmem, rfl, rfl, hempty.1, hempty.2.1⟩

end RelLang.Parse
