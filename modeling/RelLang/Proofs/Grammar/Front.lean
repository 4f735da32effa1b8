import RelLang.Parse
import RelLang.Proofs.Rule.Front

/-!
# What the nodes of the grammar begin with

The rules for whole texts, and those that can be called, put no node around what stands in front of
them, so all nodes that they make begin with a token that the grammar sees.
-/

namespace RelLang

namespace Grammar

open Rule

theorem headed_declaration (seen : Seen) : (declaration seen).Headed := by
  have hform (form : ParagraphStart) : form.rule.Headed := by
    cases form with
    | assertion => exact ⟨trivial, fun _ => trivial⟩
    | _ => trivial
  unfold declaration
  refine ⟨trivial, fun first => ⟨trivial, fun second => ⟨trivial, fun third => ?_⟩⟩⟩
  dsimp only
  split
  · simp [moduleDecl]
  · simp [importDecl]
  · simp [evalDecl]
  · split
    · simp [hform]
    · trivial

theorem headed_body (symbol : Nonterminal) : (language.body symbol).Headed := by
  cases symbol with
  | expression level => exact trivial
  | boundGroup => simp [language, boundGroup, boundUnion, expectCloser]

theorem headed_beyond (symbol : Nonterminal) : (language.beyond symbol).Headed := by
  cases symbol <;> simp [language, expressionTooDeep, boundGroupTooDeep, skipNested]

/-- Whatever is called, the nodes that it makes are fronted. -/
theorem fronted_enter (setting : Setting) (levels : Nat) (symbol : Nonterminal) :
    Maintains (State.Sound FrontedNode) (language.enter setting levels symbol) := by
  induction levels generalizing symbol with
  | zero =>
    exact fun s hs h => fronted_run (steady_of_empty _) nofun (language.beyond symbol) hs h
      (.inr (headed_beyond symbol))
  | succ levels ih =>
    exact fun s hs h => fronted_run (language.steady_enter setting levels) ih
      (language.body symbol) hs h (.inr (headed_body symbol))

end Grammar

theorem Entry.headed_rule (entry : Entry) : entry.rule.Headed := by
  cases entry with
  | wholeModule =>
    simp [rule, Grammar.sourceFile, Grammar.moduleItem, Grammar.headed_declaration, Rule.currentIs,
      Grammar.moduleDecl]
  | oneExpression => simp [rule, Grammar.exprRoot, Grammar.expr, Grammar.exprAt]

end RelLang
