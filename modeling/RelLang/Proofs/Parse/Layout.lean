import RelLang.Proofs.Grammar.Guarded
import RelLang.Proofs.Machine.Reading
import RelLang.Proofs.Parse.Reports
import RelLang.Proofs.Rule.Alike

/-!
# Layout never matters

Two texts with the same tokens but for trivia and invalid ones are read alike: without
these, the trees are the same. A reading looks at nothing else, and where it asks whether it
has gone on, it does not matter that skipped tokens count.
-/

namespace RelLang

namespace Grammar

open Rule

variable {setting₁ setting₂ : Setting} {enter₁ enter₂ : Nonterminal → State → Bool × State}

theorem ends_optionValue {setting : Setting} {enter : Nonterminal → State → Bool × State}
    (henter : Steady enter) : Ends setting enter optionValue :=
  (advances_optionValue henter).ends

section

variable (henter₁ : Steady enter₁) (henter₂ : Steady enter₂)

include henter₁ henter₂

theorem alike_qualName : Rule.Alike ((ignore qualName).run setting₁ enter₁)
    ((ignore qualName).run setting₂ enter₂) :=
  .ignore henter₁ henter₂ <| .ofElementary henter₁ henter₂ elementary_qualName
    (advances_qualName henter₁).ends (advances_qualName henter₂).ends

theorem alike_boundValue (hcall : ∀ symbol, Rule.Alike (enter₁ symbol) (enter₂ symbol)) :
    Rule.Alike (boundValue.run setting₁ enter₁) (boundValue.run setting₂ enter₂) := by
  refine .node henter₁ henter₂ _ <| .bind henter₁ henter₂ (.peek 0) fun first =>
    .bind henter₁ henter₂ (.peek 1) fun second => ?_
  split
  · exact .bump
  · exact .bind henter₁ henter₂ .bump fun _ => .bump
  · exact .ignore henter₁ henter₂ (hcall _)
  · exact alike_qualName henter₁ henter₂
  · exact .report _

theorem alike_optionValue :
    Rule.Alike (optionValue.run setting₁ enter₁) (optionValue.run setting₂ enter₂) :=
  .ofElementary henter₁ henter₂ elementary_optionValue (ends_optionValue henter₁)
    (ends_optionValue henter₂)

theorem alike_optionDecl :
    Rule.Alike (optionDecl.run setting₁ enter₁) (optionDecl.run setting₂ enter₂) := by
  have hallow (setting : Setting) (s : State) :
      s.Alike (if setting.mode = .fromLanguageLine then { s with temporal := true } else s) := by
    split <;> exact .of_eq rfl rfl rfl
  refine .node henter₁ henter₂ _ <| .bind henter₁ henter₂ .bump fun _ =>
    .bind henter₁ henter₂ .currentText fun key =>
    .bind henter₁ henter₂ (alike_qualName henter₁ henter₂) fun _ =>
    .bind henter₁ henter₂ .currentText fun value =>
    .bind henter₁ henter₂ (alike_optionValue henter₁ henter₂) fun _ => .ite ?_ (.done ())
  exact .ofUnseen (hallow setting₁) (hallow setting₂)

/-- Whether anything is taken is told by the kinds ahead. -/
theorem alike_progress {α : Type} {body : Rule Nonterminal α} (hgate : Gated body)
    (hbody : Rule.Alike (body.run setting₁ enter₁) (body.run setting₂ enter₂)) :
    Rule.Alike ((progress body).run setting₁ enter₁) ((progress body).run setting₂ enter₂) := by
  obtain ⟨gate, hgate⟩ := hgate
  have hmoved {setting : Setting} {enter : Nonterminal → State → Bool × State}
      (henter : Steady enter) {s : State} (hs : s.Valid) :
      ((body.run setting enter s).2.left != s.left) = gate s.kindAt := by
    have hs := hgate setting enter henter s hs
    split at hs
    · next htakes => rw [htakes, bne_iff_ne.mpr (Nat.ne_of_lt hs)]
    · next hstays =>
      rw [hs, Bool.eq_false_iff.mpr hstays]
      exact bne_self_eq_false _
  intro s t hs ht h
  obtain ⟨hvalue, halike⟩ := hbody s t hs ht h
  have hkinds : s.kindAt = t.kindAt := funext h.kindAt_eq
  rw [run_progress, run_progress, hmoved henter₁ hs, hmoved henter₂ ht, hkinds, hvalue]
  exact ⟨rfl, halike⟩

/-- Orderly rules run alike, if their loops advance and their calls run alike. -/
theorem Orderly.alike (hdecided : Decided setting₂ enter₂)
    (hcall : ∀ symbol, Rule.Alike (enter₁ symbol) (enter₂ symbol)) {α : Type}
    {rule : Rule Nonterminal α} (h : Orderly rule) (h₁ : Ends setting₁ enter₁ rule)
    (h₂ : Ends setting₂ enter₂ rule) :
    Rule.Alike (rule.run setting₁ enter₁) (rule.run setting₂ enter₂) := by
  induction h with
  | done a => exact .done a
  | andThen _ _ hfirst hnext =>
    exact .bind henter₁ henter₂ (hfirst h₁.1 h₂.1) fun a => hnext a (h₁.2 a) (h₂.2 a)
  | peek n => exact .peek n
  | ahead test => exact .ofLooking (run_ahead test) (run_ahead test) fun h => by rw [h.kinds_eq]
  | atRecoveryPoint => exact .atRecoveryPoint
  | bump => exact .bump
  | node _ _ hbody => exact .node henter₁ henter₂ _ (hbody h₁.2 h₂.2)
  | group _ hbody => exact .group (hbody h₁ h₂)
  | enclose hkind _ hbody => exact .enclose hkind (hbody h₁.2 h₂.2)
  | within context _ hbody => exact .within context (hbody h₁ h₂)
  | report _ => exact .report _
  | requireTemporal =>
    have hrequire (setting : Setting) (s : State) :
        s.Alike (if s.temporal then s else s.report setting .temporalDisabled) := by
      split
      · exact .refl s
      · exact State.alike_report setting _ s
    exact .ofUnseen (hrequire setting₁) (hrequire setting₂)
  | loop a _ hbody =>
    exact .loop henter₁ henter₂ h₁.1 h₂.1 (fun a => hbody a (h₁.2 a) (h₂.2 a)) a
  | opener _ hplace hnext => exact .opener hplace fun r => hnext r (h₁.2 r) (h₂.2 r)
  | skipToken _ => exact .skipToken henter₁ henter₂ _
  | skipUntil stops hproblem =>
    have hskip : Elementary (fun _ => true) (Rule.skipUntil _ stops : Rule Nonterminal Unit) :=
      .skipUntil stops hproblem rfl
    exact .ofElementary henter₁ henter₂ hskip h₁ h₂
  | items closer _ _ hidle hitem =>
    have hends₁ := hitem (by simpa [items] using h₁.2) (by simpa [items] using h₂.2)
    exact RoundsAlike.repeated henter₁ henter₂ (moves_item henter₁ _ _ _)
      (moves_item henter₂ _ _ _)
      (roundsAlike_items henter₁ henter₂ _ _ (hidle _ _ henter₂ hdecided) hends₁)
  | progress _ hgate hbody => exact alike_progress henter₁ henter₂ hgate (hbody h₁ h₂)
  | expression level => exact hcall _
  | boundValue => exact alike_boundValue henter₁ henter₂ hcall
  | optionDecl => exact alike_optionDecl henter₁ henter₂
  | behindExpression =>
    exact .ofElementary henter₁ henter₂ elementary_behindExpression h₁ h₂

end

/-- Whatever is read, it is read alike, however deep it is nested. -/
theorem alike_enter (setting₁ setting₂ : Setting) (levels : Nat) (symbol : Nonterminal) :
    Rule.Alike (language.enter setting₁ levels symbol) (language.enter setting₂ levels symbol) := by
  induction levels generalizing symbol with
  | zero =>
    exact .ofElementary (steady_of_empty _) (steady_of_empty _) (elementary_beyond symbol)
      (advances_beyond setting₁ _ symbol).ends (advances_beyond setting₂ _ symbol).ends
  | succ levels ih =>
    have henter₁ := language.steady_enter setting₁ levels
    have henter₂ := language.steady_enter setting₂ levels
    exact (orderly_body symbol).alike henter₁ henter₂ (decided_enter setting₂ levels) ih
      (ends_body henter₁ symbol) (ends_body henter₂ symbol)

end Grammar

/-! ### Whole readings -/

/-- The tokens of a text that the grammar sees: all but trivia and invalid ones. -/
def seenTokens (text : String) : List (TokenKind × String) :=
  ((tokenize text).filter (·.kind.isSignificant)).map Token.toPair

namespace Parse

theorem alike_start (config₁ config₂ : ParseConfig) {text₁ text₂ : String}
    (h : seenTokens text₁ = seenTokens text₂) :
    (start config₁ (tokenize text₁)).Alike (start config₂ (tokenize text₂)) := by
  refine ⟨?_, ?_, ?_⟩
  · rw [input_start, input_start]
    exact h
  · rw [State.sifted, State.sifted, siblings_start, siblings_start]
  · obtain ⟨_, h₁⟩ := start_eq config₁ (tokenize text₁)
    obtain ⟨_, h₂⟩ := start_eq config₂ (tokenize text₂)
    rw [h₁, h₂]

/-- Trivia and invalid tokens never change what a text is read as. If the other tokens of two texts
are the same, in kind and text, then so are the trees without trivia and without the nodes of single
invalid tokens, however the two readings are configured. -/
theorem skipped_tokens_never_matter (config₁ config₂ : ParseConfig) (entry : Entry)
    {text₁ text₂ : String} (h : seenTokens text₁ = seenTokens text₂) :
    (ofText config₁ entry text₁).tree.sifted = (ofText config₂ entry text₂).tree.sifted := by
  have henter₁ := Grammar.language.steady_enter (setting config₁ (tokenize text₁)) nestingLimit
  have henter₂ := Grammar.language.steady_enter (setting config₂ (tokenize text₂)) nestingLimit
  have hv₁ := valid_start config₁ (tokenize text₁)
  have hv₂ := valid_start config₂ (tokenize text₂)
  obtain ⟨-, halike⟩ := (Grammar.orderly_entry entry).alike henter₁ henter₂
    (Grammar.decided_enter _ nestingLimit) (Grammar.alike_enter _ _ nestingLimit)
    (entry.ends_rule henter₁) (entry.ends_rule henter₂) _ _ hv₁ hv₂ (alike_start _ _ h)
  have hfinal : (final config₁ entry (tokenize text₁)).Alike
      (final config₂ entry (tokenize text₂)) :=
    halike.attachPending (Rule.valid_run _ henter₁ entry.rule hv₁)
      (Rule.valid_run _ henter₂ entry.rule hv₂)
  exact congrArg (Tree.node entry.rootKind) hfinal.sifted

/-- A comment, a character that belongs to no token and line breaks make no difference. -/
theorem sifted_tree_of_spread_sig :
    seenTokens "sig A { f: B }" = seenTokens "sig ? A -- first\n{  f : B  }\n" ∧
    (ofText {} .wholeModule "sig A { f: B }").tree.sifted
      = (ofText { temporal := .disabled, maxDiagnostics := some 0 } .wholeModule
          "sig ? A -- first\n{  f : B  }\n").tree.sifted := by
  have htokens : seenTokens "sig A { f: B }" = seenTokens "sig ? A -- first\n{  f : B  }\n" := by
    rw [seenTokens, seenTokens, tokenize_eq, tokenize_eq]
    rfl
  exact ⟨htokens, skipped_tokens_never_matter _ _ _ htokens⟩

end Parse
end RelLang
