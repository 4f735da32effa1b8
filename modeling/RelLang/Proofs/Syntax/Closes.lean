import RelLang.Proofs.Grammar.Fits
import RelLang.Proofs.Syntax.Begins

/-!
# How expressions end

The last token of an expression is one of few: that of an atom or of a name, a closing
bracket, or a prime. None of them asks for what is behind it to be a part of the
expression.
-/

namespace RelLang

namespace Form

open Grammar
open Tree (kinds)

/-- The tokens that expressions end with, and declarations of a module. -/
def closing : List TokenKind :=
  [.ident, .keyword .intKw, .keyword .seqKw, .number, .keyword .noneKw, .keyword .univKw,
   .keyword .idenKw, .keyword .thisKw, .atomName, .sexpr, .punct .rparen, .punct .rbracket,
   .punct .rbrace, .punct .prime, .filePath, .keyword .runKw, .keyword .checkKw, .keyword .satKw,
   .keyword .unsatKw, .keyword .theoremKw, .keyword .forgeErrorKw]

/-- If there are tokens, the last is one that expressions end with. -/
def Settled (ks : List TokenKind) : Prop := ∀ k ∈ ks.getLast?, k ∈ closing

/-- Tokens of which the last is one that expressions end with. -/
def Followed (ks : List TokenKind) : Prop := ks ≠ [] ∧ Settled ks

theorem settled_nil : Settled [] := nofun

/-- A token that no expression ends with has another behind it. -/
theorem Settled.tail_ne_nil {k : TokenKind} {ks : List TokenKind} (h : Settled (k :: ks))
    (hk : k ∉ closing) : ks ≠ [] := by
  rintro rfl
  exact hk (h k rfl)

theorem Settled.tail {k : TokenKind} {ks : List TokenKind} (h : Settled (k :: ks)) :
    Settled ks := by
  intro l hl
  cases ks with
  | nil => cases hl
  | cons k' ks => exact h l (by rwa [List.getLast?_cons_cons])

theorem Settled.append {ks ls : List TokenKind} (hls : Settled ls) (hks : ls = [] → Settled ks) :
    Settled (ks ++ ls) := by
  cases ls with
  | nil => simpa using hks rfl
  | cons l ls =>
    intro k hk
    rw [List.getLast?_append, List.getLast?_cons, Option.some_or, ← List.getLast?_cons] at hk
    exact hls k hk

theorem Followed.append {ls : List TokenKind} (h : Followed ls) (ks : List TokenKind) :
    Followed (ks ++ ls) :=
  ⟨List.append_ne_nil_of_right_ne_nil ks h.1, h.2.append fun hls => absurd hls h.1⟩

/-! ### The last token of what a form stands for -/

/-- What the form stands for ends as expressions do, if it is not empty. -/
def Settles (n : Nat) (f : Form) : Prop :=
  ∀ ts behind, Derives n f ts behind → Settled (kinds ts)

variable {n : Nat} {f g : Form} {test : List TokenKind → Bool}

theorem settles_nothing : Settles n .nothing := by
  intro ts behind h
  rw [derives_nothing] at h
  subst h
  exact settled_nil

theorem settles_token {allowed : List TokenKind} (h : ∀ k ∈ allowed, k ∈ closing) :
    Settles n (.token allowed) := by
  intro ts behind hts
  obtain ⟨k, text, hk, rfl⟩ := derives_token.mp hts
  intro l hl
  obtain rfl := Option.some.inj hl
  exact h k hk

theorem Settles.append (hf : Settles n f) (hg : Settles n g) : Settles n (f ++ g) := by
  intro ts behind h
  obtain ⟨us, vs, rfl, hus, hvs⟩ := derives_append.mp h
  rw [Tree.kinds_append]
  exact (hg _ _ hvs).append fun _ => hf _ _ hus

/-- The last form of a row, if it is not empty. -/
theorem Begins.last (h : Begins (fun _ => True) g) (forms : List Form) :
    Begins (fun _ => True) (row (forms ++ [g])) := by
  induction forms with
  | nil => exact h
  | cons f forms ih =>
    cases forms with
    | nil => exact h.appendRight f
    | cons => exact ih.appendRight f

/-- The last form of a row decides how it ends, if it is not empty. -/
theorem Settles.last (hg : Settles n g) (hbegins : Begins (fun _ => True) g) (forms : List Form) :
    Settles n (row (forms ++ [g])) := by
  have hstep : ∀ {f g}, Settles n g → Begins (fun _ => True) g → Settles n (f ++ g) := by
    intro f g hg hbegins ts behind h
    obtain ⟨us, vs, rfl, -, hvs⟩ := derives_append.mp h
    rw [Tree.kinds_append]
    exact (hg _ _ hvs).append fun hnil => absurd hnil (hbegins.kinds_ne_nil hvs)
  induction forms with
  | nil => exact hg
  | cons f forms ih =>
    cases forms with
    | nil => exact hstep hg hbegins
    | cons => exact hstep ih (hbegins.last _)

/-- What is not empty decides how the form ends. -/
theorem Settles.behind (hg : Settles n g) (hbegins : Begins (fun _ => True) g) (f : Form) :
    Settles n (f ++ g) :=
  hg.last hbegins [f]

theorem Settles.node (hf : Settles n f) (kind : NodeKind) : Settles n (.node kind f) := by
  intro ts behind h
  obtain ⟨us, rfl, hus⟩ := derives_node.mp h
  simpa using hf _ _ hus

theorem Settles.either (hf : Settles n f) (hg : Settles n g) : Settles n (.either f g) := by
  intro ts behind h
  exact (derives_either.mp h).elim (hf _ _) (hg _ _)

theorem Settles.many (hf : Settles n f) : Settles n (.many f) := by
  intro ts behind h
  refine h.many_induction (p := fun ts => Settled (kinds ts)) settled_nil fun us vs hus hvs => ?_
  rw [Tree.kinds_append]
  exact hvs.append fun _ => hf _ _ hus

theorem Settles.given (hf : Settles n f) (hg : Settles n g) : Settles n (given test f g) := by
  intro ts behind h
  rw [derives_given] at h
  split at h
  · exact hf _ _ h
  · exact hg _ _ h

theorem Settles.ifAhead (hf : Settles n f) : Settles n (ifAhead test f) :=
  .given hf settles_nothing

theorem settles_look : Settles n (look test) := .given settles_nothing (settles_token nofun)

theorem Settles.whileAhead (hf : Settles n f) : Settles n (whileAhead test f) :=
  (settles_look.append hf).many.append settles_look

/-! ### Expressions -/

theorem begins_anyToken (allowed : List TokenKind) : Begins (fun _ => True) (token allowed) :=
  begins_token fun _ _ => trivial

theorem begins_anyExpr (level : Nat) : Begins (fun _ => True) (exprAt level) :=
  (begins_exprAt level).mono fun _ _ => trivial

theorem begins_binderBody : Begins (· ∈ [.punct .bar, .punct .lbrace]) binderBody :=
  ((begins_token (by decide)).append _).given (beginsWith_block.mono fun k hk => by simp [hk])

theorem begins_anyBinderBody : Begins (fun _ => True) binderBody :=
  begins_binderBody.mono fun _ _ => trivial

theorem settles_name : Settles n name := (settles_token (by decide)).node _

theorem settles_qualName : Settles n qualName := by
  have hsegments : Settles n (whileAhead (segmentBehind .slash)
      (token [.punct .slash] ++ token segmentKinds)) :=
    .whileAhead ((settles_token (by decide)).behind (begins_anyToken _) _)
  exact (((settles_token (by decide)).append hsegments).behind
    ((begins_anyToken _).append _) _).node _

theorem settles_block : Settles n block :=
  ((settles_token (by decide)).last (begins_anyToken _) [_, _]).node _

/-- An atom of one token is one that expressions end with. -/
theorem mem_closing_of_ofTokens? {k : TokenKind} {second : Option TokenKind} {kind : NodeKind}
    (h : AtomForm.ofTokens? (some k) second = some (.oneToken kind)) : k ∈ closing := by
  unfold AtomForm.ofTokens? at h
  split at h
  all_goals first
    | cases h
      done
    | rename_i hk
      obtain rfl := Option.some.inj hk
      decide
    | split at h <;> cases h

theorem settles_ofAtom {k : TokenKind} {second : Option TokenKind} {form : AtomForm}
    (h : AtomForm.ofTokens? (some k) second = some form) : Settles n (ofAtom k form) := by
  cases form with
  | oneToken kind =>
    exact (settles_token fun k' hk' => List.mem_singleton.mp hk' ▸ mem_closing_of_ofTokens? h).node _
  | negativeNumber => exact ((settles_token (by decide)).behind (begins_anyToken _) _).node _
  | nameRef => exact settles_qualName.node _
  | atName => exact (settles_name.behind ((begins_anyToken _).node _) _).node _
  | parenthesized => exact ((settles_token (by decide)).last (begins_anyToken _) [_, _]).node _
  | braced =>
    exact .given (((settles_token (by decide)).last (begins_anyToken _) [_, _, _]).node _)
      settles_block

section

variable (hexpr : ∀ level, Settles n (exprAt level))

include hexpr

theorem settles_binderBody : Settles n binderBody :=
  .given ((hexpr 0).behind (begins_anyExpr 0) _) settles_block

theorem settles_binder (k : TokenKind) : Settles n (binder k) := by
  have hbody := settles_binderBody hexpr
  unfold binder
  split
  · exact (hbody.last begins_anyBinderBody [_, _, _]).node _
  · exact (hbody.last begins_anyBinderBody [_, _, _]).node _
  · exact (hbody.last begins_anyBinderBody [_, _]).node _

theorem settles_operandHead : Settles n operandHead := by
  intro ts behind h
  have hahead := derives_ahead.mp h
  generalize kinds ts ++ behind = ks at hahead
  cases hk : ks[0]? with
  | none =>
    rw [hk] at hahead
    exact absurd hahead not_derives_never
  | some k =>
    rw [hk] at hahead
    dsimp only at hahead
    split at hahead
    · exact settles_binder hexpr k _ _ hahead
    split at hahead
    · exact (((hexpr _).behind (begins_anyExpr _) _).node _) _ _ hahead
    split at hahead
    · next hform => exact settles_ofAtom hform _ _ hahead
    · exact absurd hahead not_derives_never

theorem settles_tail {k : TokenKind} {second : Option TokenKind} {e : Operator.Extension}
    (h : Operator.extension? k second = some e) : Settles n (tail k e) := by
  unfold tail
  split
  · have hexprs : ∀ level, Settles n (exprAt level ++ otherwise) := fun level =>
      (hexpr level).append (.ifAhead ((hexpr _).behind (begins_anyExpr _) _))
    split
    · exact (hexprs _).behind ((begins_anyExpr _).append _) _
    · exact ((hexpr _).append settles_nothing).behind ((begins_anyExpr _).append _) _
  · next hnone =>
    split
    · exact (settles_token (by decide)).last (begins_anyToken _) [_, _]
    · next hbracket =>
      obtain rfl := (Operator.postfix_of_extension? h hnone).resolve_left hbracket
      exact settles_token (by decide)

/-- An expression that is extended by operators, behind a beginning of any form. -/
theorem settles_extended {head : Form} (hhead : Settles n head) (level : Nat) :
    Settles n (.extended level head) := by
  intro ts behind h
  generalize hform : Form.extended level head = form at h
  induction h with
  | head h =>
    obtain ⟨rfl, rfl⟩ := Form.extended.inj hform
    exact hhead _ _ h
  | @extend _ _ _ ts us k e behind front asked _ back ihFront _ =>
    obtain ⟨rfl, rfl⟩ := Form.extended.inj hform
    obtain ⟨-, he⟩ := Operator.extensionOf_eq_some.mp asked
    rw [Tree.kinds_node_cons, Tree.kinds_nil, List.append_nil, Tree.kinds_append]
    exact (settles_tail hexpr he _ _ back).append fun _ => ihFront hexpr hhead rfl
  | _ => cases hform

theorem settles_expression (level : Nat) : Settles n (expression level) :=
  (settles_extended hexpr (settles_operandHead hexpr) level).append settles_look

end

/-- An expression ends with an atom, a name, a closing bracket or a prime. -/
theorem settles_exprAt (level : Nat) : Settles n (exprAt level) := by
  induction n generalizing level with
  | zero =>
    intro ts behind h
    obtain ⟨m, hm, -⟩ := derives_part.mp h
    cases hm
  | succ n ih =>
    intro ts behind h
    obtain ⟨m, hm, h⟩ := derives_part.mp h
    obtain rfl := Nat.succ.inj hm
    exact settles_expression ih level _ _ h

end Form
end RelLang
