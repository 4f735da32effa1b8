import RelLang.Proofs.Syntax.Derives

/-!
# How the forms of the grammar begin

The first token of what a form stands for, where a rule decides by it. What begins
an expression is what `Operator.startsExpr` says.
-/

namespace RelLang.Form

open Grammar
open Tree (kinds)

variable {n : Nat} {f g : Form} {ts : List Tree} {behind : List TokenKind}

/-- Begins with a token of the kind. -/
abbrev BeginsWith (kind : TokenKind) (f : Form) : Prop := Begins (· = kind) f

theorem beginsWith_token (kind : TokenKind) : BeginsWith kind (.token [kind]) :=
  begins_token fun _ hk => List.mem_singleton.mp hk

/-- Begins with what is ahead: a test on the current token holds in front of it. -/
theorem Begins.at? {kind : TokenKind} (h : BeginsWith kind f) : Shows (Form.at? kind) f := by
  intro n ts behind hts
  obtain ⟨k, ks, hk, rfl⟩ := h _ _ _ hts
  simp [Form.at?, hk]

theorem Begins.any {test : TokenKind → Bool} (h : Begins (test · = true) f) :
    Shows (fun ks => ks[0]?.any test) f := by
  intro n ts behind hts
  obtain ⟨k, ks, hk, htest⟩ := h _ _ _ hts
  simpa [hk] using htest

theorem Begins.not_at? {kind : TokenKind} (h : Begins (· ≠ kind) f)
    (hts : Derives n f ts behind) : Form.at? kind (kinds ts ++ behind) = false := by
  obtain ⟨k, ks, hk, hne⟩ := h _ _ _ hts
  simpa [Form.at?, hk] using hne

/-! ### Names -/

theorem beginsWith_name : BeginsWith .ident name := (beginsWith_token _).node _

theorem beginsWith_nameList : BeginsWith .ident nameList := (beginsWith_name.append _).node _

theorem isNameSegment_iff (k : TokenKind) : k.isNameSegment = true ↔ k ∈ segmentKinds := by
  unfold TokenKind.isNameSegment segmentKinds
  split <;> simp_all

/-- Tokens that begin a qualified name, whatever is behind them. -/
def startsQualName (k : TokenKind) : Bool := k.isNameSegment || k == .keyword .thisKw

theorem begins_qualName : Begins (startsQualName · = true) qualName := by
  refine Begins.node ?_ _
  intro n ts behind hts
  obtain ⟨us, vs, rfl, hthis, hrest⟩ := derives_row_cons.mp hts
  obtain ⟨ws, xs, rfl, hsegment, -⟩ := derives_row_cons.mp hrest
  rw [ifAhead, derives_given] at hthis
  split at hthis
  · obtain ⟨us, vs', rfl, hus, -⟩ := derives_append.mp hthis
    obtain ⟨k, text, hk, rfl⟩ := derives_token.mp hus
    obtain rfl := List.mem_singleton.mp hk
    exact ⟨_, _, rfl, rfl⟩
  · obtain rfl := derives_nothing.mp hthis
    obtain ⟨k, text, hk, rfl⟩ := derives_token.mp hsegment
    exact ⟨k, _, rfl, by simp [startsQualName, (isNameSegment_iff k).mpr hk]⟩

/-- In front of a qualified name, the test for one holds. -/
theorem shows_qualName : Shows qualNameAhead qualName := by
  intro n ts behind hts
  obtain ⟨us, rfl, hus⟩ := derives_node.mp hts
  obtain ⟨us, vs, rfl, hthis, hrest⟩ := derives_row_cons.mp hus
  obtain ⟨ws, xs, rfl, hsegment, -⟩ := derives_row_cons.mp hrest
  rw [ifAhead, derives_given] at hthis
  split at hthis
  · obtain ⟨us, vs', rfl, hus, hvs⟩ := derives_append.mp hthis
    obtain ⟨k, text, hk, rfl⟩ := derives_token.mp hus
    obtain ⟨k', text', hk', rfl⟩ := derives_token.mp hvs
    obtain rfl := List.mem_singleton.mp hk
    obtain rfl := List.mem_singleton.mp hk'
    simp [qualNameAhead, Form.at?]
  · obtain rfl := derives_nothing.mp hthis
    obtain ⟨k, text, hk, rfl⟩ := derives_token.mp hsegment
    simp [qualNameAhead, (isNameSegment_iff k).mpr hk]

/-! ### Expressions -/

theorem beginsWith_block : BeginsWith (.punct .lbrace) block :=
  ((beginsWith_token _).append _).node _

theorem beginsWith_quantified (k : TokenKind) : BeginsWith k (quantified k) :=
  ((beginsWith_token k).append _).node _

theorem beginsWith_bindings (kind : NodeKind) (k : TokenKind) : BeginsWith k (bindings kind k) :=
  ((beginsWith_token k).append _).node _

theorem beginsWith_binder (k : TokenKind) : BeginsWith k (binder k) := by
  unfold binder
  split
  · exact beginsWith_bindings _ _
  · exact beginsWith_bindings _ _
  · exact beginsWith_quantified k

theorem beginsWith_parenthesized : BeginsWith (.punct .lparen) parenthesized :=
  ((beginsWith_token _).append _).node _

theorem beginsWith_comprehension : BeginsWith (.punct .lbrace) comprehension :=
  ((beginsWith_token _).append _).node _

theorem startsExpr_of_binder {k : TokenKind}
    (h : isBinderOnly k = true ∨ Operator.quantifiers.contains k = true) :
    Operator.startsExpr k = true := by
  obtain h | h := h
  · unfold isBinderOnly at h
    split at h
    all_goals first | rfl | cases h
  · have hmem := List.contains_iff_mem.mp h
    simp only [Operator.quantifiers, List.mem_cons, List.not_mem_nil, or_false] at hmem
    rcases hmem with rfl | rfl | rfl | rfl | rfl | rfl | rfl <;> rfl

theorem startsExpr_of_frontRow? {k : TokenKind} {row : OperatorRow}
    (h : Operator.frontRow? k = some row) : Operator.startsExpr k = true := by
  unfold Operator.startsExpr
  split
  all_goals first | rfl | simp [h]

theorem startsExpr_of_isNameSegment {k : TokenKind} (h : k.isNameSegment = true) :
    Operator.startsExpr k = true := by
  unfold Operator.startsExpr
  split
  all_goals first | rfl | simp [h]

theorem startsExpr_of_atomForm {k : TokenKind} {second : Option TokenKind} {form : AtomForm}
    (h : AtomForm.ofTokens? (some k) second = some form) : Operator.startsExpr k = true := by
  unfold AtomForm.ofTokens? at h
  split at h
  all_goals first
    | cases h
      done
    | rename_i hk
      obtain rfl := Option.some.inj hk
      rfl

/-- An atom begins with a token that can begin an expression. -/
theorem begins_ofAtom {k : TokenKind} (hk : Operator.startsExpr k = true) (form : AtomForm) :
    Begins (Operator.startsExpr · = true) (ofAtom k form) := by
  have hfirst : Begins (Operator.startsExpr · = true) (.token [k]) :=
    (beginsWith_token k).mono fun k' hk' => by rw [hk', hk]
  cases form with
  | oneToken kind => exact hfirst.node _
  | negativeNumber => exact (hfirst.append _).node _
  | nameRef =>
    refine (begins_qualName.node _).mono fun k' hk' => ?_
    rw [startsQualName, Bool.or_eq_true, beq_iff_eq] at hk'
    obtain hk' | rfl := hk'
    · exact startsExpr_of_isNameSegment hk'
    · rfl
  | atName => exact (hfirst.append _).node _
  | parenthesized =>
    exact beginsWith_parenthesized.mono fun k' hk' => by rw [hk']; rfl
  | braced =>
    exact (beginsWith_comprehension.given beginsWith_block).mono fun k' hk' => by rw [hk']; rfl

theorem begins_operandHead : Begins (Operator.startsExpr · = true) operandHead := by
  intro n ts behind hts
  have hahead := derives_ahead.mp hts
  generalize kinds ts ++ behind = ks at hahead
  cases hk : ks[0]? with
  | none =>
    rw [hk] at hahead
    exact absurd hahead not_derives_never
  | some k =>
    rw [hk] at hahead
    dsimp only at hahead
    split at hahead
    · next hbinder =>
      refine (beginsWith_binder k).mono (fun k' hk' => ?_) _ _ _ hahead
      rw [hk', startsExpr_of_binder]
      simp only [binderAhead, quantifierAhead, atAny, hk, Option.any_some, Bool.or_eq_true,
        Bool.and_eq_true] at hbinder
      exact hbinder.imp_right And.left
    · split at hahead
      · next row hrow =>
        refine (((beginsWith_token k).append _).node _).mono (fun k' hk' => ?_) _ _ _ hahead
        rw [hk', startsExpr_of_frontRow? hrow]
      · split at hahead
        · next form hform => exact begins_ofAtom (startsExpr_of_atomForm hform) form _ _ _ hahead
        · exact absurd hahead not_derives_never

theorem begins_expression (level : Nat) : Begins (Operator.startsExpr · = true) (expression level) :=
  (begins_extended begins_operandHead).append _

theorem begins_exprAt (level : Nat) : Begins (Operator.startsExpr · = true) (exprAt level) := by
  intro n ts behind hts
  obtain ⟨m, -, hts⟩ := derives_part.mp hts
  exact begins_expression level _ _ _ hts

/-- No expression begins with a token that can begin none. -/
theorem begins_exprAt_ne {level : Nat} {kind : TokenKind} (h : Operator.startsExpr kind = false) :
    Begins (· ≠ kind) (exprAt level) :=
  (begins_exprAt level).mono fun k hk hne => by rw [hne, h] at hk; cases hk

end RelLang.Form
