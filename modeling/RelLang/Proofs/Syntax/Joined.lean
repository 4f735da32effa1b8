import RelLang.Proofs.Syntax.Onward

/-!
# Modules one behind the other

What paragraphs begin with and what declarations end with: with that, the declarations of
a module with paragraphs behind them are those of a module.
-/

namespace RelLang

open Grammar
open Tree (kinds)

namespace Form

variable {n : Nat} {f : Form} {ts us : List Tree} {after behind ks : List TokenKind}

/-! ### How paragraphs begin -/

theorem opened_cons {k : TokenKind} (hk : k ∈ openers) (hident : k ≠ .ident)
    (hextension : Operator.extension? k ks[0]? = none) : Opened (k :: ks) where
  first := fun _ hfirst => Option.some.inj hfirst ▸ hk
  extension := by
    have hfirst : (k :: ks)[0]? = some k := rfl
    have hsecond : (k :: ks)[1]? = ks[0]? := rfl
    rw [Operator.extensionOf, hfirst, hsecond, Option.bind_some, hextension, Option.map_none]
  label := fun hlabel => absurd (Option.some.inj (eq_of_beq hlabel)) hident

/-- A paragraph that begins with a keyword that begins nothing else. -/
theorem Begins.opened (hf : Begins (fun k => k ∈ openers ∧ k ∉ .ident :: Operator.arrowMultiplicities) f)
    (hts : f.Derives n ts behind) : Opened (kinds ts ++ ks) := by
  have halone : ∀ k ∈ openers, k ∉ .ident :: Operator.arrowMultiplicities →
      Operator.decidedAlone k = true ∧ Operator.infixRow? k = none := by decide
  obtain ⟨k, ls, hkinds, hopener, hother⟩ := hf _ _ _ hts
  obtain ⟨hk, hrow⟩ := halone k hopener hother
  rw [hkinds, List.cons_append]
  refine opened_cons hopener (fun hident => hother (hident ▸ List.mem_cons_self)) ?_
  rw [Operator.extension?_of_decidedAlone hk, hrow, Option.map_none]

theorem opened_cmdDecl (hts : cmdDecl.Derives n ts behind) : Opened (kinds ts ++ ks) := by
  obtain ⟨parts, rfl, hparts⟩ := derives_node.mp hts
  obtain ⟨label, rest, rfl, hlabel, hrest⟩ := derives_row_cons.mp hparts
  rw [Tree.kinds_node_cons, Tree.kinds_nil, List.append_nil, Tree.kinds_append]
  rw [ifAhead, derives_given] at hlabel
  split at hlabel
  · obtain ⟨name, colon, rfl, hname, hcolon⟩ := derives_append.mp hlabel
    obtain ⟨ident, rfl, hident⟩ := derives_node.mp hname
    obtain ⟨_, _, hmem, rfl⟩ := derives_token.mp hident
    obtain ⟨_, _, hmem', rfl⟩ := derives_token.mp hcolon
    obtain rfl := List.mem_singleton.mp hmem
    obtain rfl := List.mem_singleton.mp hmem'
    have hopener : .ident ∈ openers := by decide
    exact ⟨fun k hk => Option.some.inj hk ▸ hopener, rfl, fun _ => rfl⟩
  · obtain rfl := derives_nothing.mp hlabel
    exact ((begins_token (by decide)).append _).opened hrest

/-- What signatures begin with. -/
def sigOpeners : List TokenKind :=
  [.keyword .sigKw, .keyword .varKw, .keyword .abstractKw] ++ Operator.sigMultiplicities

theorem begins_sigModifier : Begins (· ∈ sigOpeners) sigModifier :=
  (begins_token (by decide)).either ((begins_token (by decide)).node _)

theorem begins_sigModifiers (g : Form) :
    Begins (· ∈ sigOpeners) (many sigModifier ++ (token [.keyword .sigKw] ++ g)) := by
  intro n ts behind hts
  obtain hts | hts := derives_many_append.mp hts
  · exact (begins_token (by decide)).append g _ _ _ hts
  · exact begins_sigModifier.append _ _ _ _ hts

theorem opened_sigDecl (hts : sigDecl.Derives n ts behind) : Opened (kinds ts ++ ks) := by
  have hpair : ∀ k ∈ sigOpeners, ∀ l ∈ sigOpeners, Operator.extension? k (some l) = none := by decide
  have hopeners : ∀ k ∈ sigOpeners, k ∈ openers ∧ k ≠ .ident := by decide
  have hkeywords : ∀ k ∈ [.keyword .varKw, .keyword .abstractKw], k ∈ sigOpeners := by decide
  obtain ⟨parts, rfl, hparts⟩ := derives_node.mp hts
  rw [Tree.kinds_node_cons, Tree.kinds_nil, List.append_nil]
  obtain hsig | hmodified := derives_many_append.mp hparts
  · exact ((begins_token (by decide)).append _).opened hsig
  · obtain ⟨modifier, rest, rfl, hmodifier, hrest⟩ := derives_append.mp hmodified
    obtain ⟨l, ls, hrestKinds, hl⟩ := begins_sigModifiers _ _ _ _ hrest
    have htoken : ∃ k, kinds modifier = [k] ∧ k ∈ sigOpeners := by
      obtain hkeyword | hmult := derives_either.mp hmodifier
      · obtain ⟨k, text, hk, rfl⟩ := derives_token.mp hkeyword
        exact ⟨k, rfl, hkeywords k hk⟩
      · obtain ⟨mult, rfl, htoken⟩ := derives_node.mp hmult
        obtain ⟨k, text, hk, rfl⟩ := derives_token.mp htoken
        exact ⟨k, rfl, List.mem_append_right _ hk⟩
    obtain ⟨k, hkinds, hk⟩ := htoken
    rw [Tree.kinds_append, hkinds, hrestKinds]
    exact opened_cons (hopeners k hk).1 (hopeners k hk).2 (hpair k hk l hl)

/-- What paragraphs begin with, whatever is behind them. -/
theorem opened_paragraph (hts : paragraph.Derives n ts behind) (ks : List TokenKind) :
    Opened (kinds ts ++ ks) := by
  have hahead := derives_ahead.mp hts
  split at hahead
  · next start _ =>
    cases start with
    | sig => exact opened_sigDecl hahead
    | command => exact opened_cmdDecl hahead
    | assertion =>
      have hword : ∀ b, Begins (fun k => k ∈ openers ∧ k ∉ .ident :: Operator.arrowMultiplicities)
          (assertion b) := fun b => (beginsWith_assertion b).mono fun k hk => hk ▸ by decide
      exact ((hword true).either (hword false)).opened hahead
    | testExpect =>
      exact (((begins_token (by decide)).ifAhead_append
        ((begins_token (by decide)).append _)).node _).opened hahead
    | sexpr => exact ((begins_token (by decide)).node _).opened hahead
    | _ => exact (((begins_token (by decide)).append _).node _).opened hahead
  · exact absurd hahead not_derives_never

/-- A paragraph is more than names. -/
theorem Opened.fenced (h : Opened after) (hne : after ≠ []) : Fenced after := by
  have hopeners : ∀ k ∈ openers, k = .ident ∨ k ∉ [.ident, .punct .comma, .keyword .disjKw] := by decide
  obtain ⟨k, ks, rfl⟩ := List.exists_cons_of_ne_nil hne
  obtain rfl | hk := hopeners k (h.first k rfl)
  · have hcolon : ks[0]? = some (.punct .colon) := h.label rfl
    exact ⟨_, List.mem_cons_of_mem _ (List.mem_of_getElem? hcolon), by decide⟩
  · exact ⟨k, List.mem_cons_self, hk⟩

theorem turns_paragraph : Turns n Loose paragraph Loose := by
  intro ts ks behind _ hts
  exact .inr ((opened_paragraph hts ks).fenced
    (List.append_ne_nil_of_left_ne_nil (begins_paragraph.kinds_ne_nil hts) ks))

theorem Turns.many {P : List TokenKind → Prop} (hturn : Turns n P f P) : Turns n P (many f) P := by
  intro ts ks behind hks hts
  refine hts.many_induction (p := fun ts => P (kinds ts ++ ks)) hks fun us vs hus hvs => ?_
  rw [Tree.kinds_append, List.append_assoc]
  exact hturn us _ _ hvs hus

theorem opened_paragraphs (hts : (many paragraph).Derives n ts []) : Opened (kinds ts) := by
  obtain rfl | ⟨us, vs, rfl, hus, -⟩ := derives_many.mp hts
  · exact opened_nil
  · rw [Tree.kinds_append]
    exact opened_paragraph hus _

/-! ### How declarations end -/

theorem begins_anyBlock : Begins (fun _ => True) block := beginsWith_block.mono fun _ _ => trivial

theorem settles_typescopes : Settles n typescopes := by
  have hitem : Settles n typescope := (settles_qualName.last begins_anyQualName [_, _]).node _
  have hbegins : Begins (fun _ => True) typescope :=
    (((begins_anyToken _).append _).appendRight _).node _
  exact hitem.append (.whileAhead (hitem.behind hbegins _))

theorem settles_scope : Settles n scope := by
  have hdefault : Settles n (token [.number]
      ++ ifAhead (at? (.keyword .butKw)) (token [.keyword .butKw] ++ typescopes)) :=
    (settles_token (by decide)).append (.ifAhead (settles_typescopes.behind begins_anyTypescopes _))
  exact ((settles_typescopes.given hdefault).behind
    (begins_anyTypescopes.given ((begins_anyToken _).append _)) _).node _

theorem begins_bounds : Begins (fun _ => True) bounds :=
  ((((begins_anyToken _).append _).given begins_anyQualName).appendRight _).node _

theorem settles_bounds : Settles n bounds := by
  have hbraces : Settles n (row [token [.punct .lbrace], many bound, token [.punct .rbrace]]) :=
    (settles_token (by decide)).last (begins_anyToken _) [_, _]
  exact ((hbraces.given settles_qualName).behind
    (((begins_anyToken _).append _).given begins_anyQualName) _).node _

theorem settles_scopeAndBounds : Settles n scopeAndBounds :=
  settles_scope.ifAhead.append (settles_bounds.behind begins_bounds _).ifAhead

theorem settles_cmdDecl : Settles n cmdDecl := by
  have htarget : Settles n optionalTarget := settles_qualName.given settles_block.ifAhead
  exact (((settles_token (by decide)).append (htarget.append settles_scopeAndBounds)).behind
    ((begins_anyToken _).append _) _).node _

theorem settles_instDecl : Settles n instDecl :=
  ((settles_bounds.append settles_scope.ifAhead).last (begins_bounds.append _) [_, _]).node _

theorem settles_optionalArguments : Settles n optionalArguments :=
  ((settles_token (by decide)).last (begins_anyToken _) [_, _]).ifAhead

theorem settles_result {others : List TokenKind} (h : ∀ k ∈ others, k ∈ closing) :
    Settles n (result others) :=
  ((settles_token (by decide)).append (settles_token (by decide)).ifAhead).given (settles_token h)

theorem settles_ofAssertion (form : AssertionForm) : Settles n (ofAssertion form) := by
  have hnamed : ∀ {allowed word f}, Settles n f →
      Settles n (row [token allowed, token [word], name ++ f]) := fun hf =>
    (settles_name.append hf).last (((begins_anyToken _).node _).append _) [_, _]
  cases form with
  | property => exact hnamed settles_scopeAndBounds
  | quantifiedProperty => exact hnamed (settles_optionalArguments.append settles_scopeAndBounds)
  | satisfiability => exact (settles_result (by decide)).append settles_scopeAndBounds
  | consistency => exact hnamed settles_scopeAndBounds

theorem begins_ofAssertion (form : AssertionForm) : Begins (fun _ => True) (ofAssertion form) := by
  cases form with
  | satisfiability => exact (((begins_anyToken _).append _).given (begins_anyToken _)).append _
  | _ => exact (begins_anyToken _).append _

theorem settles_asserted (body : Asserted) : Settles n (asserted body) := by
  have hyields : ∀ {α : Type} [DecidableEq α] {a b : α} {f}, Settles n f → Settles n (yields a f b) := by
    intro α _ a b f hf
    unfold yields
    split
    · exact hf
    · exact settles_token nofun
  have hblock : Settles n (assertedBlock body) := by
    refine ((settles_extended settles_exprAt settles_block 0).append settles_look).append ?_
    intro ts behind hts
    have hend := derives_ahead.mp hts
    exact hyields settles_nothing _ _ hend
  have huniversal : Settles n universal :=
    (settles_binderBody settles_exprAt).last begins_anyBinderBody [_, _]
  have hdeclared : Settles n (assertedUniversal body) := by
    cases body with
    | plain => exact settles_token nofun
    | expression => exact (huniversal.node _).append settles_look
    | quantified => exact huniversal.append settles_look
  exact (hyields (settles_name.append settles_block)).given
    (hblock.given (hdeclared.given (hyields (settles_exprAt 0))))

theorem begins_asserted (body : Asserted) : Begins (fun _ => True) (asserted body) := by
  have hyields : ∀ {α : Type} [DecidableEq α] {a b : α} {f}, Begins (fun _ => True) f →
      Begins (fun _ => True) (yields a f b) := by
    intro α _ a b f hf
    unfold yields
    split
    · exact hf
    · exact begins_never
  have hdeclared : Begins (fun _ => True) (assertedUniversal body) := by
    cases body with
    | plain => exact begins_never
    | expression => exact (((begins_anyToken _).append _).node _).append _
    | quantified => exact ((begins_anyToken _).append _).append _
  exact (hyields (((begins_anyToken _).node _).append _)).given
    ((((begins_extended begins_anyBlock).append _).append _).given
      (hdeclared.given (hyields (begins_anyExpr 0))))

theorem settles_tagged (body : Asserted) (form : AssertionForm) : Settles n (tagged body form) := by
  have hrest : Settles n (given (tagAhead (body == .quantified) form)
      (token [.keyword .isKw] ++ ofAssertion form) never) :=
    ((settles_ofAssertion form).behind (begins_ofAssertion form) _).given (settles_token nofun)
  exact (hrest.behind (((begins_anyToken _).append _).given begins_never) _).node _

theorem settles_admitted : Settles n (assertion true) :=
  (settles_tagged _ _).either ((settles_tagged _ _).either ((settles_tagged _ _).either
    ((settles_tagged _ _).either (settles_token nofun))))

theorem settles_assertDecl : Settles n (assertion false) :=
  ((settles_asserted .plain).behind (begins_asserted .plain) _).node _

theorem settles_sigDecl : Settles n sigDecl := by
  have hfields : Settles n fieldList := ((settles_token (by decide)).last (begins_anyToken _) [_, _]).node _
  exact ((hfields.append settles_block.ifAhead).last
    ((((begins_anyToken _).append _).node _).append _) [_, _, _, _]).node _

theorem settles_testBlock : Settles n (testBlock f) :=
  ((settles_token (by decide)).last (begins_anyToken _) [_, _]).node _

theorem begins_testBlock : Begins (fun _ => True) (testBlock f) :=
  ((begins_anyToken _).append _).node _

theorem settles_optionDecl : Settles n optionDecl := by
  have hvalue : Settles n optionValue :=
    (settles_token (by decide)).given
      (((settles_token (by decide)).behind (begins_anyToken _) _).given settles_qualName)
  have hbegins : Begins (fun _ => True) optionValue :=
    (begins_anyToken _).given (((begins_anyToken _).append _).given begins_anyQualName)
  exact (hvalue.last hbegins [_, _]).node _

theorem settles_paragraph : Settles n paragraph := by
  intro ts behind hts
  have hahead := derives_ahead.mp hts
  split at hahead
  · next start _ =>
    refine (?_ : Settles n (ofParagraph start)) ts behind hahead
    cases start with
    | sig => exact settles_sigDecl
    | pred => exact (settles_block.last begins_anyBlock [_, _, _, _, _]).node _
    | func => exact (settles_block.last begins_anyBlock [_, _, _, _, _, _, _]).node _
    | fact => exact (settles_block.last begins_anyBlock [_, _]).node _
    | assertion => exact settles_admitted.either settles_assertDecl
    | command => exact settles_cmdDecl
    | testSuite => exact (settles_testBlock.last begins_testBlock [_, _, _, _]).node _
    | testExpect => exact (settles_testBlock.last begins_testBlock [_, _, _]).node _
    | exampleTest => exact (settles_bounds.last begins_bounds [_, _, _, _, _]).node _
    | inst => exact settles_instDecl
    | option => exact settles_optionDecl
    | sexpr => exact (settles_token (by decide)).node _
  · exact absurd hahead not_derives_never

theorem settles_moduleDecl : Settles n moduleDecl := by
  have hbracket : Settles n (row [token [.punct .lbracket], nameList, token [.punct .rbracket]]) :=
    (settles_token (by decide)).last (begins_anyToken _) [_, _]
  exact ((settles_qualName.append hbracket.ifAhead).behind (begins_anyQualName.append _) _).node _

theorem settles_importDecl : Settles n importDecl := by
  have hbracket : Settles n
      (row [token [.punct .lbracket], qualNameList, token [.punct .rbracket]]) :=
    (settles_token (by decide)).last (begins_anyToken _) [_, _]
  have htarget : Settles n importTarget :=
    (settles_qualName.append hbracket.ifAhead).given (settles_token (by decide))
  have hbegins : Begins (fun _ => True) importTarget :=
    (begins_anyQualName.append _).given (begins_anyToken _)
  have hrenamed : Settles n (ifAhead (at? (.keyword .asKw)) (token [.keyword .asKw] ++ name)) :=
    (settles_name.behind ((begins_anyToken _).node _) _).ifAhead
  exact ((htarget.append hrenamed).behind (hbegins.append _) _).node _

/-! ### Declarations with paragraphs behind them -/

/-- The declarations of a module without evaluations. -/
def withoutEvals : Form :=
  row [ifAhead (at? (.keyword .moduleKw)) moduleDecl, many importDecl, many paragraph]

theorem settles_withoutEvals : Settles n withoutEvals :=
  settles_moduleDecl.ifAhead.append (settles_importDecl.many.append settles_paragraph.many)

theorem onward_withoutEvals (h : Opened after) : Onward after n Loose withoutEvals := by
  have himports : Onward after n (fun _ => True) (many importDecl) :=
    Stays.many (onward_importDecl h) turns_anything
  have hparagraphs : Onward after n Loose (many paragraph) :=
    (onward_paragraph h).many turns_paragraph.many
  exact Onward.followedBy (.ifAhead (h.same_at? (by decide)) (onward_moduleDecl h))
    (Onward.followedBy himports hparagraphs)

/-- Paragraphs behind the declarations of a module are more of its declarations, unless the first
is taken for a part of the last one. -/
theorem Derives.joined (hts : withoutEvals.Derives n ts []) (hus : (many paragraph).Derives n us [])
    (hlabel : at? .ident (kinds us) = true → ¬ TakesName (kinds ts)) :
    sourceFile.Derives n (ts ++ us) [] := by
  have hover : Over (kinds us) (kinds ts) := ⟨settles_withoutEvals _ _ hts, hlabel⟩
  have hfront : withoutEvals.Derives n ts (kinds us) := by
    have hends : Endings (Over (kinds us)) (kinds ts ++ []) := by
      rw [List.append_nil]
      exact hover.endings
    exact onward_withoutEvals (opened_paragraphs hus) ts [] (.inl rfl) hends hts
  obtain ⟨header, rest, rfl, hheader, hrest⟩ := derives_row_cons.mp hfront
  obtain ⟨imports, paragraphs, rfl, himports, hparagraphs⟩ := derives_append.mp hrest
  have hbody : (many paragraph).Derives n (paragraphs ++ us) [] := by
    have hfirst : (many paragraph).Derives n paragraphs (kinds us ++ []) := by rwa [List.append_nil]
    exact hfirst.many_append hus
  have hdeclarations : (declarations {}).Derives n (imports ++ paragraphs ++ us) [] := by
    rw [List.append_assoc]
    refine derives_append.mpr ⟨imports, _, rfl, ?_, .left hbody⟩
    rwa [Tree.kinds_append, List.append_nil]
  rw [List.append_assoc]
  refine derives_row_cons.mpr ⟨header, _, rfl, ?_, hdeclarations.then_look rfl⟩
  rwa [Tree.kinds_append, List.append_nil]

end Form
end RelLang
