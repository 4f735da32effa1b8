import RelLang.Proofs.Syntax.Carry

/-!
# Modules with `this/` in front of names

The declarations of a module carry the prefixes like the expressions and bounds in them.
Most tests of theirs look for a keyword; those for a label, for a receiver and for the
name of a predicate or an assertion are shown by what is read behind them.
-/

namespace RelLang

open Grammar
open Tree (kinds PrefixedAll)

namespace Form

variable {n : Nat}

theorem carries_part (symbol : Nonterminal) : Carries n (.part symbol) := carries_part_keeps.1 symbol

theorem carries_anyExpr : Carries n expr := carries_part _

theorem carries_anyBlock : Carries n block := carries_block carries_part

theorem carries_anyBounds : Carries n bounds := carries_bounds carries_part

/-- A keyword is no segment of a name, and is not `this`. -/
theorem even_keyword {kind : TokenKind} (h : kind ∉ .keyword .thisKw :: segmentKinds) :
    Even (at? kind) := by
  rw [List.mem_cons, not_or] at h
  exact even_at? h.2 h.1

/-- A declared name, if one is ahead. -/
theorem carries_optionalName : Carries n (ifAhead (at? .ident) name) :=
  .ifShown reflected_ident shows_name carries_name

/-! ### Commands -/

theorem carries_typescopes : Carries n typescopes := by
  have hitem : Carries n typescope :=
    ((carries_optional (by decide)).append (carries_token.append carries_qualName)).node _ nofun
  exact hitem.append (.whileAhead even_commaTypescope (carries_token.append hitem))

theorem carries_scope : Carries n scope :=
  (carries_token.append (.given even_typescopeAhead carries_typescopes (carries_token.append
    (.ifAhead (even_keyword (by decide)) (carries_token.append carries_typescopes))))).node _ nofun

theorem carries_scopeAndBounds : Carries n scopeAndBounds :=
  .append (.ifAhead even_scopeAhead carries_scope)
    (.ifAhead (even_keyword (by decide)) (carries_token.append carries_anyBounds))

theorem carries_optionalTarget : Carries n optionalTarget :=
  .given even_qualNameAhead carries_qualName (.ifAhead (even_punct _) carries_anyBlock)

theorem carries_label : Carries n (name ++ token [.punct .colon]) := carries_name.append carries_token

theorem carries_cmdDecl : Carries n cmdDecl :=
  (Carries.append (.ifShown reflected_ident (shows_name.append _) carries_label)
    (carries_token.append (carries_optionalTarget.append carries_scopeAndBounds))).node _ nofun

theorem carries_instDecl : Carries n instDecl :=
  (carries_token.append (carries_name.append (carries_anyBounds.append
    (.ifAhead even_scopeAhead carries_scope)))).node _ nofun

/-! ### Assertions -/

theorem carries_result {others : List TokenKind} : Carries n (result others) :=
  .given (even_keyword (by decide)) (carries_token.append (carries_optional (by decide))) carries_token

theorem carries_ofAssertion (form : AssertionForm) : Carries n (ofAssertion form) := by
  have harguments : Carries n optionalArguments :=
    .ifAhead (even_punct _) (carries_token.append (.append (carries_arguments carries_part)
      carries_token))
  cases form with
  | property | consistency =>
    exact carries_token.append (carries_token.append (carries_name.append carries_scopeAndBounds))
  | quantifiedProperty =>
    exact carries_token.append (carries_token.append (carries_name.append
      (harguments.append carries_scopeAndBounds)))
  | satisfiability => exact carries_result.append carries_scopeAndBounds

theorem carries_universal : Carries n universal :=
  carries_token.append ((carries_quantDecls carries_part).append (carries_binderBody carries_part))

theorem carries_assertedBlock (body : Asserted) : Carries n (assertedBlock body) := by
  have hextended : Carries n (.extended 0 block) :=
    carries_extended carries_part carries_part_keeps.2 0 carries_anyBlock
  refine (hextended.append (carries_look (even_stopsAt 0))).append (.ahead (fun ks => ?_) ?_)
  · exact carries_nothing.yields
  · intro ks ks' hks
    have hsame : at? (.keyword .isKw) ks' = at? (.keyword .isKw) ks :=
      even_keyword (by decide) ks ks' hks
    simp only [hsame]

theorem carries_assertedUniversal (body : Asserted) : Carries n (assertedUniversal body) := by
  cases body with
  | plain => exact carries_token
  | expression =>
    exact (carries_universal.node .quantExpr nofun).append
      (carries_lookNot even_propertyAhead.reflected)
  | quantified => exact carries_universal.append (carries_look even_propertyAhead)

theorem shows_assertedUniversal (body : Asserted) :
    Shows universalAhead (assertedUniversal body) := by
  cases body with
  | plain => exact fun _ _ _ h => absurd h not_derives_never
  | expression => exact (shows_universal.node _).append _
  | quantified => exact shows_universal.append _

/-- A block is told from a comprehension by the declaration behind the brace, which is declared
in the comprehension. -/
theorem carries_assertedRest (body : Asserted) : Carries n
    (given blockAhead (assertedBlock body) <|
      given universalAhead (assertedUniversal body) (yields .expression expr body)) := by
  intro ts us ks ks' hus hks h
  have hls := (prefixed_kindsAll hus).append hks
  rw [derives_given] at h ⊢
  split at h
  · next hyes =>
    obtain ⟨hbrace, hno⟩ := Bool.and_eq_true_iff.mp hyes
    rw [Bool.not_eq_true', Bool.eq_false_iff] at hno
    have hno' : ¬ declarationBehind (kinds us ++ ks') = true :=
      mt (reflected_declarationBehind _ _ hls) hno
    rw [if_pos]
    · exact carries_assertedBlock body _ _ _ _ hus hks h
    · rw [blockAhead, even_punct .lbrace _ _ hls, hbrace, Bool.eq_false_iff.mpr hno']
      rfl
  · next hno =>
    rw [if_neg]
    · exact Carries.givenShown reflected_universalAhead (shows_assertedUniversal body)
        (carries_assertedUniversal body) carries_anyExpr.yields _ _ _ _ hus hks h
    · intro hyes
      obtain ⟨hbrace, hblock⟩ := Bool.and_eq_true_iff.mp hyes
      rw [even_punct .lbrace _ _ hls] at hbrace
      have hdeclaration : declarationBehind (kinds ts ++ ks) = true := by
        simpa [blockAhead, hbrace] using hno
      have hnotAll : universalAhead (kinds ts ++ ks) = false := by
        rw [universalAhead, at?, eq_of_beq hbrace]
        rfl
      rw [derives_given, hnotAll, if_neg Bool.false_ne_true] at h
      have hahead := carries_part_keeps.2 _ .comprehension 0 _ _ _ _ hus hks (derives_yields.mp h).2
        (Bool.and_eq_true_iff.mpr ⟨hbrace, hdeclaration⟩)
      rw [(Bool.and_eq_true_iff.mp hahead).2] at hblock
      cases hblock

theorem carries_assertionHead (body : Asserted) : Carries n (assertionHead body) :=
  carries_token.append (.givenShown reflected_namedBlockAhead shows_namedBlockAhead.yields
    (carries_name.append carries_anyBlock).yields (carries_assertedRest body))

theorem carries_assertion (admitted : Bool) : Carries n (assertion admitted) := by
  have htagged : ∀ body form, Carries n (tagged body form) := by
    intro body form
    have hnode : form.node ≠ .qualName := by cases form <;> nofun
    exact ((carries_assertionHead body).append (.given (even_tagAhead _ _)
      (carries_token.append (carries_ofAssertion form)) carries_token)).node _ hnode
  cases admitted with
  | true =>
    refine carries_anyOf ?_
    simp only [List.mem_cons, List.not_mem_nil, or_false, forall_eq_or_imp, forall_eq]
    exact ⟨htagged _ _, htagged _ _, htagged _ _, htagged _ _⟩
  | false => exact (carries_assertionHead .plain).node _ nofun

/-! ### Predicates -/

/-- The segments of a name in front of a dot. -/
theorem segmentsAhead_of_segments {ts : List Tree} {ks : List TokenKind}
    (h : Derives n segments ts ks) (hdot : at? (.punct .dot) ks = true) :
    segmentsAhead (kinds ts ++ ks) = true := by
  obtain ⟨first, more, rfl, hfirst, hmore⟩ := derives_append.mp h
  obtain ⟨k, text, hk, rfl⟩ := derives_token.mp hfirst
  obtain ⟨hmore, -⟩ := derives_append_look.mp hmore
  have hdotEnd : segmentsEndInDot (kinds more ++ ks) = true := by
    refine hmore.many_induction (p := fun ts => segmentsEndInDot (kinds ts ++ ks) = true) ?_ ?_
    · obtain ⟨k, ks, rfl⟩ := List.exists_cons_of_ne_nil (l := ks) (by rintro rfl; cases hdot)
      obtain rfl := Option.some.inj (eq_of_beq hdot)
      rfl
    · intro us vs hus hvs
      obtain ⟨-, hus⟩ := derives_look_append.mp hus
      obtain ⟨slash, segment, rfl, hslash, hsegment⟩ := derives_append.mp hus
      obtain ⟨k, text, hk, rfl⟩ := derives_token.mp hslash
      obtain rfl := List.mem_singleton.mp hk
      obtain ⟨k, text, hk, rfl⟩ := derives_token.mp hsegment
      simpa [segmentsEndInDot, (isNameSegment_iff k).mpr hk] using hvs
  simpa [segmentsAhead, (isNameSegment_iff k).mpr hk] using hdotEnd

theorem shows_receiverAhead : Shows receiverAhead (qualName ++ token [.punct .dot]) := by
  intro n ts behind hts
  obtain ⟨name, dot, rfl, hname, hdot⟩ := derives_append.mp hts
  have hbehind := (beginsWith_token (.punct .dot)).at? _ _ _ hdot
  obtain ⟨parts, rfl, -⟩ := derives_node.mp hname
  rw [Tree.kinds_append, List.append_assoc, Tree.kinds_node_cons, Tree.kinds_nil, List.append_nil]
  obtain hsegments | ⟨a, b, us, rfl, hsegments⟩ := derives_qualName.mp hname
  · have hahead := segmentsAhead_of_segments hsegments hbehind
    obtain ⟨k, ks, hkinds, hk⟩ := begins_segments _ _ _ hsegments
    rw [hkinds] at hahead ⊢
    exact (receiverAhead_of_segment hk _).trans hahead
  · simpa [receiverAhead] using segmentsAhead_of_segments hsegments hbehind

theorem carries_optionalReceiver : Carries n optionalReceiver :=
  .ifShown reflected_receiverAhead (shows_receiverAhead.node _)
    ((carries_qualName.append carries_token).node _ nofun)

theorem Carries.commaList {item : Form} (h : Carries n item) : Carries n (commaList item) :=
  (h.append carries_token).many.append (h.either carries_nothing)

theorem carries_optionalParaDecls : Carries n optionalParaDecls := by
  have hitem : Carries n paraDecl := carries_declaration carries_part _ nofun
  have hlist : ∀ {a b : List TokenKind},
      Carries n (row [token a, Form.commaList paraDecl, token b]) := 
    carries_token.append (hitem.commaList.append carries_token)
  exact .ifAhead (even_atAny (by decide)) ((Carries.given (even_punct _) hlist hlist).node _ nofun)

theorem carries_predDecl : Carries n predDecl := by
  have htype : Carries n
      (ifAhead (at? (.keyword .wheatKw)) (node .predType (token [.keyword .wheatKw]))) :=
    .ifAhead (even_keyword (by decide)) (carries_token.node _ nofun)
  exact (carries_token.append (htype.append (carries_optionalReceiver.append (carries_name.append
    (carries_optionalParaDecls.append carries_anyBlock))))).node _ nofun

theorem carries_funDecl : Carries n funDecl :=
  (carries_token.append (carries_optionalReceiver.append (carries_name.append
    (carries_optionalParaDecls.append (carries_token.append ((carries_optionalMult (by decide)).append
      (carries_anyExpr.append carries_anyBlock))))))).node _ nofun

theorem carries_factDecl : Carries n factDecl :=
  (carries_token.append (carries_optionalName.append carries_anyBlock)).node _ nofun

/-! ### Signatures -/

theorem carries_sigExt : Carries n sigExt :=
  (Carries.given (even_keyword (by decide))
    (carries_token.append (carries_qualName.append (.separated carries_qualName)))
    (carries_token.append carries_qualName)).node _ nofun

theorem carries_fieldList : Carries n fieldList := by
  have hfield : Carries n fieldDecl :=
    ((carries_optional (by decide)).append (carries_nameList.append (carries_token.append
      ((carries_optionalMult (by decide)).append (carries_part _))))).node _ nofun
  exact (carries_token.append (hfield.commaList.append carries_token)).node _ nofun

theorem carries_sigDecl : Carries n sigDecl := by
  have hmodifier : Carries n sigModifier := carries_token.either (carries_token.node _ nofun)
  exact (hmodifier.many.append (carries_token.append (carries_nameList.append (.append
    (.ifAhead (even_atAny (by decide)) carries_sigExt) (carries_fieldList.append
      (.ifAhead (even_punct _) carries_anyBlock)))))).node _ nofun

/-! ### Tests -/

theorem carries_testDecl : Carries n testDecl :=
  (Carries.append (.ifShown reflected_labelAhead shows_labelAhead carries_label)
    (carries_optionalTarget.append (carries_scopeAndBounds.append
      (carries_token.append carries_result)))).node _ nofun

theorem Carries.testBlock {item : Form} (h : Carries n item) : Carries n (testBlock item) :=
  (carries_token.append (h.many.append carries_token)).node _ nofun

theorem carries_testExpectDecl : Carries n testExpectDecl := by
  have hitem : Carries n testItem := .given even_testAhead carries_testDecl carries_token
  exact ((carries_optional (by decide)).append (carries_token.append
    (carries_optionalName.append hitem.testBlock))).node _ nofun

theorem carries_exampleDecl : Carries n exampleDecl :=
  (carries_token.append (carries_name.append (carries_token.append (carries_anyExpr.append
    (carries_token.append carries_anyBounds))))).node _ nofun

theorem carries_testSuiteDecl : Carries n testSuiteDecl := by
  have hitem : Carries n suiteItem := by
    refine carries_anyOf ?_
    simp only [List.mem_cons, List.not_mem_nil, or_false, forall_eq_or_imp, forall_eq]
    exact ⟨carries_exampleDecl, carries_testExpectDecl, carries_assertion true⟩
  exact (carries_token.append (carries_token.append (carries_token.append
    (carries_name.append hitem.testBlock)))).node _ nofun

/-! ### Modules -/

theorem carries_moduleDecl : Carries n moduleDecl :=
  (carries_token.append (carries_qualName.append (.ifAhead (even_punct _)
    (carries_token.append (carries_nameList.append carries_token))))).node _ nofun

theorem carries_importDecl : Carries n importDecl := by
  have htarget : Carries n importTarget :=
    .given even_qualNameAhead (carries_qualName.append (.ifAhead (even_punct _)
      (carries_token.append (carries_qualNameList.append carries_token)))) carries_token
  exact (carries_token.append (htarget.append (.ifAhead (even_keyword (by decide))
    (carries_token.append carries_name)))).node _ nofun

theorem carries_optionDecl : Carries n optionDecl := by
  have hvalue : Carries n optionValue :=
    .given (even_atAny (by decide)) carries_token
      (.given (even_punct _) (carries_token.append carries_token) carries_qualName)
  exact (carries_token.append (carries_qualName.append hvalue)).node _ nofun

theorem carries_evalDecl : Carries n evalDecl := (carries_token.append carries_anyExpr).node _ nofun

theorem carries_ofParagraph (start : ParagraphStart) : Carries n (ofParagraph start) := by
  cases start with
  | sig => exact carries_sigDecl
  | pred => exact carries_predDecl
  | func => exact carries_funDecl
  | fact => exact carries_factDecl
  | assertion => exact (carries_assertion true).either (carries_assertion false)
  | command => exact carries_cmdDecl
  | testSuite => exact carries_testSuiteDecl
  | testExpect => exact carries_testExpectDecl
  | exampleTest => exact carries_exampleDecl
  | inst => exact carries_instDecl
  | option => exact carries_optionDecl
  | sexpr => exact carries_token.node _ nofun

theorem begins_cmdDecl : Begins (· ∈ [.ident, .keyword .runKw, .keyword .checkKw]) cmdDecl := by
  have hlabel : Begins (· ∈ [.ident, .keyword .runKw, .keyword .checkKw])
      (name ++ token [.punct .colon]) :=
    (beginsWith_name.mono fun _ hk => hk ▸ List.mem_cons_self).append _
  exact (hlabel.ifAhead_append ((begins_token (by decide)).append _)).node _

/-- Behind the first token nothing of what begins a paragraph is a segment of a name. -/
theorem ofTokens?_prefixed {k : TokenKind} {ks ks' : List TokenKind} (hks : Prefixed ks ks') :
    ParagraphStart.ofTokens? (some k) ks'[0]? ks'[1]?
      = ParagraphStart.ofTokens? (some k) ks[0]? ks[1]? := by
  refine even_second (ParagraphStart.ofTokens? (some k)) ?_ ?_ ks ks' hks
  · refine forall_segmentKinds.mpr ⟨?_, ?_, ?_⟩ <;>
    · intro b
      unfold ParagraphStart.ofTokens?
      split <;> rfl
  · refine forall_segmentKinds.mpr ⟨?_, ?_, ?_⟩ <;>
    · intro a
      unfold ParagraphStart.ofTokens?
      split <;> rfl

/-- A paragraph that begins with a segment of a name begins with a label. -/
theorem command_of_segment {second third : Option TokenKind} {start : ParagraphStart} :
    ∀ k ∈ segmentKinds, ParagraphStart.ofTokens? (some k) second third = some start →
      start = .command := by
  refine forall_segmentKinds.mpr ⟨fun h => ?_, nofun, nofun⟩
  unfold ParagraphStart.ofTokens? at h
  dsimp only at h
  split at h
  · exact (Option.some.inj h).symm
  · cases h

theorem carries_paragraph : Carries n paragraph := by
  intro ts us ks ks' hus hks h
  have hls := (prefixed_kindsAll hus).append hks
  unfold paragraph at h ⊢
  rw [derives_ahead] at h ⊢
  split at h
  · next start hstart =>
    have hcarried := carries_ofParagraph start _ _ _ _ hus hks h
    have hstart' : ParagraphStart.ofTokens? (kinds us ++ ks')[0]? (kinds us ++ ks')[1]?
        (kinds us ++ ks')[2]? = some start := by
      generalize kinds ts ++ ks = ls at hls hstart
      generalize hcurrent : kinds us ++ ks' = ls' at hls ⊢
      cases hls with
      | nil => cases hstart
      | cons rest => exact (ofTokens?_prefixed rest).trans hstart
      | this hk =>
        -- the segment would be a label, in front of which nothing is added
        obtain rfl := command_of_segment _ hk hstart
        obtain ⟨k, ks, hkinds, hk⟩ := begins_cmdDecl _ _ _ hcarried
        rw [hkinds] at hcurrent
        obtain rfl := (List.cons.inj hcurrent).1
        exact absurd hk (by decide)
    rwa [hstart']
  · exact absurd h not_derives_never

theorem carries_declarations (seen : Seen) : Carries n (declarations seen) := by
  have hmixed : Carries n (many (either importDecl evalDecl)) :=
    (carries_importDecl.either carries_evalDecl).many
  unfold declarations
  split
  · exact carries_paragraph.many
  split
  · exact hmixed
  · exact carries_importDecl.many.append
      (carries_paragraph.many.either (carries_evalDecl.append hmixed))

/-- All of a text carries the prefixes. -/
theorem carries_ofEntry (entry : Entry) : Carries n (ofEntry entry) := by
  cases entry with
  | wholeModule =>
    exact Carries.append (.ifAhead (even_keyword (by decide)) carries_moduleDecl)
      ((carries_declarations {}).append (carries_look even_isEmpty))
  | oneExpression => exact carries_anyExpr.append (carries_look even_isEmpty)

end Form
end RelLang
