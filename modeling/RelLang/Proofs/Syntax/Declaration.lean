import RelLang.Proofs.Syntax.Command

/-!
# What declarations are read from

The rules for predicates, signatures and tests read the forms of these names. Lists
with commas in them are read item by item, up to the mark that closes them.
-/

namespace RelLang.Grammar

open Rule
open Tree (kinds)

variable {r : Reader} {pre : List TokenKind → Prop}

/-! ### Predicates, functions and facts -/

/-- Behind segments up to the last one there is a dot, if they are a receiver. -/
theorem at?_dot_of_segments {n : Nat} {ts : List Tree} {behind : List TokenKind}
    (h : (Form.whileAhead (Form.segmentBehind .slash)
      (.token [.punct .slash] ++ .token Form.segmentKinds)).Derives n ts behind)
    (hdot : segmentsEndInDot (kinds ts ++ behind) = true) :
    Form.at? (.punct .dot) behind = true := by
  obtain ⟨hmany, hstop⟩ := Form.derives_append_look.mp h
  revert hdot
  refine hmany.many_induction (p := fun us => segmentsEndInDot (kinds us ++ behind) = true → _)
    (fun hdot => ?_) fun us vs hus ih hdot => ?_
  · simp only [Tree.kinds_nil, List.nil_append] at hdot
    unfold segmentsEndInDot at hdot
    split at hdot
    · next k ks =>
      obtain ⟨hk, -⟩ := Bool.and_eq_true_iff.mp hdot
      simp [Form.segmentBehind, Form.at?, hk] at hstop
    · rfl
    · cases hdot
  · obtain ⟨ws, xs, rfl, hslash, hsegment⟩ := Form.derives_look_append.mp hus |>.2 |>
      Form.derives_append.mp
    obtain ⟨k, text, hk, rfl⟩ := Form.derives_token.mp hslash
    obtain ⟨k', text', hk', rfl⟩ := Form.derives_token.mp hsegment
    obtain rfl := List.mem_singleton.mp hk
    exact ih (Bool.and_eq_true_iff.mp hdot).2

/-- A receiver is a qualified name with a dot behind it. -/
theorem at?_dot_of_receiver {n : Nat} {ts : List Tree} {behind : List TokenKind}
    (h : Form.qualName.Derives n ts behind) (hdot : receiverAhead (kinds ts ++ behind) = true) :
    Form.at? (.punct .dot) behind = true := by
  obtain ⟨us, rfl, hus⟩ := Form.derives_node.mp h
  obtain ⟨us, vs, rfl, hthis, hrest⟩ := Form.derives_row_cons.mp hus
  obtain ⟨ws, xs, rfl, hsegment, hmore⟩ := Form.derives_row_cons.mp hrest
  obtain ⟨k, text, hk, rfl⟩ := Form.derives_token.mp hsegment
  refine at?_dot_of_segments hmore ?_
  rw [Form.ifAhead, Form.derives_given] at hthis
  split at hthis
  · obtain ⟨us, vs', rfl, hus, hvs⟩ := Form.derives_append.mp hthis
    obtain ⟨k₁, text₁, hk₁, rfl⟩ := Form.derives_token.mp hus
    obtain ⟨k₂, text₂, hk₂, rfl⟩ := Form.derives_token.mp hvs
    obtain rfl := List.mem_singleton.mp hk₁
    obtain rfl := List.mem_singleton.mp hk₂
    have hsegments : segmentsAhead (k :: (kinds xs ++ behind)) = true := by simpa [receiverAhead] using hdot
    exact (Bool.and_eq_true_iff.mp hsegments).2
  · obtain rfl := Form.derives_nothing.mp hthis
    have hsegments : segmentsAhead (k :: (kinds xs ++ behind)) = true := by
      simp only [Form.segmentKinds, List.mem_cons, List.not_mem_nil, or_false] at hk
      obtain rfl | rfl | rfl := hk <;> simpa [receiverAhead] using hdot
    exact (Bool.and_eq_true_iff.mp hsegments).2

theorem reads_optionalReceiver (hr : r.Faithful) :
    Reads r pre anyhow (fun _ => Form.optionalReceiver) optionalReceiver := by
  have hdot : Reads r (Form.at? (.punct .dot) · = true) anyhow (fun _ => .token [.punct .dot])
      bump := reads_bump fun _ => front_of_at?
  refine (looks_ahead _).when hr (.node ?_ _)
  exact (reads_qualName hr).ignore.thenKnown hr hdot fun n ts behind hts hp =>
    at?_dot_of_receiver hts hp.2

theorem reads_paraDecl (hr : r.Faithful) :
    Reads r pre anyhow (fun _ => Form.paraDecl) paraDecl :=
  .node (.then hr (reads_optional hr) <| .then hr (reads_nameList hr).ignore <|
    .then hr (reads_expect hr _) <| .then hr (reads_optionalMult hr _) (reads_expr hr)) _

theorem reads_declBody (hr : r.Faithful) (owner : BodyOwner) :
    Reads r pre anyhow (fun _ => Form.block) (declBody owner) :=
  (looks_currentIs _).require hr (reads_block hr) (rejects_report hr _)
    fun _ => Form.beginsWith_block.at?

/-- One item of a list with commas, and whether the list goes on. -/
def commaItem (item : Form) (more : Bool) : Form :=
  if more then item ++ .token [.punct .comma] else .either item .nothing

/-- What begins a parameter. -/
def parameterKinds : List TokenKind := [.ident, .keyword .disjKw]

theorem begins_declaration (kind : NodeKind) :
    (Form.declaration kind).Begins (parameterKinds.contains · = true) := by
  refine .node (fun n ts behind hts => ?_) _
  obtain ⟨us, vs, rfl, hdisj, hrest⟩ := Form.derives_row_cons.mp hts
  rw [Form.optional, Form.ifAhead, Form.derives_given] at hdisj
  split at hdisj
  · obtain ⟨k, text, hk, rfl⟩ := Form.derives_token.mp hdisj
    exact ⟨k, _, rfl, by rw [List.mem_singleton.mp hk]; rfl⟩
  · obtain rfl := Form.derives_nothing.mp hdisj
    obtain ⟨k, ks, hk, rfl⟩ := (Form.beginsWith_nameList.append _) _ _ _ hrest
    exact ⟨_, ks, hk, rfl⟩

theorem derives_item_eaten {n : Nat} {item : Form} {more : Bool} {ts : List Tree}
    {behind : List TokenKind} (h : (item ++ eaten (.punct .comma) more).Derives n ts behind) :
    (commaItem item more).Derives n ts behind := by
  obtain ⟨us, vs, rfl, hitem, hcomma⟩ := Form.derives_append.mp h
  rw [eaten, Form.derives_given] at hcomma
  split at hcomma
  · obtain ⟨rfl, hcomma⟩ := Form.derives_yields.mp hcomma
    exact Form.derives_append.mpr ⟨us, vs, rfl, hitem, hcomma⟩
  · obtain ⟨rfl, hnothing⟩ := Form.derives_yields.mp hcomma
    obtain rfl := Form.derives_nothing.mp hnothing
    rw [List.append_nil]
    exact .left hitem

theorem derives_eaten_of_item {n : Nat} {item : Form} {more : Bool} {ts : List Tree}
    {behind : List TokenKind} (hnext : more = false → Form.at? (.punct .comma) behind = false)
    (h : (item ++ (if more then .token [.punct .comma] else .nothing)).Derives n ts behind) :
    (item ++ eaten (.punct .comma) more).Derives n ts behind := by
  obtain ⟨us, vs, rfl, hitem, hcomma⟩ := Form.derives_append.mp h
  refine Form.derives_append.mpr ⟨us, vs, rfl, hitem, ?_⟩
  rw [eaten, Form.derives_given]
  cases more with
  | true =>
    rw [if_pos ((Form.beginsWith_token _).at? _ _ _ hcomma)]
    exact Form.derives_yields.mpr ⟨rfl, hcomma⟩
  | false =>
    obtain rfl := Form.derives_nothing.mp hcomma
    rw [if_neg (by rw [Tree.kinds_nil, List.nil_append, hnext rfl]; exact Bool.false_ne_true)]
    exact Form.derives_yields.mpr ⟨rfl, hcomma⟩

/-- An item that begins with one of some tokens, or nothing in front of the mark that closes the
list. -/
def itemAhead (closer : Punct) (begins : List TokenKind) (item : Bool → Form) (more : Bool) : Form :=
  .given (Form.at? (.punct closer)) (Form.yields false .nothing more) <|
    .given List.isEmpty (Form.yields false .nothing more) <|
      .given (Form.atAny begins) (item more) (Form.yields false .nothing more)

section Item

variable {n : Nat} {closer : Punct} {begins : List TokenKind} {item : Bool → Form} {more : Bool}
  {ts : List Tree} {behind : List TokenKind}

theorem derives_of_itemAhead (h : (itemAhead closer begins item more).Derives n ts behind) :
    (item more).Derives n ts behind ∨ more = false ∧ ts = [] := by
  have hnone : (Form.yields false .nothing more).Derives n ts behind → more = false ∧ ts = [] :=
    fun h => ⟨(Form.derives_yields.mp h).1, Form.derives_nothing.mp (Form.derives_yields.mp h).2⟩
  rw [itemAhead, Form.derives_given, Form.derives_given, Form.derives_given] at h
  split at h
  · exact .inr (hnone h)
  split at h
  · exact .inr (hnone h)
  split at h
  · exact .inl h
  · exact .inr (hnone h)

theorem derives_itemAhead (hbegins : (item more).Begins (begins.contains · = true))
    (hcloser : .punct closer ∉ begins) (h : (item more).Derives n ts behind) :
    (itemAhead closer begins item more).Derives n ts behind := by
  have hany : Form.atAny begins (kinds ts ++ behind) = true := hbegins.any _ _ _ h
  obtain ⟨k, rest, hks, hk, -⟩ := front_of_atAny hany
  have hclosed : ¬ Form.at? (.punct closer) (kinds ts ++ behind) = true := by
    rw [hks]
    simp only [Form.at?, List.getElem?_cons_zero, beq_iff_eq, Option.some.injEq]
    rintro rfl
    exact hcloser hk
  rwa [itemAhead, Form.derives_given, if_neg hclosed, Form.derives_given,
    if_neg (by rw [hks]; exact Bool.false_ne_true), Form.derives_given, if_pos hany]

theorem derives_itemAhead_nil (h : Form.at? (.punct closer) behind = true) :
    (itemAhead closer begins item false).Derives n [] behind := by
  rw [itemAhead, Form.derives_given]
  exact (if_pos h).mpr (Form.derives_yields.mpr ⟨rfl, .nothing⟩)

end Item

theorem reads_paraItem (hr : r.Faithful) {closer : Punct}
    (hcloser : .punct closer ∉ parameterKinds) (hcomma : closer ≠ .comma) :
    Reads r anything (fun more ks => more = false → Form.at? (.punct closer) ks = true)
      (commaItem Form.paraDecl) (paraItem closer) := by
  have hitem : Reads r anything (fun more ks => more = false → Form.at? (.punct closer) ks = true)
      (fun more => Form.paraDecl ++ eaten (.punct .comma) more)
      (paraDecl >>= fun _ => eat Punct.comma) :=
    .then hr (reads_paraDecl hr) (reads_eat hr).ofAnyhow
  have hskip : Reads r (fun ks => Form.at? (.punct closer) ks = false)
      (fun more ks => more = false → Form.at? (.punct closer) ks = true)
      (Form.yields false .nothing)
      (skipUntil .parameter [.punct .comma, .punct closer] >>= fun _ => eat Punct.comma) :=
    ((rejects_skipUntil hr _ _).bind hr _).readsNothing fun ks hp hclosed => by
      rw [hclosed rfl] at hp
      cases hp
  have hread : Reads r anything (fun more ks => more = false → Form.at? (.punct closer) ks = true)
      (itemAhead closer parameterKinds fun more => Form.paraDecl ++ eaten (.punct .comma) more)
      (paraItem closer) := by
    refine (looks_currentIs _).branch hr (looks_atEnd.same hr fun _ => reads_pure false)
      (looks_atEnd.branch hr (reads_pure false) ((looks_currentIn parameterKinds).branch hr
        (.anywhere fun _ => hitem.ofAnything) (.anywhere fun recovered => ?_)))
    cases recovered with
    | true => exact reads_pure false
    | false => exact hskip.weaken fun ks hp => hp.1.1.2
  refine hread.reshape hr (fun n more ts behind _ hts => ?_) fun n more ts behind _ hpost hts => ?_
  · obtain hitem | ⟨rfl, rfl⟩ := derives_of_itemAhead hts
    · exact derives_item_eaten hitem
    · exact .right .nothing
  · have hback : ∀ {more}, (more = false → Form.at? (.punct closer) behind = true) →
        (Form.paraDecl ++ (if more then .token [.punct .comma] else .nothing)).Derives n ts behind →
        (itemAhead closer parameterKinds (fun more => Form.paraDecl ++ eaten (.punct .comma) more)
          more).Derives n ts behind := fun hpost hread =>
      derives_itemAhead ((begins_declaration _).append _) hcloser (derives_eaten_of_item
        (fun hmore => at?_eq_false (hpost hmore) (by simpa using hcomma)) hread)
    cases more with
    | true => exact hback hpost hts
    | false =>
      obtain hts | hts := Form.derives_either.mp hts
      · exact hback hpost (Form.derives_append_nothing.mpr hts)
      · obtain rfl := Form.derives_nothing.mp hts
        exact derives_itemAhead_nil (hpost rfl)

/-- The parameters in front of the mark that closes them. -/
theorem reads_parameters (hr : r.Faithful) {closer : Punct}
    (hcloser : .punct closer ∉ parameterKinds) (hcomma : closer ≠ .comma) (opener : ByteRange) :
    Reads r pre anyhow (fun _ => Form.commaList Form.paraDecl ++ .token [.punct closer])
      (within .parameterList (repeated (paraItem closer)) >>= fun _ =>
        ignore (expectCloser closer opener)) :=
  .closed hr (.within (reads_repeated hr (moves_paraItem hr.steady closer)
    (reads_paraItem hr hcloser hcomma)) _) (reads_expectCloser hr _ opener)

theorem reads_paraDecls (hr : r.Faithful) :
    Reads r (Form.atAny [.punct .lparen, .punct .lbracket] · = true) anyhow
      (fun _ => Form.paraDecls) paraDecls := by
  refine .node ((looks_currentIs (.punct .lparen)).branch hr (.currentRange fun opener =>
    .bumpThen hr (fun _ hp => front_of_at? hp.2) (reads_parameters hr (by decide) (by decide) opener))
    (.currentRange fun opener => .bumpThen hr (fun _ hp => front_of_other hp.1 hp.2)
      (reads_parameters hr (by decide) (by decide) opener))) _

theorem reads_optionalParaDecls (hr : r.Faithful) :
    Reads r pre anyhow (fun _ => Form.optionalParaDecls) optionalParaDecls :=
  (looks_currentIn _).when hr ((reads_paraDecls hr).weaken fun _ hp => hp.2)

theorem reads_predDecl (hr : r.Faithful) :
    Reads r (Form.at? (.keyword .predKw) · = true) anyhow (fun _ => Form.predDecl) predDecl :=
  .node (.bumpThen hr (fun _ => front_of_at?) <| (looks_currentIs _).whenThen hr
    (reads_tokenNode _ fun _ hp => front_of_at? hp.2) <| .then hr (reads_optionalReceiver hr) <|
    .then hr (reads_name hr).ignore <| .then hr (reads_optionalParaDecls hr)
      (reads_declBody hr _)) _

theorem reads_funDecl (hr : r.Faithful) :
    Reads r (Form.at? (.keyword .funKw) · = true) anyhow (fun _ => Form.funDecl) funDecl :=
  .node (.bumpThen hr (fun _ => front_of_at?) <| .then hr (reads_optionalReceiver hr) <|
    .then hr (reads_name hr).ignore <| .then hr (reads_optionalParaDecls hr) <|
    .then hr (reads_expect hr _) <| .then hr (reads_optionalMult hr _) <|
    .then hr (reads_expr hr) (reads_declBody hr _)) _

theorem reads_factDecl (hr : r.Faithful) :
    Reads r (Form.at? (.keyword .factKw) · = true) anyhow (fun _ => Form.factDecl) factDecl :=
  .node (.bumpThen hr (fun _ => front_of_at?) <| (looks_currentIs _).whenThen hr
    (reads_name hr).ignore (reads_declBody hr _)) _

/-! ### Signatures -/

/-- A word in front of `sig`, and whether there is one. -/
def modifierAhead (more : Bool) : Form :=
  .given (Form.at? (.keyword .varKw)) (.token [.keyword .varKw] ++ .yields true .nothing more) <|
    .given (Form.at? (.keyword .abstractKw))
      (.token [.keyword .abstractKw] ++ .yields true .nothing more) <|
      .given (Form.atAny Operator.sigMultiplicities)
        (.node .mult (.token Operator.sigMultiplicities) ++ .yields true .nothing more)
        (.yields false .nothing more)

theorem reads_modifierAhead (hr : r.Faithful) :
    Reads r pre anyhow modifierAhead sigModifier := by
  have hvar : Reads r (fun ks => pre ks ∧ Form.at? (.keyword .varKw) ks = true) anyhow
      (fun more => .token [.keyword .varKw] ++ .yields true .nothing more)
      (requireTemporal >>= fun _ => bump >>= fun _ => pure true) :=
    .behindNothing hr (reads_requireTemporal hr) <|
      .bumpThen hr (fun _ hp => front_of_at? hp.2) (reads_pure true)
  refine (looks_currentIs (.keyword .varKw)).branch hr
    ((looks_currentIs (.keyword .abstractKw)).same hr fun _ =>
      (looks_currentIn Operator.sigMultiplicities).same hr fun _ => hvar.weaken fun _ hp => hp.1.1)
    ((looks_currentIs (.keyword .abstractKw)).branch hr
      ((looks_currentIn Operator.sigMultiplicities).same hr fun _ =>
        .bumpThen hr (fun _ hp => front_of_at? hp.1.2) (reads_pure true))
      ((looks_currentIn Operator.sigMultiplicities).branch hr
        (.then hr (reads_tokenNode _ fun _ hp => front_of_atAny hp.2) (reads_pure true))
        (reads_pure false)))

theorem reads_sigModifier (hr : r.Faithful) :
    Reads r anything (fun more ks => more = false → Form.at? (.keyword .sigKw) ks = true)
      (fun more => if more then Form.sigModifier else .nothing) sigModifier := by
  refine (reads_modifierAhead hr).ofAnyhow.reshape hr (fun n more ts behind _ hts => ?_)
    fun n more ts behind _ hpost hts => ?_
  · rw [modifierAhead, Form.derives_given, Form.derives_given, Form.derives_given] at hts
    split at hts
    · obtain ⟨rfl, htoken⟩ := Form.derives_append_yields.mp hts
      obtain ⟨k, text, hk, rfl⟩ := Form.derives_token.mp (Form.derives_append_nothing.mp htoken)
      exact .left (.token (by simp at hk ⊢; exact .inl hk))
    split at hts
    · obtain ⟨rfl, htoken⟩ := Form.derives_append_yields.mp hts
      obtain ⟨k, text, hk, rfl⟩ := Form.derives_token.mp (Form.derives_append_nothing.mp htoken)
      exact .left (.token (by simp at hk ⊢; exact .inr hk))
    split at hts
    · obtain ⟨rfl, hnode⟩ := Form.derives_append_yields.mp hts
      exact .right (Form.derives_append_nothing.mp hnode)
    · obtain ⟨rfl, hnothing⟩ := Form.derives_yields.mp hts
      exact hnothing
  · cases more with
    | true =>
      rw [modifierAhead, Form.derives_given, Form.derives_given, Form.derives_given]
      simp only [Form.derives_append_yields, Form.derives_append_nothing, Form.derives_yields]
      obtain hts | hts := Form.derives_either.mp hts
      · obtain ⟨k, text, hk, rfl⟩ := Form.derives_token.mp hts
        obtain rfl | rfl : k = .keyword .varKw ∨ k = .keyword .abstractKw := by simpa using hk
        · rw [if_pos (by rfl)]
          exact ⟨trivial, .one⟩
        · rw [if_neg (by simp [Form.at?]), if_pos (by rfl)]
          exact ⟨trivial, .one⟩
      · obtain ⟨us, rfl, hus⟩ := Form.derives_node.mp hts
        obtain ⟨k, text, hk, rfl⟩ := Form.derives_token.mp hus
        have hvar : Form.at? (.keyword .varKw) (k :: behind) = false := by
          simp only [Operator.sigMultiplicities, List.mem_cons, List.not_mem_nil, or_false] at hk
          obtain rfl | rfl | rfl | rfl := hk <;> rfl
        have habstract : Form.at? (.keyword .abstractKw) (k :: behind) = false := by
          simp only [Operator.sigMultiplicities, List.mem_cons, List.not_mem_nil, or_false] at hk
          obtain rfl | rfl | rfl | rfl := hk <;> rfl
        simp only [Tree.kinds_node_cons, Tree.kinds_token_cons, Tree.kinds_nil, List.append_nil,
          List.cons_append, List.nil_append]
        rw [hvar, habstract, if_neg Bool.false_ne_true, if_neg Bool.false_ne_true,
          if_pos (show Form.atAny Operator.sigMultiplicities (k :: behind) = true from
            List.contains_iff_mem.mpr hk)]
        exact ⟨trivial, .node hus⟩
    | false =>
      obtain rfl := Form.derives_nothing.mp hts
      obtain ⟨k, rest, rfl, hk, -⟩ := front_of_at? (hpost rfl)
      obtain rfl := List.mem_singleton.mp hk
      rw [modifierAhead, Form.derives_given, Form.derives_given, Form.derives_given,
        if_neg (by simp [Form.at?]), if_neg (by simp [Form.at?]),
        if_neg (by simp [Form.atAny, Operator.sigMultiplicities])]
      exact Form.derives_yields.mpr ⟨rfl, hts⟩

theorem reads_sigExt (hr : r.Faithful) :
    Reads r (Form.atAny [.keyword .inKw, .keyword .extendsKw] · = true) anyhow
      (fun _ => Form.sigExt) sigExt := by
  have hmore : Reads r anything anyhow (fun _ => .separated .plus Form.qualName) (repeated do
      let more ← eat Punct.plus
      when more do
        ignore qualName
      return more) := reads_separated hr (reads_qualName hr).ignore
  have hextends : Reads r (fun ks => Form.atAny [.keyword .inKw, .keyword .extendsKw] ks = true ∧
      Form.at? (.keyword .inKw) ks = false) anyhow
      (fun _ => .token [.keyword .extendsKw] ++ (Form.qualName ++ .nothing))
      (bump >>= fun _ => ignore qualName >>= fun _ => pure ()) :=
    .bumpThen hr (fun _ hp => front_of_other hp.1 hp.2)
      (.then hr (reads_qualName hr).ignore reads_done)
  refine .node ((looks_currentIs (.keyword .inKw)).branch hr (.bumpThen hr
    (fun _ hp => front_of_at? hp.2) (.then hr (reads_qualName hr).ignore hmore))
    (hextends.congr fun _ _ _ _ => ?_)) _
  simp only [Form.derives_append (f := .token _), Form.derives_append_nothing]

theorem reads_fieldDecl (hr : r.Faithful) :
    Reads r pre anyhow (fun _ => Form.fieldDecl) fieldDecl := by
  refine .node ((looks_currentIs (.keyword .varKw)).whenThen hr (.behindNothing hr
    (reads_requireTemporal hr) (reads_bump fun _ hp => front_of_at? hp.2)) ?_) _
  exact .then hr (reads_nameList hr).ignore <| .then hr (reads_expect hr _) <|
    .then hr (reads_optionalMult hr _) (reads_exprAt hr _).ignore

theorem looks_atField : Looks atField (Form.atAny [.keyword .varKw, .ident]) := looks_currentIn _

theorem begins_fieldDecl :
    Form.fieldDecl.Begins ([TokenKind.keyword .varKw, .ident].contains · = true) := by
  refine .node (fun n ts behind hts => ?_) _
  obtain ⟨us, vs, rfl, hvar, hrest⟩ := Form.derives_row_cons.mp hts
  rw [Form.optional, Form.ifAhead, Form.derives_given] at hvar
  split at hvar
  · obtain ⟨k, text, hk, rfl⟩ := Form.derives_token.mp hvar
    exact ⟨k, _, rfl, by rw [List.mem_singleton.mp hk]; rfl⟩
  · obtain rfl := Form.derives_nothing.mp hvar
    obtain ⟨k, ks, hk, rfl⟩ := (Form.beginsWith_nameList.append _) _ _ _ hrest
    exact ⟨_, ks, hk, rfl⟩

/-- What may follow a field: a comma, or no other field. -/
def fieldEndAhead : Form :=
  .given (Form.at? (.punct .comma)) (.token [.punct .comma])
    (.look fun ks => !Form.atAny [.keyword .varKw, .ident] ks)

theorem reads_fieldEnd (hr : r.Faithful) : Reads r pre anyhow (fun _ => fieldEndAhead) fieldEnd := by
  have hnext : Reads r (fun ks => pre ks ∧ Form.at? (.punct .comma) ks = false) anyhow
      (fun _ => .given (Form.atAny [.keyword .varKw, .ident]) .never .nothing)
      (atField >>= fun another => when another (report .fieldSeparator)) :=
    looks_atField.branch hr (rejects_report hr _).reads reads_done
  have hread : Reads r pre anyhow (fun _ => .given (Form.at? (.punct .comma))
      (.token [.punct .comma] ++ .nothing)
      (.given (Form.atAny [.keyword .varKw, .ident]) .never .nothing)) fieldEnd :=
    reads_eat_bind hr reads_done hnext
  refine hread.congr fun n _ ts behind => ?_
  rw [fieldEndAhead, Form.derives_given, Form.derives_given, Form.derives_append_nothing,
    Form.derives_given, Form.derives_look]
  split
  · rfl
  · constructor
    · rintro ⟨rfl, hnext⟩
      rw [if_neg (by simpa using hnext)]
      exact .nothing
    · intro hts
      split at hts
      · exact absurd hts Form.not_derives_never
      · next hnext =>
        obtain rfl := Form.derives_nothing.mp hts
        exact ⟨rfl, by simpa using hnext⟩

/-- What begins a field. -/
def fieldKinds : List TokenKind := [.keyword .varKw, .ident]

theorem reads_fieldItem (hr : r.Faithful) :
    Reads r anything (fun more ks => more = false → Form.at? (.punct .rbrace) ks = true)
      (fun more => if more then Form.fieldDecl ++ fieldEndAhead else .nothing) fieldItem := by
  have hitem : ∀ {pre : List TokenKind → Prop}, Reads r pre
      (fun more ks => more = false → Form.at? (.punct .rbrace) ks = true)
      (fun more => Form.fieldDecl ++ (fieldEndAhead ++ Form.yields true .nothing more))
      (fieldDecl >>= fun _ => fieldEnd >>= fun _ => pure true) :=
    .then hr (reads_fieldDecl hr) (.then hr (reads_fieldEnd hr) (reads_pure true))
  have hread : Reads r anything (fun more ks => more = false → Form.at? (.punct .rbrace) ks = true)
      (itemAhead .rbrace fieldKinds fun more =>
        Form.fieldDecl ++ (fieldEndAhead ++ Form.yields true .nothing more)) fieldItem := by
    refine (looks_currentIs _).branch hr (looks_atEnd.same hr fun _ => reads_pure false)
      (looks_atEnd.branch hr (reads_pure false) (looks_atField.branch hr
        ((looks_currentIs (.punct .comma)).same hr fun _ => .anywhere fun _ => hitem)
        ((looks_currentIs (.punct .comma)).same hr fun comma => .anywhere fun recovered => ?_)))
    have hnot : ∀ ks, ((((anything ks ∧ Form.at? (.punct .rbrace) ks = false) ∧
        List.isEmpty ks = false) ∧ Form.atAny fieldKinds ks = false) ∧
        Form.at? (.punct .comma) ks = comma) →
        ¬ (false = false → Form.at? (.punct .rbrace) ks = true) := fun ks hp hclosed => by
      rw [hclosed rfl] at hp
      cases hp.1.1.1.2
    cases comma with
    | true => exact ((rejects_skipToken hr _).bind hr _).readsNothing hnot
    | false =>
      cases recovered with
      | true => exact reads_pure false
      | false => exact ((rejects_skipUntil hr _ _).bind hr _).readsNothing hnot
  refine hread.reshape hr (fun n more ts behind _ hts => ?_) fun n more ts behind _ hpost hts => ?_
  · obtain hitem | ⟨rfl, rfl⟩ := derives_of_itemAhead hts
    · obtain ⟨rfl, hfield⟩ := (Form.derives_row_yields [Form.fieldDecl, fieldEndAhead]
        (List.cons_ne_nil _ _)).mp hitem
      exact hfield
    · exact .nothing
  · cases more with
    | true =>
      exact derives_itemAhead (begins_fieldDecl.append _) (by decide)
        ((Form.derives_row_yields [Form.fieldDecl, fieldEndAhead] (List.cons_ne_nil _ _)).mpr
          ⟨rfl, hts⟩)
    | false =>
      obtain rfl := Form.derives_nothing.mp hts
      exact derives_itemAhead_nil (hpost rfl)

/-- A list of fields is empty, or begins with one. -/
theorem eq_nil_or_field {n : Nat} {ts : List Tree} {behind : List TokenKind}
    (h : (Form.commaList Form.fieldDecl).Derives n ts behind) :
    ts = [] ∨ Form.atAny fieldKinds (kinds ts ++ behind) = true := by
  obtain h | h := Form.derives_many_append.mp h
  · obtain h | h := Form.derives_either.mp h
    · exact .inr (begins_fieldDecl.any _ _ _ h)
    · exact .inl (Form.derives_nothing.mp h)
  · exact .inr (((begins_fieldDecl.append _).append _).any _ _ _ h)

/-- Fields with what may follow them are a list with commas: if a comma is missing, no field is
behind it. -/
theorem derives_commaList_of_fields {n : Nat} {ts : List Tree} {behind : List TokenKind}
    (h : (Form.many (Form.fieldDecl ++ fieldEndAhead)).Derives n ts behind) :
    (Form.commaList Form.fieldDecl).Derives n ts behind := by
  refine h.many_induction (p := fun ts => (Form.commaList Form.fieldDecl).Derives n ts behind)
    ?_ fun us vs hus ih => ?_
  · exact Form.derives_append.mpr ⟨[], [], rfl, .stop, .right .nothing⟩
  · obtain ⟨us, ws, rfl, hfield, hend⟩ := Form.derives_append.mp hus
    rw [fieldEndAhead, Form.derives_given] at hend
    split at hend
    · exact Form.derives_many_append.mpr (.inr (Form.derives_append.mpr
        ⟨us ++ ws, vs, rfl, Form.derives_append.mpr ⟨us, ws, rfl, hfield, hend⟩, ih⟩))
    · obtain ⟨rfl, hlast⟩ := Form.derives_look.mp hend
      obtain rfl | hnext := eq_nil_or_field ih
      · rw [List.append_nil, List.append_nil]
        exact Form.derives_append.mpr ⟨[], us, rfl, .stop, .left hfield⟩
      · rw [fieldKinds] at hnext
        rw [hnext] at hlast
        cases hlast

theorem derives_fields_of_commaList {n : Nat} {ts : List Tree} {behind : List TokenKind}
    (hclosed : Form.at? (.punct .rbrace) behind = true)
    (h : (Form.commaList Form.fieldDecl).Derives n ts behind) :
    (Form.many (Form.fieldDecl ++ fieldEndAhead)).Derives n ts behind := by
  have hcomma : ∀ us ws behind, Form.fieldDecl.Derives n us (kinds ws ++ behind) →
      (Form.token [.punct .comma]).Derives n ws behind →
      (Form.fieldDecl ++ fieldEndAhead).Derives n (us ++ ws) behind := by
    intro us ws behind hfield hcomma
    refine Form.derives_append.mpr ⟨us, ws, rfl, hfield, ?_⟩
    rwa [fieldEndAhead, Form.derives_given, if_pos ((Form.beginsWith_token _).at? _ _ _ hcomma)]
  obtain ⟨us, vs, rfl, hus, hvs⟩ := Form.derives_append.mp h
  refine hus.many_induction
    (p := fun us => (Form.many (Form.fieldDecl ++ fieldEndAhead)).Derives n (us ++ vs) behind)
    ?_ fun us us' hitem ih => ?_
  · obtain hfield | hnothing := Form.derives_either.mp hvs
    · have hlast : (Form.fieldDecl ++ fieldEndAhead).Derives n (vs ++ []) behind := by
        refine Form.derives_append.mpr ⟨vs, [], rfl, hfield, ?_⟩
        rw [fieldEndAhead, Form.derives_given, Tree.kinds_nil, List.nil_append,
          at?_eq_false hclosed (by simp), if_neg Bool.false_ne_true]
        refine Form.derives_look.mpr ⟨rfl, ?_⟩
        obtain ⟨k, rest, rfl, hk, -⟩ := front_of_at? hclosed
        rw [List.mem_singleton.mp hk]
        rfl
      rw [List.append_nil] at hlast
      exact Form.derives_many.mpr (.inr ⟨vs, [], (List.append_nil _).symm, hlast, .stop⟩)
    · rw [Form.derives_nothing.mp hnothing]
      exact .stop
  · obtain ⟨us, ws, rfl, hfield, hmark⟩ := Form.derives_append.mp hitem
    rw [List.append_assoc]
    refine Form.derives_many.mpr (.inr ⟨us ++ ws, us' ++ vs, rfl, hcomma us ws _ ?_ ?_, ih⟩)
    · rwa [Tree.kinds_append, List.append_assoc]
    · rwa [Tree.kinds_append, List.append_assoc]

theorem reads_fieldList (hr : r.Faithful) :
    Reads r pre anyhow (fun _ => Form.fieldList) fieldList := by
  have hfields : Reads r anything (fun _ ks => Form.at? (.punct .rbrace) ks = true)
      (fun _ => Form.commaList Form.fieldDecl) (within .sigBody (repeated fieldItem)) := by
    refine (((reads_repeated hr (moves_fieldItem hr.steady) (reads_fieldItem hr)).within _).reshape hr
      (fun n _ ts behind _ hts => ?_) fun n _ ts behind _ hpost hts => ?_)
    · exact derives_commaList_of_fields (Form.derives_append_nothing.mp hts)
    · exact Form.derives_append_nothing.mpr (derives_fields_of_commaList hpost hts)
  exact .node (.currentRange fun opener => .thenTrue hr (reads_expectToken hr _ _ _)
    (.closed hr hfields (reads_expectCloser hr _ opener))) _

theorem reads_sigDecl (hr : r.Faithful) : Reads r pre anyhow (fun _ => Form.sigDecl) sigDecl := by
  have hmodifiers : Reads r pre (fun _ ks => Form.at? (.keyword .sigKw) ks = true)
      (fun _ => .many Form.sigModifier) (repeated sigModifier) :=
    (reads_repeated hr (moves_sigModifier hr.steady) (reads_sigModifier hr)).congr
      fun _ _ _ _ => Form.derives_append_nothing.symm
  have hrest : Reads r anything anyhow (fun _ => .row [.token [.keyword .sigKw], Form.nameList,
      .ifAhead (Form.atAny [.keyword .extendsKw, .keyword .inKw]) Form.sigExt, Form.fieldList,
      .ifAhead (Form.at? (.punct .lbrace)) Form.block]) (do
      ignore (expectToken Keyword.sigKw .missingSig none)
      ignore nameList
      let extended ← currentIn [.keyword .extendsKw, .keyword .inKw]
      when extended sigExt
      fieldList
      let brace ← currentIs Punct.lbrace
      when brace block) := by
    refine .then hr (reads_expectToken hr _ _ _).ignore <| .then hr (reads_nameList hr).ignore <|
      (looks_currentIn _).whenThen hr ((reads_sigExt hr).weaken fun ks hp => ?_) <|
      .then hr (reads_fieldList hr) ((looks_currentIs _).when hr (reads_block hr))
    obtain ⟨k, rest, rfl, hk, -⟩ := front_of_atAny hp.2
    obtain rfl | rfl : k = .keyword .extendsKw ∨ k = .keyword .inKw := by simpa using hk
    all_goals rfl
  exact .node (.before hr hmodifiers hrest fun _ ts behind hts _ =>
    ((Form.beginsWith_token _).append _).at? _ _ _ hts) _

end RelLang.Grammar
