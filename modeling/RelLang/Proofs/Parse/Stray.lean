import RelLang.Proofs.Parse.Syntax
import RelLang.Proofs.Rule.Spare

/-!
# Text in front of a module

A closing mark that closes nothing stands in front of the declarations of a module, perhaps with
more text behind it that begins no paragraph. It is reported once, it is skipped up to the first
token that can begin a paragraph, and the declarations are read as if there were nothing in front
of them.
-/

namespace RelLang

/-- Words as leaves. -/
def Tree.ofWords (ws : List (TokenKind × String)) : List Tree := ws.map fun w => .token w.1 w.2

theorem Tree.leavesAll_ofWords (ws : List (TokenKind × String)) : leavesAll (ofWords ws) = ws := by
  induction ws with
  | nil => rfl
  | cons w ws ih => exact congrArg (w :: ·) ih

namespace State

/-- Where skipping up to the stop tokens ends. -/
def stopsAt (s : State) (stops : List TokenKind) (k : TokenKind) : Bool :=
  stops.contains k || s.contexts.any fun c => c.follow.contains k

theorem input_bump {s : State} {v : Word} {vs : List Word} (h : s.words = v :: vs) :
    s.bump.input = vs.map (·.token.toPair) := by
  rw [bump_of_words_eq_cons h]
  rfl

end State

namespace Rule

variable {ν : Type} {setting : Setting} {enter : ν → State → Bool × State}

/-! ### What is skipped -/

theorem run_skipRound (stops : List TokenKind) (s : State) :
    (skipRound stops : Rule ν Bool).run setting enter s =
      if (s.kindAt 0).any fun k => !s.stopsAt stops k then (true, s.bump) else (false, s) := by
  simp only [skipRound, run_bind, run_currentIn, run_atRecoveryPoint, run_pure, run_when, run_bump,
    State.atRecoveryPoint_eq]
  cases s.kindAt 0 with
  | none => rfl
  | some k =>
    simp only [Option.any_some, Option.all_some, State.stopsAt, Bool.not_or]
    split
    · next hmore => rw [hmore]
    · next hstop => rw [Bool.eq_false_iff.mpr hstop]

/-- Skipping takes all tokens up to the first that it stops at. -/
theorem took_skipRounds (henter : Steady enter) (stops : List TokenKind) {s : State} (hs : s.Ready)
    {others behind : List (TokenKind × String)} (hinput : s.input = others ++ behind)
    (hothers : ∀ w ∈ others, s.stopsAt stops w.1 = false)
    (hbehind : ∀ w ∈ behind.head?, s.stopsAt stops w.1 = true) :
    State.Took (Tree.ofWords others) s
      ((repeated (skipRound stops : Rule ν Bool)).run setting enter s).2 := by
  have hmoves : Moves setting enter (skipRound stops : Rule ν Bool) := moves_skipRound stops
  induction others generalizing s with
  | nil =>
    have hstop : ((s.kindAt 0).any fun k => !s.stopsAt stops k) = false := by
      rw [State.kindAt_eq, State.kinds_eq, hinput, List.nil_append]
      cases behind with
      | nil => rfl
      | cons w ws => simpa using hbehind w rfl
    rw [run_repeated henter hmoves hs.valid, run_skipRound, hstop]
    exact .refl s
  | cons w others ih =>
    obtain ⟨v, vs, hwords, rfl, hrest⟩ := List.map_eq_cons_iff.mp hinput
    have hmore : ((s.kindAt 0).any fun k => !s.stopsAt stops k) = true := by
      have hv := hothers _ List.mem_cons_self
      rw [State.kindAt, hwords]
      simpa [Token.toPair] using hv
    have hreach := State.reaches_bump s
    have hsame : s.bump.stopsAt stops = s.stopsAt stops := by
      unfold State.stopsAt
      rw [hreach.contexts]
    rw [run_repeated henter hmoves hs.valid, run_skipRound, if_pos hmore]
    refine (State.took_bump hs hwords).trans (ih (hs.of_reaches hreach)
      ((State.input_bump hwords).trans hrest) ?_ ?_)
    · rw [hsame]
      exact fun w hw => hothers w (List.mem_cons_of_mem _ hw)
    · rwa [hsame]

/-- What is skipped is one node, and one report is made. -/
theorem run_skipUntil_of_input (henter : Steady enter)
    (problem : Problem) (stops : List TokenKind) {s : State} (hs : s.Ready)
    {first : TokenKind × String} {others behind : List (TokenKind × String)}
    (hinput : s.input = first :: (others ++ behind))
    (hothers : ∀ w ∈ others, s.stopsAt stops w.1 = false)
    (hbehind : ∀ w ∈ behind.head?, s.stopsAt stops w.1 = true) :
    ((skipUntil problem stops : Rule ν Unit).run setting enter s).2.bare
        = s.bare ++ [.node .error (Tree.ofWords (first :: others))] ∧
      ((skipUntil problem stops : Rule ν Unit).run setting enter s).2.reports
        = (s.report setting problem).reports := by
  obtain ⟨v, vs, hwords, rfl, hrest⟩ := List.map_eq_cons_iff.mp hinput
  have hsome : s.words ≠ [] := by simp [hwords]
  have hreach := State.reaches_report setting problem s
  have hready := hs.of_reaches hreach
  have hreported : (s.report setting problem).words = v :: vs :=
    (State.report_words setting problem s).trans hwords
  have hbare : (s.report setting problem).bare = s.bare := by
    obtain ⟨_, h⟩ := State.report_eq setting problem s
    rw [h]
    rfl
  rw [skipUntil_eq, run_skip, if_neg hsome]
  generalize s.report setting problem = t at hreach hready hreported hbare
  let inner : State := { t.attachPending with siblings := [] }
  have hinner : inner.Ready := (State.ready_attachPending hready).of_eq rfl rfl rfl
  have hsame : inner.bump.stopsAt stops = s.stopsAt stops := by
    unfold State.stopsAt
    rw [(State.reaches_bump inner).contexts, ← hreach.contexts]
    rfl
  have hbump : State.Took [v.token.leaf] inner inner.bump := State.took_bump hinner hreported
  have htook : State.Took (Tree.ofWords (v.token.toPair :: others)) inner
      ((skippedText stops : Rule ν Unit).run setting enter inner).2 := by
    refine hbump.trans (took_skipRounds henter stops
      (hinner.of_reaches (State.reaches_bump inner)) ?_ (hsame ▸ hothers) (hsame ▸ hbehind))
    exact (State.input_bump (s := inner) hreported).trans hrest
  refine ⟨?_, htook.reports⟩
  rw [bare_node hready, hbare]
  exact congrArg (s.bare ++ [.node .error ·]) htook.bare

end Rule

namespace Grammar

open Rule

/-! ### Declarations behind skipped text -/

/-- No declaration begins with a closing mark. -/
theorem Beginning.none_of_closer {k : TokenKind} (h : k.isCloser = true)
    (second third : Option TokenKind) : Beginning.ofTokens? (some k) second third = none := by
  cases k with
  | punct p =>
    cases p with
    | rparen => rfl
    | rbracket => rfl
    | rbrace => rfl
    | _ => cases h
  | _ => cases h

/-- The declarations of a module that has no declaration of itself. -/
theorem derives_untilEnd_of_sourceFile {n : Nat} {ts : List Tree}
    (h : Form.sourceFile.Derives n ts [])
    (hfirst : ∀ k ∈ (Tree.kinds ts).head?, k ≠ .keyword .moduleKw) :
    (untilEnd {}).Derives n ts [] := by
  have hmodule : Form.at? (.keyword .moduleKw) (Tree.kinds ts ++ []) = false := by
    rw [List.append_nil]
    cases hks : Tree.kinds ts with
    | nil => rfl
    | cons k ks =>
      have hk := hfirst k (by rw [hks]; rfl)
      simpa [Form.at?] using hk
  have hparts := Form.derives_given_append.mp h
  rw [if_neg (Bool.eq_false_iff.mp hmodule)] at hparts
  exact Form.derives_nothing_append.mp hparts

/-- A module with skipped text in front of it: the text is reported and skipped in the first round
of the declarations, and the others read the module. -/
theorem run_sourceFile_of_stray {r : Reader} (hr : r.Faithful) {s : State} (hs : s.Ready)
    (htemporal : s.temporal = true) (htop : s.contexts = [.topLevel])
    {stray : TokenKind × String} {others : List (TokenKind × String)} {ts : List Tree}
    (hinput : s.input = stray :: (others ++ Tree.leavesAll ts)) (hcloser : stray.1.isCloser = true)
    (hothers : NoStart others)
    (hfirst : ∀ k ∈ (Tree.kinds ts).head?, k ∈ Context.paragraphStarts ∧ k ≠ .keyword .moduleKw)
    (hts : Form.sourceFile.Derives r.limit ts [])
    (hpass : r.passes (sourceFile.run r.setting r.enter s).2.reports) :
    (sourceFile.run r.setting r.enter s).2.bare
        = s.bare ++ .node .error (Tree.ofWords (stray :: others)) :: ts ∧
      (sourceFile.run r.setting r.enter s).2.reports = (s.report r.setting .paragraph).reports := by
  have hkinds : s.kinds = stray.1 :: ((others ++ Tree.leavesAll ts).map (·.1)) := by
    rw [State.kinds_eq, hinput, List.map_cons]
  have hmodule : (s.kindAt 0 == some (.keyword .moduleKw)) = false := by
    rw [State.kindAt_eq, hkinds]
    refine beq_eq_false_iff_ne.mpr fun h => ?_
    rw [Option.some.inj h] at hcloser
    cases hcloser
  have hround : (moduleItem {}).run r.setting r.enter s
      = (({}, true), ((skipUntil .paragraph []).run r.setting r.enter s).2) := by
    refine (run_moduleItem_of_none ?_).trans ?_
    · rw [hkinds]
      exact Beginning.none_of_closer hcloser _ _
    · rw [hkinds, if_neg (by simp)]
  have hsource : (sourceFile.run r.setting r.enter s).2
      = ((ignore (loop {} moduleItem)).run r.setting r.enter
          ((skipUntil .paragraph []).run r.setting r.enter s).2).2 := by
    simp only [sourceFile, run_bind, run_currentIs, hmodule, run_when_false, run_ignore]
    rw [run_loop hr.steady (advancing_moduleItem hr.steady) _ hs.valid, hround]
    rfl
  have hstops : s.stopsAt [] = fun k => Context.paragraphStarts.contains k := by
    funext k
    simp [State.stopsAt, htop, Context.follow]
  have hskipped : ∀ w ∈ others, s.stopsAt [] w.1 = false := fun w hw => by
    simpa [hstops] using hothers w hw
  have hkept : ∀ w ∈ (Tree.leavesAll ts).head?, s.stopsAt [] w.1 = true := fun w hw => by
    have hk := (hfirst w.1 (by rw [Tree.kinds, List.head?_map, hw]; rfl)).1
    simpa [hstops] using hk
  obtain ⟨hbare, hreports⟩ :=
    @run_skipUntil_of_input _ r.setting _ hr.steady .paragraph [] _ hs _ _ _ hinput hskipped hkept
  have hreach := reaches_run r.setting hr.steady (skipUntil .paragraph []) s
  rw [hsource] at hpass ⊢
  generalize ((skipUntil .paragraph []).run r.setting r.enter s).2 = t
    at hbare hreports hreach hpass
  have hbehind : t.input = Tree.leavesAll ts ++ [] := by
    rw [List.append_nil]
    refine hreach.input_behind hs hbare ?_
    rw [Tree.leavesAll_singleton, Tree.leaves, Tree.leavesAll_ofWords, hinput]
    rfl
  obtain ⟨-, htook⟩ := (reads_declarations hr).complete t () ts [] (hs.of_reaches hreach)
    (hreach.temporal htemporal) trivial hbehind trivial
    (derives_untilEnd_of_sourceFile hts fun k hk => (hfirst k hk).2) hpass
  refine ⟨?_, htook.reports.trans hreports⟩
  rw [htook.bare, hbare, List.append_assoc]
  rfl

end Grammar

namespace Parse

open Grammar Lexer Rule

/-- The diagnostic about text that is no paragraph. -/
def notParagraph (t : Token) : Diagnostic where
  message := "expected a paragraph, found " ++ (Found.token t.kind t.text).describe
  range := t.range
  code := .noParagraph

/-- A closing mark in front of an accepted module, with more text behind it that begins no
paragraph, costs one diagnostic at the mark, and one node of skipped text in front of the nodes of
the module. -/
theorem stray_text_skipped {text behind : String} {stray : TokenKind × String}
    {others : List (TokenKind × String)}
    (hwords : words text.toList = stray :: (others ++ words behind.toList))
    (hcloser : stray.1.isCloser = true) (hothers : NoStart others)
    (hvalid : ∀ w ∈ others, w.1 ≠ .invalid) (hok : (ofText {} .wholeModule behind).ok = true)
    (hfirst : ∀ w ∈ (words behind.toList).head?,
      w.1 ∈ Context.paragraphStarts ∧ w.1 ≠ .keyword .moduleKw) :
    ∃ t, (significantTokens text).head? = some t ∧ t.toPair = stray ∧
      (ofText {} .wholeModule text).errors = [notParagraph t] ∧
      ∃ ts, (ofText {} .wholeModule behind).tree.bare = .node .sourceFile ts ∧
        (ofText {} .wholeModule text).tree.bare
          = .node .sourceFile (.node .error (Tree.ofWords (stray :: others)) :: ts) := by
  obtain ⟨ts, hbehind, hts⟩ := derives_of_ok rfl hok
  have hleaves : Tree.leavesAll ts = words behind.toList :=
    (leaves_of_bare hbehind).trans (map_toPair_significantTokens behind)
  have hwhole : ∀ t ∈ tokenize text, t.kind ≠ .invalid := by
    refine whole_of_words fun w hw => ?_
    rw [hwords, List.mem_cons, List.mem_append] at hw
    rcases hw with rfl | hw | hw
    · rintro hinvalid
      rw [hinvalid] at hcloser
      cases hcloser
    · exact hvalid w hw
    · rw [← map_toPair_significantTokens] at hw
      obtain ⟨t, ht, rfl⟩ := List.mem_map.mp hw
      exact whole_of_ok rfl hok t (List.mem_filter.mp ht).1
  have hinput : (start {} (tokenize text)).input = stray :: (others ++ Tree.leavesAll ts) := by
    rw [input_start, filter_tokenize hwhole, map_toPair_significantTokens, hwords, hleaves]
  have hready : (start {} (tokenize text)).Ready := ready_start hwhole
  have hcontexts : (start {} (tokenize text)).contexts = [.topLevel] := by
    obtain ⟨_, h⟩ := start_eq {} (tokenize text)
    rw [h]
  obtain ⟨v, vs, hv, hstray, -⟩ := List.map_eq_cons_iff.mp hinput
  have hread : (readerOf (setting {} (tokenize text)) nestingLimit nestingLimit
      fun _ => True).Faithful :=
    faithful_readerOf rfl (fun _ _ => trivial) _ _ (.inl (Nat.le_refl _))
  obtain ⟨hbare, hreports⟩ := run_sourceFile_of_stray hread hready (temporal_start {} _) hcontexts
    hinput hcloser hothers (by
      rw [Tree.kinds, hleaves, List.head?_map]
      rintro k hk
      obtain ⟨w, hw, rfl⟩ := Option.map_eq_some_iff.mp hk
      exact hfirst w hw) hts trivial
  refine ⟨v.token, ?_, hstray, ?_, ts, hbehind, bare_tree ?_⟩
  · have hfilter := hready.valid.filter_rest
    rw [rest_start, filter_tokenize hwhole, hv] at hfilter
    rw [hfilter]
    rfl
  · have hreport : (final {} .wholeModule (tokenize text)).reports
        = [⟨.paragraph, .token v.token.kind v.token.text, .topLevel, v.token.range, false⟩] := by
      refine hreports.trans ((State.reports_report rfl _ _).trans ?_)
      rw [reports_start hwhole, State.found, State.context, State.currentRange, State.current?, hv,
        hcontexts]
      rfl
    have hmade : (ofText {} .wholeModule text).reports = _ := reports_ofTokens {} .wholeModule _
    rw [errors, hmade, hreport]
    exact List.mergeSort_singleton _
  · have hlast := hready.of_reaches (reaches_run (setting {} (tokenize text))
      (Grammar.language.steady_enter (setting {} (tokenize text)) nestingLimit) sourceFile _)
    refine (State.bare_attachPending hlast).trans ?_
    rw [bare_start, List.nil_append] at hbare
    exact hbare

theorem scan_closer {closer : Punct} (h : closer.isCloser = true) (cs : List Char) :
    ∃ c, closer.spelling.toList = [c] ∧
      scan c (' ' :: cs) = ⟨.punct closer, [c], ' ' :: cs⟩ := by
  cases closer with
  | rparen => exact ⟨')', rfl, rfl⟩
  | rbracket => exact ⟨']', rfl, rfl⟩
  | rbrace => exact ⟨'\x7d', rfl, rfl⟩
  | _ => cases h

/-- A stray closing mark in front of an accepted module costs one diagnostic and one node, and
leaves the module as it is, if the module begins with a token that can begin a paragraph. -/
theorem stray_closer_skipped {closer : Punct} (hcloser : closer.isCloser = true) {behind : String}
    (hok : (ofText {} .wholeModule behind).ok = true)
    (hfirst : ∀ w ∈ (words behind.toList).head?,
      w.1 ∈ Context.paragraphStarts ∧ w.1 ≠ .keyword .moduleKw) :
    (ofText {} .wholeModule (closer.spelling ++ " " ++ behind)).errors
        = [notParagraph ⟨.punct closer, closer.spelling, 0⟩] ∧
      ∃ ts, (ofText {} .wholeModule behind).tree.bare = .node .sourceFile ts ∧
        (ofText {} .wholeModule (closer.spelling ++ " " ++ behind)).tree.bare = .node .sourceFile
          (.node .error [.token (.punct closer) closer.spelling] :: ts) := by
  obtain ⟨c, hspelling, hscan⟩ := scan_closer hcloser behind.toList
  have htext : (closer.spelling ++ " " ++ behind).toList = c :: ' ' :: behind.toList := by
    simp [hspelling]
  have hname : String.ofList [c] = closer.spelling := by rw [← hspelling, String.ofList_toList]
  have hwords : words (closer.spelling ++ " " ++ behind).toList
      = (.punct closer, closer.spelling) :: ([] ++ words behind.toList) := by
    rw [htext, words_cons, hscan, words_blank rfl, ← hname]
    rfl
  obtain ⟨t, ht, -, herrors, htree⟩ := stray_text_skipped hwords hcloser nofun nofun hok hfirst
  have hfirst : (significantTokens (closer.spelling ++ " " ++ behind)).head?
      = some ⟨.punct closer, closer.spelling, 0⟩ := by
    rw [significantTokens, tokenize, htext, lexemes, hscan, ← hname]
    rfl
  obtain rfl := Option.some.inj (ht.symm.trans hfirst)
  exact ⟨herrors, htree⟩

/-- In front of `sig A {}` a stray parenthesis is skipped. -/
theorem stray_closer_before_sig :
    (ofText {} .wholeModule ") sig A {}").errors = [notParagraph ⟨.punct .rparen, ")", 0⟩] ∧
      ∃ ts, (ofText {} .wholeModule "sig A {}").tree.bare = .node .sourceFile ts ∧
        (ofText {} .wholeModule ") sig A {}").tree.bare
          = .node .sourceFile (.node .error [.token (.punct .rparen) ")"] :: ts) := by
  have hok : (ofText {} .wholeModule "sig A {}").ok = true := by rw [ofText_eq]; rfl
  have hsig : (words "sig A {}".toList).head? = some (.keyword .sigKw, "sig") := by
    rw [words, lexemes_eq]; rfl
  have htext : ") sig A {}" = Punct.rparen.spelling ++ " " ++ "sig A {}" := by decide
  rw [htext]
  refine stray_closer_skipped rfl hok fun w hw => ?_
  rw [hsig] at hw
  rw [← Option.some.inj hw]
  decide

/-- A multiplicity can begin a signature, but skipping does not stop at it: `one sig A {}` is
accepted, and a parenthesis in front of it takes the `one` along. -/
theorem stray_closer_takes_multiplicity :
    (ofText {} .wholeModule "one sig A {}").ok = true ∧
      ∀ ts, (ofText {} .wholeModule "one sig A {}").tree.bare = .node .sourceFile ts →
        (ofText {} .wholeModule ") one sig A {}").tree.bare
          ≠ .node .sourceFile (.node .error [.token (.punct .rparen) ")"] :: ts) := by
  have hok : (ofText {} .wholeModule "sig A {}").ok = true := by rw [ofText_eq]; rfl
  have hwords : words ") one sig A {}".toList = (.punct .rparen, ")") ::
      ([(.keyword .oneKw, "one")] ++ words "sig A {}".toList) := by
    simp only [words, lexemes_eq]
    rfl
  have hsig : (words "sig A {}".toList).head? = some (.keyword .sigKw, "sig") := by
    rw [words, lexemes_eq]; rfl
  refine ⟨by rw [ofText_eq]; rfl, fun ts _ hbare => ?_⟩
  obtain ⟨-, -, -, -, us, -, htree⟩ := stray_text_skipped hwords rfl
    (by simp [NoStart, Context.paragraphStarts]) (by simp) hok fun w hw => by
      rw [hsig] at hw
      rw [← Option.some.inj hw]
      decide
  cases htree.symm.trans hbare

end Parse
end RelLang
