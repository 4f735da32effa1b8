import RelLang.Proofs.Grammar.Synonym
import RelLang.Proofs.Parse.Placement

/-!
# The spelling of operators never matters

Readings of two texts that are the same in words run in parallel from their first to their last
token, so they end with the same tree in words and with reports that differ only in their messages.
The places of reports are places of tokens, and these stand in the same order in both texts, so the
sorted diagnostics are the same as well.
-/

namespace RelLang

/-! ### The order of places -/

namespace Token

/-- An offset at which a token begins, or at which the text ends. -/
def Boundary (tokens : List Token) (offset : Nat) : Prop :=
  ∃ ts, ts <+: tokens ∧ offset = size ts

theorem before_mono (tokens : List Token) {o o' : Nat} (h : o ≤ o') :
    before tokens o ≤ before tokens o' :=
  List.countP_mono_left fun t _ ht => by
    simp only [decide_eq_true_eq] at ht ⊢
    omega

theorem size_le_of_prefix {ts us : List Token} (h : ts <+: us) : size ts ≤ size us := by
  obtain ⟨vs, rfl⟩ := h
  simp [size]

variable {tokens : List Token} {o o' : Nat}

/-- Boundaries are in the order of the numbers of tokens in front of them. -/
theorem Placed.before_le_iff (htokens : Placed 0 tokens) (h : Boundary tokens o)
    (h' : Boundary tokens o') : before tokens o ≤ before tokens o' ↔ o ≤ o' := by
  refine ⟨fun hle => ?_, before_mono tokens⟩
  obtain ⟨ts, hts, rfl⟩ := h
  obtain ⟨us, hus, rfl⟩ := h'
  have hcount {vs : List Token} (hvs : vs <+: tokens) : before tokens (size vs) = vs.length := by
    obtain ⟨ws, rfl⟩ := hvs
    exact htokens.before_size
  rw [hcount hts, hcount hus] at hle
  exact size_le_of_prefix (List.prefix_of_prefix_length_le hts hus hle)

theorem Placed.boundary_start (htokens : Placed 0 tokens) {t : Token} (ht : t ∈ tokens) :
    Boundary tokens t.range.start := by
  obtain ⟨ts, us, rfl⟩ := List.append_of_mem ht
  refine ⟨ts, List.prefix_append _ _, ?_⟩
  rw [← Nat.zero_add (size ts)]
  exact (placed_append.mp htokens).2.1

theorem Placed.boundary_listStop (htokens : Placed 0 tokens) :
    Boundary tokens (listStop tokens) :=
  ⟨tokens, List.prefix_refl _, htokens.listStop_eq⟩

end Token

namespace Parse

variable {tokens : List Token}

/-- Reports stand where tokens begin, or at the end. -/
theorem boundary_of_mem_reports (htokens : Token.Placed 0 tokens) (config : ParseConfig)
    (entry : Entry) {r : Report} (hr : r ∈ (ofTokens config entry tokens).reports) :
    Token.Boundary tokens r.range.start := by
  obtain ⟨lexical, made, hreports, hlexical, hmade, -⟩ := reports_split htokens config entry
  rw [hreports] at hr
  rcases List.mem_append.mp hr with hr | hr
  · obtain ⟨t, ht, -, rfl⟩ := hlexical r hr
    exact htokens.boundary_start ht
  · rcases (hmade r hr).2 with ⟨-, t, ht, -, hrange⟩ | ⟨-, hrange⟩
    · rw [hrange]
      exact htokens.boundary_start ht
    · rw [hrange]
      exact htokens.boundary_listStop

/-- The outlines of the diagnostics are those of the reports by the numbers of tokens in front. -/
theorem outline_errors (htokens : Token.Placed 0 tokens) (config : ParseConfig) (entry : Entry) :
    (ofTokens config entry tokens).errors.map (·.outline tokens)
      = ((ofTokens config entry tokens).reports.map (·.outline tokens)).mergeSort
        fun d e => d.place.1 ≤ e.place.1 := by
  rw [errors, List.map_mergeSort, List.map_map]
  · rfl
  · intro d hd e he
    obtain ⟨r, hr, rfl⟩ := List.mem_map.mp hd
    obtain ⟨r', hr', rfl⟩ := List.mem_map.mp he
    have hstart := boundary_of_mem_reports htokens config entry hr
    have hstart' := boundary_of_mem_reports htokens config entry hr'
    exact decide_eq_decide.mpr (htokens.before_le_iff hstart hstart').symm

end Parse

/-! ### Where readings begin -/

/-- Texts that are the same in words are made of words that are. -/
theorem Word.inWords_split {ts us : List Token}
    (h : ts.map Token.inWords = us.map Token.inWords) :
    (split ts).1.map Token.inWords = (split us).1.map Token.inWords ∧
      (split ts).2.map Word.inWords = (split us).2.map Word.inWords := by
  induction ts generalizing us with
  | nil =>
    rw [List.map_nil, eq_comm, List.map_eq_nil_iff] at h
    rw [h]
    exact ⟨rfl, rfl⟩
  | cons t ts ih =>
    cases us with
    | nil => cases h
    | cons u us =>
      obtain ⟨htoken, hrest⟩ := List.cons.inj h
      obtain ⟨hfront, hwords⟩ := ih hrest
      have hsignificant : t.kind.isSignificant = u.kind.isSignificant :=
        Blind.isSignificant.fst_eq htoken
      unfold split
      dsimp only
      rw [hsignificant]
      split
      · exact ⟨rfl, by rw [List.map_cons, List.map_cons, hwords, Word.inWords, Word.inWords,
          hfront, htoken]⟩
      · exact ⟨by rw [List.map_cons, List.map_cons, hfront, htoken], hwords⟩

/-- The language line is no operator. -/
theorem languageOf_eq {ps qs : List (TokenKind × String)} (h : ps.map inWords = qs.map inWords) :
    languageOf ps = languageOf qs := by
  have hfront : ps.takeWhile (·.1.isTrivia) = qs.takeWhile (·.1.isTrivia) := by
    induction ps generalizing qs with
    | nil =>
      rw [List.map_nil, eq_comm, List.map_eq_nil_iff] at h
      rw [h]
    | cons p ps ih =>
      cases qs with
      | nil => cases h
      | cons q qs =>
        obtain ⟨htoken, hrest⟩ := List.cons.inj h
        have htrivia : p.1.isTrivia = q.1.isTrivia := Blind.isTrivia.fst_eq htoken
        cases hp : p.1.isTrivia with
        | false => rw [List.takeWhile_cons, List.takeWhile_cons, ← htrivia, hp]; rfl
        | true =>
          have hone : p.1.hasSynonym = false := by
            refine TokenKind.hasSynonym_of_not_isSignificant ?_
            rw [TokenKind.isSignificant, hp]
            rfl
          rw [← eq_of_inWords_eq htoken hone, List.takeWhile_cons, List.takeWhile_cons, hp,
            ih hrest]
  rw [languageOf, languageOf, hfront]

/-- Invalid tokens at the same place of the two texts are reported alike. -/
theorem outline_ofInvalid {ts us ts' us' : List Token} {t t' : Token}
    (hts : Token.Placed 0 (ts ++ t :: us)) (hts' : Token.Placed 0 (ts' ++ t' :: us'))
    (hlength : ts.length = ts'.length) (htoken : t.inWords = t'.inWords)
    (hinvalid : t.kind = .invalid) :
    (Report.ofInvalid t).outline (ts ++ t :: us) = (Report.ofInvalid t').outline (ts' ++ t' :: us')
    := by
  have hone : t.kind.hasSynonym = false :=
    TokenKind.hasSynonym_of_not_isSignificant (by rw [hinvalid]; rfl)
  have hpair : t.toPair = t'.toPair := eq_of_inWords_eq htoken hone
  have htext : t.text = t'.text := congrArg Prod.snd hpair
  refine Report.outline_eq ?_ ?_ rfl
  · simp only [Report.ofInvalid, Problem.outline, Problem.code, Problem.hint, Problem.notes, htext,
      List.map_nil]
  · show t.range.inTokens _ = t'.range.inTokens _
    rw [hts.inTokens_range, hts'.inTokens_range, hlength]

namespace Respelling

variable (c : Respelling)

/-- The reports of invalid tokens are made alike. -/
theorem akin_invalid (front front' : List Token) {back back' : List Token}
    (hfirst : c.first = front ++ back) (hsecond : c.second = front' ++ back')
    (hlength : front.length = front'.length)
    (hback : back.map Token.inWords = back'.map Token.inWords) {s s' : State} (h : s.Akin c s') :
    ((back.filter (·.kind == .invalid)).foldl
        (fun s t => s.keep c.setting₁ (Report.ofInvalid t)) s).Akin c
      ((back'.filter (·.kind == .invalid)).foldl
        (fun s t => s.keep c.setting₂ (Report.ofInvalid t)) s') := by
  induction back generalizing front front' back' s s' with
  | nil =>
    rw [List.map_nil, eq_comm, List.map_eq_nil_iff] at hback
    rw [hback]
    exact h
  | cons t back ih =>
    cases back' with
    | nil => cases hback
    | cons t' back' =>
      obtain ⟨htoken, hrest⟩ := List.cons.inj hback
      have hblind : Blind fun k => k == .invalid := .intro rfl rfl rfl rfl rfl
      have hinvalid : (t.kind == .invalid) = (t'.kind == .invalid) := hblind.fst_eq htoken
      have hgo {s s' : State} (h : s.Akin c s') :=
        ih (front ++ [t]) (front' ++ [t']) (by rw [hfirst, List.append_cons])
          (by rw [hsecond, List.append_cons]) (by simp [hlength]) hrest h
      rw [List.filter_cons, List.filter_cons, ← hinvalid]
      split
      · next hkind =>
        have hplaced := c.placed_first
        have hplaced' := c.placed_second
        rw [hfirst] at hplaced
        rw [hsecond] at hplaced'
        have houtline := outline_ofInvalid hplaced hplaced' hlength htoken (eq_of_beq hkind)
        rw [← hfirst, ← hsecond] at houtline
        exact hgo (h.keep houtline)
      · exact hgo h

/-- Readings of the two texts begin alike. -/
theorem akin_start : (Parse.start c.config c.first).Akin c (Parse.start c.config c.second) := by
  obtain ⟨hpending, hwords⟩ := Word.inWords_split c.same
  have hsuffix (ts : List Token) : Word.tokens (Word.split ts).2 <:+ ts :=
    ⟨(Word.split ts).1, Word.split_append_tokens ts⟩
  have hlanguage : languageOf (c.first.map Token.toPair) = languageOf (c.second.map Token.toPair) :=
    languageOf_eq (by
      rw [List.map_map, List.map_map]
      exact c.same)
  refine c.akin_invalid [] [] rfl rfl rfl c.same ?_
  exact
    { pending := hpending, words := hwords, suffix_first := hsuffix _, suffix_second := hsuffix _
      left := c.length_eq, siblings := rfl, reports := rfl, contexts := rfl
      temporal := congrArg c.config.admitsTemporal hlanguage, stalled := rfl }

/-- They end alike. -/
theorem akin_final (entry : Entry) :
    (Parse.final c.config entry c.first).Akin c (Parse.final c.config entry c.second) :=
  (Grammar.parallel_entry (Grammar.parallel_enter c nestingLimit) entry _ _
    c.akin_start).2.attachPending

end Respelling

namespace Parse

/-- The spelling of operators never matters. Texts with the same tokens, once each operator that has
a word is spelled with it, get the same tree up to these spellings, and the same diagnostics up to
their messages: with the same codes, hints and notes, as fatal, and at the same tokens. -/
theorem spelling_never_matters (config : ParseConfig) (entry : Entry) {tokens tokens' : List Token}
    (htokens : Token.Placed 0 tokens) (htokens' : Token.Placed 0 tokens')
    (h : tokens.map Token.inWords = tokens'.map Token.inWords) :
    (ofTokens config entry tokens).tree.inWords = (ofTokens config entry tokens').tree.inWords ∧
      (ofTokens config entry tokens).errors.map (·.outline tokens)
        = (ofTokens config entry tokens').errors.map (·.outline tokens') := by
  have hakin := Respelling.akin_final ⟨config, tokens, tokens', htokens, htokens', h⟩ entry
  constructor
  · rw [tree_ofTokens, tree_ofTokens, Tree.inWords, Tree.inWords, Tree.allInWords_eq_map,
      Tree.allInWords_eq_map, List.map_reverse, List.map_reverse, hakin.siblings]
  · rw [outline_errors htokens, outline_errors htokens', reports_ofTokens, reports_ofTokens,
      List.map_reverse, List.map_reverse, hakin.reports]

/-- An expression that breaks off behind a negation, in marks and in words. -/
theorem unfinished_negation_respelled :
    (tokenize "a && !").map Token.inWords = (tokenize "a and not").map Token.inWords ∧
      (ofTokens {} .oneExpression (tokenize "a && !")).tree.inWords
        = (ofTokens {} .oneExpression (tokenize "a and not")).tree.inWords ∧
      (ofTokens {} .oneExpression (tokenize "a && !")).errors.map (·.outline (tokenize "a && !"))
        = (ofTokens {} .oneExpression (tokenize "a and not")).errors.map
          (·.outline (tokenize "a and not")) := by
  have hwords : (tokenize "a && !").map Token.inWords
      = (tokenize "a and not").map Token.inWords := by
    rw [tokenize_eq, tokenize_eq]
    rfl
  exact ⟨hwords, spelling_never_matters {} .oneExpression (placed_tokenize _) (placed_tokenize _)
    hwords⟩

end Parse
end RelLang
