import RelLang.Proofs.Grammar.Parts
import RelLang.Proofs.Parse.Placement
import RelLang.Proofs.Parse.Reports
import RelLang.Proofs.Tree.Everywhere

/-!
# The order of the declarations of a module

A module is a row of declarations, with nodes of skipped text and trivia between them. Where its
declarations stand out of order, this is reported: once for every late declaration, but once only
for evaluations beside other paragraphs.
-/

namespace RelLang

/-! ### The message of a late module declaration -/

theorem head?_append {a : String} {c : Char} (h : a.toList.head? = some c) (b : String) :
    (a ++ b).toList.head? = some c := by
  rw [String.toList_append, List.head?_append, h]
  rfl

theorem getLast?_append (a : String) {b : String} {c : Char} (h : b.toList.getLast? = some c) :
    (a ++ b).toList.getLast? = some c := by
  rw [String.toList_append, List.getLast?_append, h]
  rfl

theorem head?_expectedFound (expected : String) (found : Found) :
    (Problem.expectedFound expected found).toList.head? = some 'e' :=
  head?_append (head?_append (head?_append rfl _) _) _

/-- A problem whose message is that of a late module declaration is one: all other messages have
another first letter, or another last one. -/
theorem Problem.message_eq_lateModule_iff (problem : Problem) (context : Context) (found : Found) :
    problem.message context found = "module declaration must be the first declaration" ↔
      problem = .lateModule := by
  refine ⟨fun h => ?_, fun h => by rw [h]; rfl⟩
  have hfirst {c : Char} (hc : (problem.message context found).toList.head? = some c) :
      c = 'm' := by
    have hm : "module declaration must be the first declaration".toList.head? = some 'm' := by rfl
    rw [h, hm] at hc
    exact (Option.some.inj hc).symm
  have hlast {c : Char} (hc : (problem.message context found).toList.getLast? = some c) :
      c = 'n' := by
    have hn : "module declaration must be the first declaration".toList.getLast? = some 'n' := by
      rfl
    rw [h, hn] at hc
    exact (Option.some.inj hc).symm
  cases problem with
  | lateModule => rfl
  | temporalDisabled => cases hlast (c := ')') (getLast?_append _ (by rfl))
  | lexical fault text =>
    cases fault with
    | invalidCharacter => cases hfirst (head?_append (head?_append rfl _) _)
    | _ =>
      unfold message at h
      simp [LexicalFault.code, Code.defaultMessage] at h
  | stray expected =>
    cases hfirst (head?_append (head?_append (head?_append (head?_append rfl _) _) _) _)
  | afterExpression => cases hfirst (head?_append (head?_append rfl _) _)
  | tooDeep => cases hfirst (head?_append rfl _)
  | listItem => cases hfirst (head?_append rfl _)
  | nameAfterThis | emptyField | lateImport | evalAmongParagraphs | paragraphAfterEval
    | assertionInSuite =>
    unfold message at h
    simp at h
  | _ => cases hfirst (head?_expectedFound _ _)

/-! ### The places of the parts -/

namespace Located

/-- A paragraph that is no evaluation stands in front of the node, beside it. -/
def isBehindParagraph (n : Located) : Bool := n.before.any Tree.isPlainParagraph

/-- A significant token stands in front of the node. -/
def isBehindToken (n : Located) : Bool :=
  (Tree.leavesAll n.before.reverse).any (·.1.isSignificant)

theorem nodesIn_append (start : Nat) (before ts us : List Tree) :
    nodesIn start before (ts ++ us)
      = nodesIn start before ts ++ nodesIn (start + Tree.widths ts) (ts.reverse ++ before) us := by
  induction ts generalizing start before with
  | nil => simp [nodesIn, Tree.widths]
  | cons t ts ih =>
    cases t <;> simp [nodesIn, Tree.widths, ih, Nat.add_assoc]

/-- What is declared about the place of each node, taken together. -/
theorem countP_remarks {counted : Problem → Bool} {passes : List Tree → NodeKind → Bool}
    (h : ∀ before kind, (Grammar.misplaced before kind).countP counted
      = if passes before kind then 1 else 0) (before : List Tree) :
    (Grammar.remarks before).countP counted
      = (nodesIn 0 [] before.reverse).countP fun n => passes n.before n.kind := by
  induction before with
  | nil => rfl
  | cons t before ih =>
    rw [List.reverse_cons, nodesIn_append, List.countP_append, ← ih, List.reverse_reverse,
      List.append_nil]
    cases t with
    | token kind text => rfl
    | node kind children =>
      rw [Grammar.remarks, List.countP_append, h, Nat.add_comm]
      simp [nodesIn, List.countP_cons]

/-- A test of trees that passes no token is a test of the nodes. -/
theorem any_nodesIn (passes : NodeKind → Bool) (test : Tree → Bool)
    (htoken : ∀ kind text, test (.token kind text) = false)
    (hnode : ∀ kind children, test (.node kind children) = passes kind) (start : Nat)
    (before ts : List Tree) :
    (nodesIn start before ts).any (fun n => passes n.kind) = ts.any test := by
  induction ts generalizing start before with
  | nil => rfl
  | cons t ts ih => cases t <;> simp [nodesIn, ih, htoken, hnode]

/-- If all tokens beside the nodes are trivia, a significant token is inside a node. -/
theorem exists_node_around {start : Nat} {before ts : List Tree} {tokens : List Token}
    (hplaced : Token.Placed start tokens) (hleaves : Tree.leavesAll ts = tokens.map Token.toPair)
    (hparts : ∀ t ∈ ts, t.isModulePart = true) {token : Token} (htoken : token ∈ tokens)
    (hsig : token.kind.isSignificant = true) :
    ∃ n ∈ nodesIn start before ts, n.start ≤ token.start ∧ token.stop ≤ n.stop := by
  induction ts generalizing start before tokens with
  | nil =>
    rw [List.map_eq_nil_iff.mp hleaves.symm] at htoken
    cases htoken
  | cons t ts ih =>
    obtain ⟨front, back, rfl, hfront, hback⟩ := List.map_eq_append_iff.mp hleaves.symm
    obtain ⟨hplaced, hrest⟩ := Token.placed_append.mp hplaced
    have hsize : Token.size front = t.width := by
      rw [Tree.width_eq, ← hfront, Tree.bytes, List.map_map]
      rfl
    rcases List.mem_append.mp htoken with htoken | htoken
    · cases t with
      | token kind text =>
        have hkind : token.kind = kind := by
          have hpair : token.toPair ∈ [(kind, text)] := by
            rw [← show _ = [(kind, text)] from hfront]
            exact List.mem_map_of_mem htoken
          exact congrArg Prod.fst (List.mem_singleton.mp hpair)
        have htrivia : kind.isTrivia = true := hparts _ List.mem_cons_self
        simp [TokenKind.isSignificant, hkind, htrivia] at hsig
      | node kind children =>
        refine ⟨⟨kind, children, start, before⟩, List.mem_cons_self, ?_⟩
        have hstop := hplaced.stop_le htoken
        rw [hsize] at hstop
        exact ⟨(hplaced.bounds htoken).1, hstop⟩
    · rw [hsize] at hrest
      obtain ⟨n, hn, hbounds⟩ : ∃ n ∈ nodesIn (start + t.width) (t :: before) ts,
          n.start ≤ token.start ∧ token.stop ≤ n.stop :=
        ih hrest hback.symm (fun t ht => hparts t (List.mem_cons_of_mem _ ht)) htoken
      cases t with
      | token => exact ⟨n, hn, hbounds⟩
      | node => exact ⟨n, List.mem_cons_of_mem _ hn, hbounds⟩

end Located

/-! ### What is said about the places -/

namespace Grammar

theorem countP_said (counted : Problem → Bool) (said : Bool) (problem : Problem) :
    (if said then [problem] else []).countP counted = if counted problem && said then 1 else 0 := by
  cases said <;> simp [List.countP_cons]

theorem countP_misplaced_lateModule (before : List Tree) (kind : NodeKind) :
    (misplaced before kind).countP (· == .lateModule)
      = if kind == .moduleDecl && (Tree.leavesAll before.reverse).any (·.1.isSignificant) then 1
        else 0 := by
  unfold misplaced
  split
  · exact countP_said _ _ _
  · exact countP_said _ _ _
  · exact countP_said _ _ _
  · next hmodule _ _ =>
    rw [countP_said, beq_eq_false_iff_ne.mpr hmodule]
    rfl

theorem countP_misplaced_lateImport (before : List Tree) (kind : NodeKind) :
    (misplaced before kind).countP (·.code == .lateImport)
      = if kind == .importDecl && before.any Tree.isPlainParagraph then 1 else 0 := by
  unfold misplaced
  split
  · exact countP_said _ _ _
  · exact countP_said _ _ _
  · exact countP_said _ _ _
  · next himport _ =>
    rw [countP_said, beq_eq_false_iff_ne.mpr himport]
    rfl

theorem countP_misplaced_mixedEval (before : List Tree) (kind : NodeKind) :
    (misplaced before kind).countP (·.code == .mixedEval)
      = if !(Seen.ofTrees before).mixed && (kind == .evalDecl && (Seen.ofTrees before).paragraph
          || kind.isPlainParagraph && (Seen.ofTrees before).eval) then 1 else 0 := by
  unfold misplaced
  split
  · rw [Bool.and_comm]
    exact countP_said _ _ _
  · rw [Bool.and_comm]
    exact countP_said _ _ _
  · rw [Bool.and_comm]
    refine (countP_said _ _ _).trans ?_
    cases (Seen.ofTrees before).paragraph <;> rfl
  · next heval =>
    rw [countP_said, beq_eq_false_iff_ne.mpr heval, Bool.false_and, Bool.false_or,
      Bool.and_comm (!_), Bool.and_assoc]
    rfl

/-- Of evaluations and paragraphs, the first that comes second makes the mix. -/
theorem mixed_once {isEval isPlain : Bool} (h : (isEval && isPlain) = false)
    (eval paragraph : Bool) :
    ((if !(paragraph && eval) && (isEval && paragraph || isPlain && eval) then 1 else 0)
        + if eval && paragraph then 1 else 0)
      = if (isEval || eval) && (isPlain || paragraph) then 1 else 0 := by
  revert isEval isPlain eval paragraph
  decide

/-- That evaluations are mixed with paragraphs is said once, by whichever comes second. -/
theorem countP_remarks_mixedEval (ts : List Tree) :
    (remarks ts).countP (·.code == .mixedEval)
      = if ts.any Tree.isEval && ts.any Tree.isPlainParagraph then 1 else 0 := by
  induction ts with
  | nil => rfl
  | cons t before ih =>
    cases t with
    | token kind text => simpa [remarks, Tree.isEval, Tree.isPlainParagraph] using ih
    | node kind children =>
      have hapart : (kind == .evalDecl && kind.isPlainParagraph) = false := by
        cases h : kind == .evalDecl with
        | false => rfl
        | true => rw [eq_of_beq h]; rfl
      rw [remarks, List.countP_append, ih, countP_misplaced_mixedEval]
      exact mixed_once hapart _ _

end Grammar

/-! ### Whole modules -/

/-- A module of some tokens, whose parts hold all its significant tokens, with what is said about
their order. -/
structure Located.Arranged (root : Located) (tokens : List Token) (errors : List Diagnostic) :
    Prop where
  parts : ∀ n ∈ root.childNodes, n.kind.isModulePart = true
  inside : ∀ t ∈ tokens, t.kind.isSignificant = true →
    ∃ n ∈ root.childNodes, n.start ≤ t.start ∧ t.stop ≤ n.stop
  /-- An evaluation and another paragraph are a mix, which is said once. -/
  mixedEval : errors.countP (·.code == .mixedEval)
    = if root.childNodes.any (·.kind == .evalDecl)
        && root.childNodes.any (·.kind.isPlainParagraph) then 1 else 0
  lateImport : errors.countP (·.code == .lateImport)
    = root.childNodes.countP fun n => n.kind == .importDecl && n.isBehindParagraph
  lateModule :
    errors.countP (·.message == "module declaration must be the first declaration")
      = root.childNodes.countP fun n => n.kind == .moduleDecl && n.isBehindToken

namespace Parse

/-- The parts of a module, and without a cap what is said about their places. -/
theorem parts_final (config : ParseConfig) (tokens : List Token) {counted : Problem → Bool}
    (hcounted : ∀ problem : Problem, problem.OfDeclaration → counted problem = false) :
    (∀ t ∈ (final config .wholeModule tokens).siblings, t.isModulePart = true) ∧
      (config.maxDiagnostics = none →
        (final config .wholeModule tokens).reports.countP (counted ·.problem)
          = (start config tokens).reports.countP (counted ·.problem)
            + (Grammar.remarks (final config .wholeModule tokens).siblings).countP counted) := by
  have henter := Grammar.language.steady_enter (setting config tokens) nestingLimit
  obtain ⟨seen, h⟩ := Grammar.soFar_sourceFile henter hcounted
    (Grammar.uncounted_enter hcounted (setting config tokens) nestingLimit)
    (valid_start config tokens) (siblings_start config tokens)
  refine ⟨Grammar.isModulePart_attachPending (h.reached.valid (valid_start config tokens)) h.parts,
    fun hfull => ?_⟩
  rw [final, Grammar.remarks_attachPending]
  exact h.reports hfull

/-- The diagnostics of a module that say something about the order of its declarations are told by
its parts. -/
theorem countP_errors (mode : TemporalMode) (text : String) {counted : Problem → Bool}
    {counts : Diagnostic → Bool} (hcounts : ∀ r : Report, counts r.toDiagnostic = counted r.problem)
    (hcounted : ∀ problem : Problem, problem.OfDeclaration → counted problem = false)
    (hlexical : ∀ fault text, counted (.lexical fault text) = false) :
    (ofText { temporal := mode } .wholeModule text).errors.countP counts
      = (Grammar.remarks (final { temporal := mode } .wholeModule (tokenize text)).siblings).countP
          counted := by
  have hstart : (start { temporal := mode } (tokenize text)).reports.countP (counted ·.problem)
      = 0 := by
    rw [reports_start_of_uncapped _ _ rfl, List.countP_reverse, List.countP_map,
      List.countP_eq_zero]
    intro t _
    exact Bool.eq_false_iff.mp (hlexical (.ofText t.text) t.text)
  have hreports := (parts_final { temporal := mode } (tokenize text) hcounted).2 rfl
  rw [hstart, Nat.zero_add] at hreports
  rw [errors, (List.mergeSort_perm _ _).countP_eq, List.countP_map, ofText, reports_ofTokens,
    List.countP_reverse, ← hreports]
  exact List.countP_congr fun r _ => by rw [Function.comp_apply, hcounts]

/-- A module is a row of declarations and nodes of skipped text, with nothing but trivia between
them. That evaluations are mixed with other paragraphs is reported once, if they are; an import
behind a paragraph and a module declaration behind a token are each reported once. -/
theorem module_arranged (mode : TemporalMode) (text : String) :
    let p := ofText { temporal := mode } .wholeModule text
    ∃ root, Located.root? p.tree = some root ∧ root.kind = .sourceFile ∧
      root.Arranged (tokenize text) p.errors := by
  have hnone : ∀ problem : Problem, problem.OfDeclaration → (fun _ => false) problem = false :=
    fun _ _ => rfl
  have hparts := (parts_final { temporal := mode } (tokenize text) hnone).1
  have hcount := @countP_errors mode text
  have hleaves := leaves_ofTokens { temporal := mode } .wholeModule (tokenize text)
  rw [tree_ofTokens] at hleaves
  generalize hsiblings : (final { temporal := mode } .wholeModule (tokenize text)).siblings = ts
    at hparts hcount hleaves
  have hchildren : ∀ t ∈ ts.reverse, t.isModulePart = true :=
    fun t ht => hparts t (List.mem_reverse.mp ht)
  have hlexical {code : Code} (hcode : code.toClass ≠ .lexical) (fault : LexicalFault)
      (text : String) : ((Problem.lexical fault text).code == code) = false :=
    beq_eq_false_iff_ne.mpr fun heq => hcode (heq ▸ fault.toClass_code)
  refine ⟨⟨.sourceFile, ts.reverse, 0, []⟩, ?_, rfl, ?_, ?_, ?_, ?_, ?_⟩
  · rw [ofText, tree_ofTokens, hsiblings]
    rfl
  · exact fun n hn => hchildren n.tree (Located.tree_mem_of_mem_nodesIn hn)
  · exact fun t ht hsig =>
      Located.exists_node_around (placed_tokenize text) hleaves hchildren ht hsig
  · rw [hcount (fun _ => rfl) (fun _ h => beq_eq_false_iff_ne.mpr h.2.1) (hlexical (by decide)),
      Grammar.countP_remarks_mixedEval]
    have heval : (Located.nodesIn 0 [] ts.reverse).any (·.kind == .evalDecl)
        = ts.reverse.any Tree.isEval :=
      Located.any_nodesIn (· == .evalDecl) _ (fun _ _ => rfl) (fun _ _ => rfl) 0 [] _
    have hplain : (Located.nodesIn 0 [] ts.reverse).any (·.kind.isPlainParagraph)
        = ts.reverse.any Tree.isPlainParagraph :=
      Located.any_nodesIn (·.isPlainParagraph) _ (fun _ _ => rfl) (fun _ _ => rfl) 0 [] _
    rw [← List.any_reverse (l := ts), ← List.any_reverse (l := ts), ← heval, ← hplain]
    rfl
  · rw [hcount (fun _ => rfl) (fun _ h => beq_eq_false_iff_ne.mpr h.2.2.1) (hlexical (by decide)),
      Located.countP_remarks Grammar.countP_misplaced_lateImport]
    rfl
  · have hmessage : ∀ r : Report,
        (r.toDiagnostic.message == "module declaration must be the first declaration")
          = (· == .lateModule) r.problem := fun r => by
      have hiff := r.problem.message_eq_lateModule_iff r.context r.found
      rw [Bool.eq_iff_iff, beq_iff_eq, beq_iff_eq]
      exact hiff
    rw [hcount hmessage (fun _ h => beq_eq_false_iff_ne.mpr h.2.2.2) (fun _ _ => rfl),
      Located.countP_remarks Grammar.countP_misplaced_lateModule]
    rfl

end Parse

end RelLang
