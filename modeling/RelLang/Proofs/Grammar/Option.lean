import RelLang.Proofs.Grammar.Decide
import RelLang.Proofs.Rule.Invariant
import RelLang.Proofs.View.Binary
import RelLang.View.Declaration

/-!
# What an option asks for

An option asks for temporal constructs if its key and its value begin with the two words that do;
what stands behind the first word of each makes no difference. While the option is read this is told
by two single tokens, and afterwards by the names in its node: both tell the same.
-/

namespace RelLang

/-! ### The words of an option -/

namespace Tree

/-- The text of the first token of a tree. -/
def firstText (t : Tree) : Option String := t.leaves.head?.map (·.2)

/-- The qualified names among some trees. -/
def qualNames (ts : List Tree) : List Tree := ts.filter (isOf (.only .qualName))

/-- The names in an option are a key and a value that begin with the words which ask for temporal
constructs. -/
def asksTemporal (names : List Tree) : Bool :=
  names[0]?.bind firstText == some "problem_type" && names[1]?.bind firstText == some "temporal"

end Tree

/-- The first token of a name, which may be all of it. -/
def QualName.firstText (v : QualName) : Option String := v.node.tree.firstText

/-- The key and the value of the option begin with the words that ask for temporal constructs. -/
def OptionDecl.asksTemporal (v : OptionDecl) : Bool :=
  v.key.bind QualName.firstText == some "problem_type" &&
    (v.all (.only .qualName))[1]?.bind QualName.firstText == some "temporal"

theorem OptionDecl.asksTemporal_eq (v : OptionDecl) :
    v.asksTemporal = Tree.asksTemporal (Tree.qualNames v.node.children) := by
  have hnames := View.map_tree_all (.only .qualName) v
  have hat (i : Nat) : (Tree.qualNames v.node.children)[i]?.bind Tree.firstText
      = (v.all (.only .qualName))[i]?.bind QualName.firstText := by
    rw [Tree.qualNames, ← hnames, List.getElem?_map, Option.bind_map]
    rfl
  rw [asksTemporal, Tree.asksTemporal, hat, hat, key, View.qualName, View.first_eq_head?,
    List.head?_eq_getElem?]

namespace State

variable {s t : State}

/-- The names that the innermost node or group holds so far. -/
def names (s : State) : List Tree := Tree.qualNames s.siblings.reverse

@[simp] theorem names_attachPending (s : State) : s.attachPending.names = s.names := by
  have hskipped : Tree.qualNames (s.pending.map Token.skippedTree) = [] := by
    refine List.filter_eq_nil_iff.mpr fun t ht => ?_
    obtain ⟨token, -, rfl⟩ := List.mem_map.mp ht
    unfold Token.skippedTree
    split <;> exact Bool.false_ne_true
  rw [names, attachPending, List.reverse_append, List.reverse_reverse, Tree.qualNames,
    List.filter_append]
  exact (congrArg (_ ++ ·) hskipped).trans (List.append_nil _)

@[simp] theorem names_bump (s : State) : s.bump.names = s.names := by
  rw [← names_attachPending s]
  cases hw : s.words with
  | nil => rw [bump_of_words_eq_nil hw]
  | cons w ws =>
    rw [bump_of_words_eq_cons hw, names, names, List.reverse_cons, Tree.qualNames,
      List.filter_append]
    exact List.append_nil _

@[simp] theorem names_report (setting : Setting) (problem : Problem) (s : State) :
    (s.report setting problem).names = s.names := by
  obtain ⟨reports, hreport⟩ := report_eq setting problem s
  rw [hreport]
  rfl

theorem names_of_siblings_eq {children : List Tree}
    (h : t.siblings = .node .qualName children :: s.attachPending.siblings) :
    t.names = s.names ++ [.node .qualName children] := by
  rw [names, h, List.reverse_cons, Tree.qualNames, List.filter_append, ← names_attachPending s]
  rfl

/-- The text of the current token; there is none at the end. -/
def text (s : State) : String := (s.current?.map (·.text)).getD ""

end State

namespace Grammar

open Rule

variable {setting : Setting} {enter : Nonterminal → State → Bool × State} {s t : State}

/-- The words that ask for temporal constructs are names. -/
def Named (s : State) : Prop := s.text = "problem_type" ∨ s.text = "temporal" → NameAhead s

/-- Where a name is ahead, reading it makes a node. -/
theorem exists_run_qualName (setting : Setting) (enter : Nonterminal → State → Bool × State)
    (hname : NameAhead s) :
    ∃ body : Rule Nonterminal Bool, ∀ t : State, t.words = s.words →
      qualName.run setting enter t = (Rule.node .qualName body).run setting enter t := by
  have hrun : ∀ t : State, t.words = s.words →
      (atQualName : Rule Nonterminal Bool).run setting enter t = (true, t) := by
    intro t hwords
    rw [run_atQualName, kindAt_congr hwords, kindAt_congr hwords, hname]
  exact ⟨_, fun t hwords => by rw [qualName, run_bind, hrun t hwords]; rfl⟩

/-- What is put into a node begins with the current token, if there is anything. -/
theorem firstText_node {kind : NodeKind} {body : Rule Nonterminal Bool} (henter : Steady enter)
    {children : List Tree} (hs : s.Valid)
    (hchildren : (body.run setting enter { s.attachPending with siblings := [] }).2.siblings.reverse
      = children)
    (htakes : (body.run setting enter { s.attachPending with siblings := [] }).2.left
      < s.attachPending.left) :
    (Tree.node kind children).firstText = some s.text := by
  have hr := reaches_run setting henter body { s.attachPending with siblings := [] }
  generalize body.run setting enter { s.attachPending with siblings := [] } = r at *
  have hleaves : Tree.leavesAll children ++ r.2.rest.map Token.toPair
      = (Word.tokens s.words).map Token.toPair := by
    rw [← hchildren]
    exact hr.leaves
  have hsome : Tree.leavesAll children ≠ [] := by
    intro hnil
    rw [hnil] at hleaves
    have hlength := congrArg List.length hleaves
    rw [List.nil_append, List.length_map, List.length_map] at hlength
    have hleft := (hr.valid hs.opened).left_eq
    have hleft' : s.attachPending.left = (Word.tokens s.words).length := hs.opened.left_eq
    omega
  obtain ⟨leaf, leaves, hcons⟩ := List.exists_cons_of_ne_nil hsome
  rw [hcons] at hleaves
  cases hw : s.words with
  | nil =>
    rw [hw] at hleaves
    cases hleaves
  | cons w ws =>
    rw [hw, Word.tokens_cons, List.map_cons] at hleaves
    obtain rfl := (List.cons.inj hleaves).1
    rw [Tree.firstText, Tree.leaves, hcons, State.text, State.current?, hw]
    rfl

/-- A qualified name is put into the tree as a node that begins with the current token. -/
theorem names_qualName (henter : Steady enter) (hs : s.Valid) (hname : NameAhead s) :
    ∃ name : Tree, name.firstText = some s.text ∧
      (qualName.run setting enter s).2.names = s.names ++ [name] := by
  obtain ⟨body, hbody⟩ := exists_run_qualName setting enter hname
  have hrun : qualName.run setting enter { s.attachPending with siblings := [] } = _ := hbody _ rfl
  have htakes : (body.run setting enter { s.attachPending with siblings := [] }).2.left
      < s.attachPending.left := by
    have hnode : (qualName.run setting enter { s.attachPending with siblings := [] }).2.left
        < s.attachPending.left := takesFrom_qualName henter hname _ hs.opened rfl
    rw [hrun] at hnode
    exact hnode
  refine ⟨.node .qualName _, firstText_node henter hs rfl htakes, ?_⟩
  rw [hbody s rfl]
  exact State.names_of_siblings_eq rfl

theorem run_qualName_of_not (h : ¬ NameAhead s) :
    qualName.run setting enter s = (false, s.report setting .qualName) := by
  rw [qualName, run_bind, run_atQualName, Bool.eq_false_iff.mpr h]
  rfl

/-- A name begins with a word. -/
theorem kindAt_of_nameAhead (h : NameAhead s) :
    ∃ k, s.kindAt 0 = some k ∧ (k.isNameSegment = true ∨ k = .keyword .thisKw) := by
  cases hk : s.kindAt 0 with
  | none => simp [NameAhead, hk] at h
  | some k =>
    refine ⟨k, rfl, ?_⟩
    simp only [NameAhead, hk, Option.any_some, Bool.or_eq_true, Bool.and_eq_true, beq_iff_eq,
      Option.some.injEq] at h
    exact h.imp_right (·.1)

/-- A value is put into the tree as a name if it is one. -/
theorem names_optionValue (henter : Steady enter) (hs : s.Valid) :
    NameAhead s ∧ (∃ name : Tree, name.firstText = some s.text ∧
        (optionValue.run setting enter s).2.names = s.names ++ [name]) ∨
      ¬ NameAhead s ∧ (optionValue.run setting enter s).2.names = s.names := by
  simp only [optionValue, run_bind, run_peek, run_atQualName, run_ite]
  by_cases hname : NameAhead s
  · obtain ⟨k, hk, hword⟩ := kindAt_of_nameAhead hname
    have hpath : (s.kindAt 0 == some .filePath || s.kindAt 0 == some .number) = false := by
      rw [hk]
      obtain hword | rfl := hword
      · cases k <;> first | rfl | cases hword
      · rfl
    have hminus : (s.kindAt 0 == some (.punct .minus) && s.kindAt 1 == some .number) = false := by
      rw [hk]
      obtain hword | rfl := hword
      · cases k <;> first | rfl | cases hword
      · rfl
    refine .inl ⟨hname, ?_⟩
    rw [hpath, hminus, hname]
    exact names_qualName henter hs hname
  · refine .inr ⟨hname, ?_⟩
    rw [Bool.eq_false_iff.mpr hname]
    split
    · exact State.names_bump s
    split
    · simp only [run_bump, State.names_bump]
    · exact State.names_report setting _ s

/-! ### Reading an option -/

/-- What is read of an option; yields whether it asks for temporal constructs. -/
def optionHead : Rule Nonterminal Bool := do
  bump
  let key ← currentText
  ignore qualName
  let value ← currentText
  optionValue
  return key == "problem_type" && value == "temporal"

/-- An option is read, and then temporal constructs are admitted if it asks for them. -/
theorem run_optionDecl (setting : Setting) (enter : Nonterminal → State → Bool × State)
    (s : State) :
    optionDecl.run setting enter s = (Rule.node .optionDecl (do
      let asks ← optionHead
      when asks admitTemporal)).run setting enter s := by
  simp only [optionDecl, optionHead, run_node, run_bind, run_pure]

theorem beq_of_firstText {name : Tree} (h : name.firstText = some s.text) (word : String) :
    (name.firstText == some word) = (s.text == word) := by
  rw [h]
  rfl

/-- The two tokens that are looked at tell what the names in the tree tell afterwards. -/
theorem fst_optionHead (henter : Steady enter) (hs : s.Valid) (hempty : s.siblings = [])
    (hnamed : ∀ t : State, t.words <:+ s.words → Named t) :
    (optionHead.run setting enter s).1
      = Tree.asksTemporal (optionHead.run setting enter s).2.names := by
  obtain ⟨key, hkey⟩ : ∃ key, key = s.bump := ⟨_, rfl⟩
  obtain ⟨value, hvalue⟩ : ∃ value, value = (qualName.run setting enter key).2 := ⟨_, rfl⟩
  have hfirst : (optionHead.run setting enter s).1
      = (key.text == "problem_type" && value.text == "temporal") := by
    rw [hvalue, hkey]
    rfl
  have hsecond : (optionHead.run setting enter s).2 = (optionValue.run setting enter value).2 := by
    rw [hvalue, hkey]
    rfl
  have hbump : s.Reaches key := hkey ▸ State.reaches_bump s
  have hreach : key.Reaches value := hvalue ▸ reaches_run setting henter qualName key
  have hnone : key.names = [] := by rw [hkey, State.names_bump, State.names, hempty]; rfl
  have hv := hbump.valid hs
  rw [hfirst, hsecond]
  by_cases hahead : NameAhead key
  · obtain ⟨name, hname, hnames⟩ : ∃ name : Tree, name.firstText = some key.text ∧
        (qualName.run setting enter key).2.names = key.names ++ [name] :=
      names_qualName henter hv hahead
    rw [← hvalue, hnone, List.nil_append] at hnames
    obtain ⟨-, second, hsecond, hall⟩ | ⟨hno, hall⟩ :
        NameAhead value ∧ (∃ second : Tree, second.firstText = some value.text ∧
          (optionValue.run setting enter value).2.names = value.names ++ [second]) ∨
        ¬ NameAhead value ∧ (optionValue.run setting enter value).2.names = value.names :=
      names_optionValue henter (hreach.valid hv)
    · rw [hall, hnames, ← beq_of_firstText hname, ← beq_of_firstText hsecond]
      rfl
    · have hother : (value.text == "temporal") = false :=
        beq_eq_false_iff_ne.mpr fun htext =>
          hno (hnamed value (hreach.words.trans hbump.words) (.inr htext))
      rw [hall, hnames, hother, Bool.and_false]
      exact (Bool.and_false _).symm
  · have hother : (key.text == "problem_type") = false :=
      beq_eq_false_iff_ne.mpr fun htext => hahead (hnamed key hbump.words (.inl htext))
    rw [run_qualName_of_not hahead] at hvalue
    have hnot : ¬ NameAhead value := by
      have hwords : value.words = key.words := by rw [hvalue, State.report_words]
      rwa [NameAhead, kindAt_congr hwords, kindAt_congr hwords]
    have hall : (optionValue.run setting enter value).2.names = value.names :=
      ((names_optionValue henter (hreach.valid hv)).resolve_left fun h => hnot h.1).2
    rw [hall, hvalue, State.names_report, hnone, hother]
    rfl

/-! ### Where options stand -/

/-- The node is no option. -/
def NoOption (kind : NodeKind) (_ : List Tree) (_ : List (TokenKind × String)) : Prop :=
  kind ≠ .optionDecl

/-- A rule that makes no options leaves none behind, if its calls do. -/
theorem Optionless.maintains {ν α : Type} {enter : ν → State → Bool × State} (henter : Steady enter)
    (hcalls : ∀ symbol, Maintains (State.Sound NoOption) (enter symbol)) {rule : Rule ν α}
    (h : Optionless setting enter rule) :
    Maintains (State.Sound NoOption) (rule.run setting enter) :=
  Every.maintains (fun _ hkind _ _ => hkind) (by decide) henter hcalls h

/-- There are no options in expressions. -/
theorem optionless_enter (setting : Setting) (levels : Nat) (symbol : Nonterminal) :
    Maintains (State.Sound NoOption) (language.enter setting levels symbol) := by
  induction levels generalizing symbol with
  | zero =>
    have hbeyond (enter : Empty → State → Bool × State) :
        Optionless setting enter (language.beyond symbol) :=
      (advances_beyond setting enter symbol).optionless
    exact (hbeyond _).maintains (steady_of_empty _) fun symbol => symbol.elim
  | succ levels ih =>
    have henter := language.steady_enter setting levels
    exact (optionless_body henter symbol).maintains henter ih

end Grammar
end RelLang
