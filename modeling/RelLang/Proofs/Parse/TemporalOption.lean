import Mathlib
import RelLang.Proofs.Grammar.Option
import RelLang.Proofs.Grammar.Track
import RelLang.Proofs.Parse.Order
import RelLang.Proofs.Parse.Temporal
import RelLang.Proofs.Rule.Frame
import RelLang.Proofs.Token.Tokens

/-!
# Options that admit temporal constructs

Where it is left to the text whether temporal constructs are admitted, the first option that asks
for them decides: what stands behind it is admitted, and what stands in front of it is not. Which
options ask is told by the first tokens of the names in them.
-/

namespace RelLang

/-! ### Places of trees -/

/-- The trees so far, and the skipped tokens behind them, reach up to the current word. -/
theorem Parse.widths_eq_place {config : ParseConfig} {tokens : List Token}
    (htokens : Token.Placed 0 tokens) {s : State} (hr : (start config tokens).Reaches s) :
    Tree.widths s.siblings.reverse + Token.size s.pending
      = (setting config tokens).place s.words := by
  have hsuffix := hr.rest
  rw [rest_start] at hsuffix
  obtain ⟨front, hfront⟩ := hsuffix
  have hleaves := hr.leaves
  rw [State.leaves, State.leaves, siblings_start, rest_start, ← hfront, List.map_append] at hleaves
  have hwidths : Tree.widths s.siblings.reverse = Token.size front := by
    rw [Tree.widths_eq, List.append_cancel_right hleaves, Tree.bytes, List.map_map]
    rfl
  rw [hwidths, Setting.place]
  have hplaced := htokens
  rw [← hfront, State.rest, Token.placed_append, Token.placed_append] at hplaced
  cases hw : s.words with
  | nil =>
    have hstop : (setting config tokens).stop = Token.size tokens := htokens.listStop_eq
    rw [List.head?_nil, Option.map_none, Option.getD_none, hstop, ← hfront, State.rest, hw]
    simp [Token.size, Word.tokens]
  | cons w ws =>
    rw [hw, Word.tokens_cons] at hplaced
    have hstart := hplaced.2.2.1
    rw [Nat.zero_add] at hstart
    exact hstart.symm

namespace Located

variable {start : Nat} {before ts : List Tree} {n : Located}

theorem le_start_of_mem_nodesIn (h : n ∈ nodesIn start before ts) : start ≤ n.start := by
  induction ts generalizing start before with
  | nil => cases h
  | cons t ts ih =>
    have hlater (h : n ∈ nodesIn (start + t.width) (t :: before) ts) : start ≤ n.start :=
      Nat.le_trans (Nat.le_add_right _ _) (ih h)
    cases t with
    | token kind text => exact hlater h
    | node kind children =>
      obtain rfl | h := List.mem_cons.mp h
      · exact Nat.le_refl _
      · exact hlater h

/-- Nodes side by side stand one behind another. -/
theorem pairwise_nodesIn (start : Nat) (before ts : List Tree) :
    (nodesIn start before ts).Pairwise fun m n => m.stop ≤ n.stop := by
  induction ts generalizing start before with
  | nil => exact .nil
  | cons t ts ih =>
    cases t with
    | token kind text => exact ih _ _
    | node kind children =>
      refine .cons (fun n hn => ?_) (ih _ _)
      exact Nat.le_trans (le_start_of_mem_nodesIn hn) (Nat.le_add_right _ _)

/-- The node is an option that asks for temporal constructs. -/
def asks (n : Located) : Bool :=
  n.kind == .optionDecl && Tree.asksTemporal (Tree.qualNames n.children)

end Located

/-- Where the options end that stand among some trees and ask for temporal constructs. -/
def Tree.askingStops (ts : List Tree) : List Nat :=
  ((Located.nodesIn 0 [] ts).filter Located.asks).map Located.stop

namespace Tree

theorem EverywhereAll.of_mem {P : NodeKind → List Tree → List (TokenKind × String) → Prop}
    {ts : List Tree} {behind : List (TokenKind × String)} (h : EverywhereAll P ts behind)
    {t : Tree} (ht : t ∈ ts) : ∃ behind, t.Everywhere P behind := by
  induction ts with
  | nil => cases ht
  | cons u us ih =>
    obtain rfl | ht := List.mem_cons.mp ht
    · exact ⟨_, h.1⟩
    · exact ih h.2 ht

theorem askingStops_append (ts us : List Tree) :
    askingStops (ts ++ us) = askingStops ts ++
      ((Located.nodesIn (widths ts) ts.reverse us).filter Located.asks).map Located.stop := by
  rw [askingStops, Located.nodesIn_append, List.filter_append, List.map_append, Nat.zero_add,
    List.append_nil]
  rfl

/-- Trees without options ask for nothing. -/
theorem askingStops_append_of_noOption {ts us : List Tree} {behind : List (TokenKind × String)}
    (hus : EverywhereAll Grammar.NoOption us behind) :
    askingStops (ts ++ us) = askingStops ts := by
  rw [askingStops_append, List.filter_eq_nil_iff.mpr, List.map_nil, List.append_nil]
  intro n hn hasks
  obtain ⟨_, hnode⟩ := hus.of_mem (Located.tree_mem_of_mem_nodesIn hn)
  have hkind : n.kind ≠ .optionDecl := hnode.1
  exact hkind (eq_of_beq (Bool.and_eq_true_iff.mp hasks).1)

theorem askingStops_append_option (ts children : List Tree) :
    askingStops (ts ++ [.node .optionDecl children])
      = askingStops ts ++ if asksTemporal (qualNames children) then
          [widths ts + (Tree.node .optionDecl children).width] else [] := by
  rw [askingStops_append]
  cases hasks : asksTemporal (qualNames children) <;>
    simp [Located.nodesIn, Located.asks, hasks, Located.stop, Located.tree]

theorem askingStops_attachPending (s : State) :
    askingStops s.attachPending.siblings.reverse = askingStops s.siblings.reverse := by
  have hskipped : EverywhereAll Grammar.NoOption (s.pending.map Token.skippedTree) [] :=
    State.everywhereAll_skippedTree (fun _ _ => nofun) _ _
  rw [State.attachPending, List.reverse_append, List.reverse_reverse]
  exact askingStops_append_of_noOption hskipped

theorem pairwise_askingStops (ts : List Tree) : (askingStops ts).Pairwise (· ≤ ·) :=
  List.pairwise_map.mpr ((Located.pairwise_nodesIn 0 [] ts).filter _)

end Tree

namespace Tree

/-- The words of an option that asks take some room. -/
theorem widths_pos_of_asksTemporal {children : List Tree}
    (h : asksTemporal (qualNames children) = true) : 0 < widths children := by
  obtain ⟨hkey, -⟩ := Bool.and_eq_true_iff.mp h
  obtain ⟨name, hname, hfirst⟩ := Option.bind_eq_some_iff.mp (eq_of_beq hkey)
  obtain ⟨leaf, hleaf, htext⟩ := Option.map_eq_some_iff.mp hfirst
  obtain ⟨leaves, hleaves⟩ := List.head?_eq_some_iff.mp hleaf
  have hmem : name ∈ children := (List.mem_filter.mp (List.mem_of_getElem? hname)).1
  obtain ⟨front, back, rfl⟩ := List.append_of_mem hmem
  have hsize : 0 < leaf.2.utf8ByteSize := by rw [htext]; decide
  have hbytes : bytes name.leaves = leaf.2.utf8ByteSize + bytes leaves := by
    rw [hleaves, bytes, List.map_cons, List.sum_cons]
    rfl
  rw [widths_eq, leavesAll_append, leavesAll, bytes_append, bytes_append]
  omega

end Tree

/-! ### Rules that steer two readings -/

namespace Rule

variable {ν α β σ : Type} {setting setting' : Setting} {enter enter' : ν → State → Bool × State}
  {I : State → Voice → Prop}

/-- The second run, with another voice, does what the first one does, and the states and the voice
stay related. -/
def Steers (I : State → Voice → Prop) (run run' : State → α × State) : Prop :=
  ∀ s v, s.Valid → I s v →
    ∃ v', run' (s.speak v) = ((run s).1, (run s).2.speak v') ∧ I (run s).2 v'

namespace Steers

theorem ofLooking {run run' : State → α × State} (hrun : ∀ s, (run s).2 = s)
    (hrun' : ∀ s v, run' (s.speak v) = ((run s).1, s.speak v)) : Steers I run run' := by
  intro s v _ h
  rw [hrun]
  exact ⟨v, hrun' s v, h⟩

theorem bind (henter : Steady enter) {first : Rule ν α} {next : α → Rule ν β}
    (hfirst : Steers I (first.run setting enter) (first.run setting' enter'))
    (hnext : ∀ a, Steers I ((next a).run setting enter) ((next a).run setting' enter')) :
    Steers I ((first >>= next).run setting enter) ((first >>= next).run setting' enter') := by
  intro s v hs h
  obtain ⟨v₁, hrun₁, h₁⟩ := hfirst s v hs h
  obtain ⟨v₂, hrun₂, h₂⟩ := hnext _ _ v₁ (valid_run setting henter first hs) h₁
  refine ⟨v₂, ?_, h₂⟩
  rw [run_bind, hrun₁]
  exact hrun₂

theorem progress {body : Rule ν α}
    (hbody : Steers I (body.run setting enter) (body.run setting' enter')) :
    Steers I ((Rule.progress body).run setting enter)
      ((Rule.progress body).run setting' enter') := by
  intro s v hs h
  obtain ⟨v', hrun, h'⟩ := hbody s v hs h
  refine ⟨v', ?_, h'⟩
  rw [run_progress, run_progress, hrun]
  rfl

theorem loop (henter : Steady enter) (hstall : ∀ s v, I s v → I { s with stalled := true } v)
    (a : σ) {body : σ → Rule ν (σ × Bool)}
    (hbody : ∀ a, Steers I ((body a).run setting enter) ((body a).run setting' enter')) :
    Steers I ((Rule.loop a body).run setting enter) ((Rule.loop a body).run setting' enter') := by
  have hrounds : ∀ rounds a, Steers I
      (iterate (fun a t => (body a).run setting enter t) rounds a)
      (iterate (fun a t => (body a).run setting' enter' t) rounds a) := by
    intro rounds
    induction rounds with
    | zero => exact fun a s v _ h => ⟨v, rfl, hstall s v h⟩
    | succ rounds ih =>
      intro a s v hs h
      obtain ⟨v₁, hrun₁, h₁⟩ := hbody a s v hs h
      unfold iterate
      rw [hrun₁]
      dsimp only
      split
      · exact ih _ _ v₁ (valid_run setting henter (body a) hs) h₁
      · exact ⟨v₁, rfl, h₁⟩
  exact fun s => hrounds (s.left + 1) a s

end Steers
end Rule

/-! ### The words that ask -/

namespace Lexer

/-- A significant token is of the kind that its text is of by itself. -/
theorem kind_of_isWord {text : String} {t : Token} (ht : t ∈ tokenize text)
    (hsig : t.kind.isSignificant = true) {kind : TokenKind} {word : String}
    (hword : lexemes word.toList = [⟨kind, word.toList, []⟩]) (htext : t.text = word) :
    t.kind = kind := by
  subst htext
  have hlexemes := (((cut_tokenize text).singleton ht).isWord hsig).1.symm.trans hword
  exact congrArg Lexeme.kind (List.cons.inj hlexemes).1

end Lexer

namespace Parse

open Lexer in
/-- In a reading of a text, the words that ask for temporal constructs are names. -/
theorem named_of_suffix {config : ParseConfig} {text : String} {s : State}
    (hwords : s.words <:+ (start config (tokenize text)).words) : Grammar.Named s := by
  intro hasks
  have hname : s.kindAt 0 = some .ident := by
    cases hw : s.words with
    | nil =>
      rw [State.text, State.current?, hw] at hasks
      simp at hasks
    | cons w ws =>
      obtain ⟨ht, hsig⟩ := token_mem_of_mem_words config _ w
        (hwords.subset (hw ▸ List.mem_cons_self))
      rw [State.text, State.current?, hw] at hasks
      rw [State.kindAt, hw]
      refine congrArg some (hasks.elim (kind_of_isWord ht hsig ?_) (kind_of_isWord ht hsig ?_)) <;>
        rw [Lexer.lexemes_eq] <;> rfl
  rw [Grammar.NameAhead, hname]
  rfl

end Parse

/-! ### Reading a module -/

/-- The start of a reading of a text: words are what they say, and the trees that are read reach up
to the words that are left. -/
structure Origin (setting : Setting) (start : State) : Prop where
  valid : start.Valid
  named : ∀ s : State, s.words <:+ start.words → Grammar.Named s
  place : ∀ s : State, start.Reaches s →
    Tree.widths s.siblings.reverse + Token.size s.pending = setting.place s.words

/-- What the voices are, given where the options end that asked for temporal constructs. -/
def Asked (setting : Setting) (words : List Word) (v v' : Voice) : List Nat → Prop
  | [] => Unadmitted setting setting.UpTo words v v'
  | offset :: _ => Admitted setting offset words v v'

/-- How far a module has been read from its start on: there are no options below its parts, and
the voices are told by those among the parts. -/
structure ModuleRead (setting : Setting) (start s : State) (v : Voice) : Prop where
  reached : start.Reaches s
  below : Tree.AtopAll (fun _ _ _ => True) Grammar.NoOption s.siblings.reverse
    (s.rest.map Token.toPair)
  asked : Asked setting s.words s.voice v (Tree.askingStops s.siblings.reverse)

namespace ModuleRead

open Grammar Rule

variable {setting setting' : Setting} {start s t : State} {v v' : Voice}

/-- Trees that are added leave those so far as they were. -/
theorem add {added : List Tree} (h : ModuleRead setting start s v) (hr : s.Reaches t)
    (ht : t.siblings = added ++ s.siblings)
    (hadded : Tree.AtopAll (fun _ _ _ => True) NoOption added.reverse (t.rest.map Token.toPair))
    (hasked : Asked setting t.words t.voice v' (Tree.askingStops t.siblings.reverse)) :
    ModuleRead setting start t v' := by
  have hleaves := hr.leaves
  rw [State.leaves, State.leaves, ht, List.reverse_append, Tree.leavesAll_append,
    List.append_assoc] at hleaves
  refine ⟨h.reached.trans hr, ?_, hasked⟩
  rw [ht, List.reverse_append, Tree.atopAll_append]
  refine ⟨?_, hadded⟩
  rw [List.append_cancel_left hleaves]
  exact h.below

/-- Trees without options leave the voices as they were related. -/
theorem addNoOption {added : List Tree} (h : ModuleRead setting start s v) (hr : s.Reaches t)
    (ht : t.siblings = added ++ s.siblings)
    (hadded : Tree.EverywhereAll NoOption added.reverse (t.rest.map Token.toPair))
    (hasked : Asked setting t.words t.voice v' (Tree.askingStops s.siblings.reverse)) :
    ModuleRead setting start t v' := by
  refine h.add hr ht (hadded.atopAll fun _ _ _ _ => trivial) ?_
  rw [ht, List.reverse_append, Tree.askingStops_append_of_noOption hadded]
  exact hasked

theorem attachPending (h : ModuleRead setting start s v) :
    ModuleRead setting start s.attachPending v := by
  refine h.addNoOption (State.reaches_attachPending s) rfl ?_ h.asked
  rw [List.reverse_reverse]
  exact State.everywhereAll_skippedTree (fun _ _ => nofun) _ _

section

variable {levels : Nat} {α : Type} {rule : Rule Nonterminal α}
variable (hstop : setting'.stop = setting.stop) (hfull : setting.maxDiagnostics = none)
  (hfull' : setting'.maxDiagnostics = none)

include hstop hfull hfull'

/-- Without options, the voices stay related as they were. -/
theorem follows_asked (horderly : Orderly rule)
    (hnone : rule.Every (· ≠ .optionDecl) (fun _ _ => True)) (stops : List Nat) :
    Follows (fun ws v v' => Asked setting ws v v' stops)
      (fun ws v v' => Asked setting ws v v' stops)
      (rule.run setting (language.enter setting levels))
      (rule.run setting' (language.enter setting' levels)) := by
  cases stops with
  | nil =>
    have hR := tracking_upTo hstop hfull hfull'
    have hrequire := follows_require_upTo hstop hfull hfull'
    exact horderly.follows hR hrequire (follows_enter hR hrequire levels) (.inl hnone)
  | cons offset stops =>
    have hR : Tracking setting setting' (Admitted setting offset) :=
      tracking_admitted hstop hfull hfull'
    have hrequire : Follows (Admitted setting offset) (Admitted setting offset)
        (fun s => ((), s.require setting)) (fun s => ((), s.require setting')) :=
      follows_require_admitted hfull
    exact horderly.follows hR hrequire (follows_enter hR hrequire levels) (.inl hnone)

/-- A rule without options reads a module further. -/
theorem steers (horderly : Orderly rule)
    (hoptionless : Optionless setting (language.enter setting levels) rule)
    (hframed : Framed setting (language.enter setting levels) rule) :
    Steers (ModuleRead setting start) (rule.run setting (language.enter setting levels))
      (rule.run setting' (language.enter setting' levels)) := by
  intro s v hs h
  have henter := language.steady_enter setting levels
  have hnone : rule.Every (· ≠ .optionDecl) (fun _ _ => True) :=
    hoptionless.mono (fun _ => id) fun _ _ _ => trivial
  obtain ⟨v', hrun, hasked⟩ := follows_asked hstop hfull hfull' horderly hnone _ s v h.asked
  have hmaintains := hoptionless.maintains henter (optionless_enter setting levels)
  have hsound := hmaintains { s with siblings := [] } (hs.of_eq rfl rfl rfl)
    (State.sound_of_siblings_eq_nil rfl)
  have htrees := congrArg (fun p => p.2.siblings) (hframed s)
  have hrest := congrArg (fun p => p.2.rest) (hframed s)
  refine ⟨v', hrun, h.addNoOption (reaches_run setting henter rule s) htrees ?_ hasked⟩
  rw [hrest]
  exact hsound.all

/-- What is read of an option adds nothing about temporal constructs. -/
theorem follows_optionHead {enter enter' : Nonterminal → State → Bool × State} (place : Nat) :
    Follows (Unadmitted setting fun _ n => n ≤ place) (Unadmitted setting fun _ n => n ≤ place)
      (optionHead.run setting enter) (optionHead.run setting' enter') := by
  have hR : Tracking setting setting' (Unadmitted setting fun _ n => n ≤ place) :=
    tracking_unadmitted hstop hfull hfull' fun _ _ _ _ _ hn => hn
  have htext : Follows (Unadmitted setting fun _ n => n ≤ place)
      (Unadmitted setting fun _ n => n ≤ place) (Rule.currentText.run setting enter)
      (Rule.currentText.run setting' enter') := .ofLooking (fun _ => rfl) fun _ _ => rfl
  refine .bind (.bump hR) fun _ => .bind htext fun key =>
    .bind (.ofElementary hR elementary_qualName.ignore) fun _ => .bind htext fun value =>
    .bind (.ofElementary hR elementary_optionValue) fun _ =>
    .ofLooking (fun _ => rfl) fun _ _ => rfl

end

/-- Where temporal constructs are not left to the text, an option makes a node and nothing else. -/
theorem run_optionDecl_of_mode (hmode : setting.mode ≠ .fromLanguageLine)
    (enter : Nonterminal → State → Bool × State) (s : State) :
    optionDecl.run setting enter s
      = ((), { (optionHead.run setting enter { s.attachPending with siblings := [] }).2 with
        siblings := .node .optionDecl (optionHead.run setting enter
          { s.attachPending with siblings := [] }).2.siblings.reverse
          :: s.attachPending.siblings }) := by
  rw [run_optionDecl, run_node, run_bind]
  generalize optionHead.run setting enter { s.attachPending with siblings := [] } = head
  obtain ⟨asks, t⟩ := head
  cases asks with
  | false => rfl
  | true =>
    have hadmit : (Rule.admitTemporal : Rule Nonterminal Unit).run setting enter t = ((), t) :=
      congrArg ((), ·) (if_neg hmode)
    rw [run_when_true, hadmit]

/-- Where it is left to the text, an option that asks for them admits temporal constructs. -/
theorem run_optionDecl_speak (hmode : setting.mode = .fromLanguageLine)
    (enter : Nonterminal → State → Bool × State) {asks : Bool} {v' : Voice}
    (hrun : optionHead.run setting enter
      (State.speak { s.attachPending with siblings := [] } v) = (asks, t.speak v')) :
    optionDecl.run setting enter (s.speak v)
      = ((), State.speak { t with
          siblings := .node .optionDecl t.siblings.reverse :: s.attachPending.siblings }
        (if asks then { v' with temporal := true } else v')) := by
  have hopened : ({ (s.speak v).attachPending with siblings := [] } : State)
      = State.speak { s.attachPending with siblings := [] } v := rfl
  rw [run_optionDecl, run_node, run_bind, hopened, hrun]
  cases asks with
  | false => rfl
  | true =>
    have hadmit : (Rule.admitTemporal : Rule Nonterminal Unit).run setting enter (t.speak v')
        = ((), { t.speak v' with temporal := true }) := congrArg ((), ·) (if_pos hmode)
    rw [run_when_true, hadmit]
    rfl

theorem optionless_optionHead {enter : Nonterminal → State → Bool × State} (henter : Steady enter) :
    Optionless setting enter optionHead := by
  have hvalue : Optionless setting enter optionValue := (advances_optionValue henter).optionless
  simp [optionHead, hvalue, (advances_qualName henter).optionless]

/-- Voices that are the same up to an option are told apart behind it if it asks for temporal
constructs. -/
theorem asked_of_unadmitted {words : List Word} {place width : Nat} {asks : Bool}
    (h : Unadmitted setting (fun _ n => n ≤ place) words v v') (hle : place ≤ setting.place words)
    (hasks : asks = true → 0 < width ∧ place + width ≤ setting.place words) :
    Asked setting words v (if asks then { v' with temporal := true } else v')
      ([] ++ if asks then [place + width] else []) := by
  obtain rfl := h.same
  cases asks with
  | false =>
    exact ⟨h.separates, rfl, h.disabled, fun r hr hcode =>
      Nat.le_trans (h.placed r hr hcode) hle⟩
  | true =>
    obtain ⟨hpos, hbehind⟩ := hasks rfl
    have hfront (r : Report) (hr : r ∈ v'.reports) (hcode : r.problem.code = .temporalDisabled) :
        r.range.start < place + width :=
      Nat.lt_of_le_of_lt (h.placed r hr hcode) (Nat.lt_add_of_pos_right hpos)
    exact ⟨h.separates.orders, h.disabled, rfl, (Report.filter_isTemporalFrom hfront).symm,
      hbehind⟩

section Option

variable (horigin : Origin setting start) (h : ModuleRead setting start s v)
  (hreach : State.Reaches { s.attachPending with siblings := [] } t)

include horigin h hreach

/-- An option stands in front of the words that are left behind it. -/
theorem place_option :
    setting.place s.words + Tree.widths t.siblings.reverse ≤ setting.place t.words := by
  have hfront : Tree.widths s.attachPending.siblings.reverse = setting.place s.words :=
    horigin.place _ h.attachPending.reached
  have hbehind := horigin.place _ (h.reached.trans (hreach.node .optionDecl))
  rw [List.reverse_cons, Tree.widths_eq, Tree.leavesAll_append, Tree.bytes_append,
    ← Tree.widths_eq, ← Tree.widths_eq, hfront] at hbehind
  have hwidth : Tree.widths [.node .optionDecl t.siblings.reverse]
      = Tree.widths t.siblings.reverse := Nat.add_zero _
  rw [hwidth] at hbehind
  exact hbehind ▸ Nat.le_add_right _ _

/-- An option is added to the parts, and to those that ask if its names do. -/
theorem addOption (hbelow : t.Sound NoOption)
    (hasked : Asked setting t.words t.voice v' (Tree.askingStops s.siblings.reverse ++
      if Tree.asksTemporal t.names then
        [setting.place s.words + Tree.widths t.siblings.reverse] else [])) :
    ModuleRead setting start { t with
      siblings := .node .optionDecl t.siblings.reverse :: s.attachPending.siblings } v' := by
  have hfront : Tree.widths s.attachPending.siblings.reverse = setting.place s.words :=
    horigin.place _ h.attachPending.reached
  have hnode : s.attachPending.Reaches _ :=
    (hreach.wrap .optionDecl).behind s.attachPending.siblings
  refine h.attachPending.add hnode (List.singleton_append).symm ?_ ?_
  · exact ⟨⟨trivial, hbelow.all⟩, trivial⟩
  · rw [List.reverse_cons, Tree.askingStops_append_option, Tree.askingStops_attachPending, hfront]
    exact hasked

end Option

/-- An option reads a module further: from its end on temporal constructs are admitted, if it is the
first that asks for them. -/
theorem steers_optionDecl (hstop : setting'.stop = setting.stop)
    (hfull : setting.maxDiagnostics = none) (hfull' : setting'.maxDiagnostics = none)
    (hmode : setting.mode ≠ .fromLanguageLine) (hmode' : setting'.mode = .fromLanguageLine)
    (horigin : Origin setting start) (levels : Nat) :
    Steers (ModuleRead setting start) (optionDecl.run setting (language.enter setting levels))
      (optionDecl.run setting' (language.enter setting' levels)) := by
  intro s v hs h
  have henter := language.steady_enter setting levels
  let opened : State := { s.attachPending with siblings := [] }
  obtain ⟨asks, t, hhead⟩ : ∃ asks t,
      optionHead.run setting (language.enter setting levels) opened = (asks, t) := ⟨_, _, rfl⟩
  have hreach : opened.Reaches t := by
    have hr := reaches_run setting henter optionHead opened
    rwa [hhead] at hr
  have hasks : asks = Tree.asksTemporal t.names := by
    have hfirst : (optionHead.run setting (language.enter setting levels) opened).1 = _ :=
      fst_optionHead henter hs.opened rfl fun u hu => horigin.named u (hu.trans h.reached.words)
    rwa [hhead] at hfirst
  have hbelow : t.Sound NoOption := by
    have hoptionless : Optionless setting _ optionHead := optionless_optionHead henter
    have hsound := hoptionless.maintains henter (optionless_enter setting levels)
      opened hs.opened (State.sound_of_siblings_eq_nil rfl)
    rwa [hhead] at hsound
  have hrun := run_optionDecl_of_mode hmode (language.enter setting levels) s
  rw [hhead] at hrun
  have hasked := h.asked
  have hread {v' : Voice} (hasked' : Asked setting t.words t.voice v' _) :=
    h.addOption horigin hreach hbelow hasked'
  rw [← hasks] at hread
  rw [hrun]
  cases hstops : Tree.askingStops s.siblings.reverse with
  | cons offset stops =>
    rw [hstops] at hasked hread
    have hfollows : Follows (Admitted setting offset) (Admitted setting offset)
        (optionDecl.run setting (language.enter setting levels))
        (optionDecl.run setting' (language.enter setting' levels)) :=
      follows_optionDecl (tracking_admitted hstop hfull hfull') (follows_admit_admitted hmode)
    obtain ⟨v', hrun', hasked'⟩ := hfollows s v hasked
    rw [hrun] at hrun' hasked'
    exact ⟨v', hrun', hread hasked'⟩
  | nil =>
    rw [hstops] at hasked hread
    have hplaced : Unadmitted setting (fun _ n => n ≤ setting.place s.words) s.words s.voice v :=
      ⟨hasked.separates, hasked.same, hasked.disabled, hasked.placed⟩
    obtain ⟨v', hhead', hvoices⟩ :=
      follows_optionHead hstop hfull hfull' (setting.place s.words) opened v hplaced
    rw [hhead] at hhead' hvoices
    refine ⟨_, run_optionDecl_speak hmode' _ hhead', hread (asked_of_unadmitted hvoices ?_ ?_)⟩
    · exact hplaced.separates.orders.place_le hreach.words
    · exact fun htrue => ⟨Tree.widths_pos_of_asksTemporal (hasks.symm.trans htrue),
        place_option horigin h hreach⟩

section

variable (hstop : setting'.stop = setting.stop) (hfull : setting.maxDiagnostics = none)
  (hfull' : setting'.maxDiagnostics = none) (hmode : setting.mode ≠ .fromLanguageLine)
  (hmode' : setting'.mode = .fromLanguageLine) (horigin : Origin setting start) (levels : Nat)

include hstop hfull hfull' hmode hmode' horigin

theorem steers_paragraph (form : ParagraphStart) :
    Steers (ModuleRead setting start) (form.rule.run setting (language.enter setting levels))
      (form.rule.run setting' (language.enter setting' levels)) := by
  by_cases hform : form = .option
  · subst hform
    exact steers_optionDecl hstop hfull hfull' hmode hmode' horigin levels
  · have henter := language.steady_enter setting levels
    refine steers hstop hfull hfull' (@guarded_paragraph false form).orderly
      (optionless_paragraph henter hform) ?_
    cases form with
    | assertion => exact .ignore (.group _)
    | _ => exact .node _ _

theorem steers_declaration (seen : Seen) :
    Steers (ModuleRead setting start)
      ((declaration seen).run setting (language.enter setting levels))
      ((declaration seen).run setting' (language.enter setting' levels)) := by
  have henter := language.steady_enter setting levels
  have hpeek (n : Nat) : Steers (ModuleRead setting start)
      ((peek n).run setting (language.enter setting levels))
      ((peek n).run setting' (language.enter setting' levels)) :=
    .ofLooking (fun _ => rfl) fun _ _ => rfl
  have hdone (seen : Seen) : Steers (ModuleRead setting start)
      ((pure seen : Rule Nonterminal Seen).run setting (language.enter setting levels))
      ((pure seen : Rule Nonterminal Seen).run setting' (language.enter setting' levels)) :=
    .ofLooking (fun _ => rfl) fun _ _ => rfl
  have hplain {rule : Rule Nonterminal Unit} (hrule : Guarded false rule)
      (hoptionless : Optionless setting (language.enter setting levels) rule)
      (hframed : Framed setting (language.enter setting levels) rule) :
      Steers (ModuleRead setting start) (rule.run setting (language.enter setting levels))
        (rule.run setting' (language.enter setting' levels)) :=
    steers hstop hfull hfull' hrule.orderly hoptionless hframed
  have hreport (said : Bool) {problem : Problem} (hproblem : problem.ofRule = true) :
      Steers (ModuleRead setting start)
        ((when said (report problem)).run setting (language.enter setting levels))
        ((when said (report problem)).run setting' (language.enter setting' levels)) :=
    hplain (.when (.report hproblem)) (by simp) (.when (.report _))
  refine .bind henter (hpeek 0) fun first => .bind henter (hpeek 1) fun second =>
    .bind henter (hpeek 2) fun third => ?_
  split
  · have hmodule := hplain guarded_moduleDecl (advances_moduleDecl henter).optionless (.node _ _)
    exact .bind henter (hreport true rfl) fun _ => .bind henter hmodule fun _ => hdone seen
  · have himport := hplain guarded_importDecl (advances_importDecl henter).optionless (.node _ _)
    exact .bind henter (hreport _ rfl) fun _ => .bind henter himport fun _ => hdone seen
  · have heval := hplain guarded_evalDecl advances_evalDecl.optionless (.node _ _)
    exact .bind henter (hreport _ rfl) fun _ => .bind henter heval fun _ => hdone _
  · split
    · next form _ =>
      have hform := steers_paragraph hstop hfull hfull' hmode hmode' horigin levels form
      exact .bind henter (hreport _ rfl) fun _ => .bind henter hform fun _ => hdone _
    · exact hdone seen

theorem steers_moduleItem (seen : Seen) :
    Steers (ModuleRead setting start)
      ((moduleItem seen).run setting (language.enter setting levels))
      ((moduleItem seen).run setting' (language.enter setting' levels)) := by
  have henter := language.steady_enter setting levels
  have hended : Steers (ModuleRead setting start)
      (atEnd.run setting (language.enter setting levels))
      (atEnd.run setting' (language.enter setting' levels)) :=
    .ofLooking (fun _ => rfl) fun _ _ => rfl
  have hdone (seen : Seen) (more : Bool) : Steers (ModuleRead setting start)
      ((pure (seen, more) : Rule Nonterminal _).run setting (language.enter setting levels))
      ((pure (seen, more) : Rule Nonterminal _).run setting' (language.enter setting' levels)) :=
    .ofLooking (fun _ => rfl) fun _ _ => rfl
  have hskip (stuck : Bool) : Steers (ModuleRead setting start)
      ((when stuck (skipUntil .paragraph [])).run setting (language.enter setting levels))
      ((when stuck (skipUntil .paragraph [])).run setting' (language.enter setting' levels)) :=
    steers hstop hfull hfull' (.when (.skipUntil [] rfl))
      ((every_when _ _).mpr fun _ => (advances_skipUntil _ _).optionless)
      (.when (.bind (.report _) fun _ => .bind (.ofLooking (fun _ => rfl) fun _ => rfl) fun _ =>
        .when (.node _ _)))
  refine .bind henter hended fun ended => ?_
  split
  · exact hdone seen false
  · exact .bind henter
      (.progress (steers_declaration hstop hfull hfull' hmode hmode' horigin levels seen))
      fun _ => .bind henter hended fun _ => .bind henter (hskip _) fun _ => hdone _ true

theorem steers_sourceFile :
    Steers (ModuleRead setting start) (sourceFile.run setting (language.enter setting levels))
      (sourceFile.run setting' (language.enter setting' levels)) := by
  have henter := language.steady_enter setting levels
  have hfirst : Steers (ModuleRead setting start)
      ((currentIs Keyword.moduleKw).run setting (language.enter setting levels))
      ((currentIs Keyword.moduleKw).run setting' (language.enter setting' levels)) :=
    .ofLooking (fun _ => rfl) fun _ _ => rfl
  have hmodule (first : Bool) : Steers (ModuleRead setting start)
      ((when first moduleDecl).run setting (language.enter setting levels))
      ((when first moduleDecl).run setting' (language.enter setting' levels)) :=
    steers hstop hfull hfull' (.when (@guarded_moduleDecl false).orderly)
      ((every_when _ _).mpr fun _ => (advances_moduleDecl henter).optionless) (.when (.node _ _))
  have hstall (s : State) (v : Voice) (h : ModuleRead setting start s v) :
      ModuleRead setting start { s with stalled := true } v :=
    h.add (.of_eq rfl rfl rfl rfl rfl (List.suffix_refl _) id fun _ => rfl) (List.nil_append _).symm
      trivial h.asked
  refine .bind henter hfirst fun _ => .bind henter (hmodule _) fun _ => .bind henter ?_ fun _ =>
    .ofLooking (fun _ => rfl) fun _ _ => rfl
  exact .loop henter hstall _
    (steers_moduleItem hstop hfull hfull' hmode hmode' horigin levels)

end

end ModuleRead

/-- The reports that the second voice left out are those of temporal constructs behind an option
that asked for them. -/
theorem Asked.reports_eq {setting : Setting} {words : List Word} {v v' : Voice} {stops : List Nat}
    (h : Asked setting words v v' stops) (hstops : stops.Pairwise (· ≤ ·)) :
    v'.reports = v.reports.filter fun r =>
      !(r.problem.code == .temporalDisabled && stops.any fun n => decide (n ≤ r.range.start)) := by
  cases stops with
  | nil =>
    have hkeep : ∀ r ∈ v.reports, (!(r.problem.code == .temporalDisabled &&
        [].any fun n => decide (n ≤ r.range.start))) = true := by simp
    rw [List.filter_eq_self.mpr hkeep, h.same]
  | cons offset stops =>
    rw [h.reports]
    refine List.filter_congr fun r _ => ?_
    have hfirst : ((offset :: stops).any fun n => decide (n ≤ r.range.start))
        = decide (offset ≤ r.range.start) := by
      rw [List.any_cons, Bool.or_eq_left_iff_imp]
      intro hany
      obtain ⟨n, hn, hle⟩ := List.any_eq_true.mp hany
      have hoffset := (List.pairwise_cons.mp hstops).1 n hn
      exact decide_eq_true (Nat.le_trans hoffset (of_decide_eq_true hle))
    rw [hfirst]
    rfl

namespace Parse

theorem origin_start (config : ParseConfig) (text : String) :
    Origin (setting config (tokenize text)) (start config (tokenize text)) where
  valid := valid_start _ _
  named _ := named_of_suffix
  place _ := widths_eq_place (placed_tokenize text)

/-- At the start of a module nothing has been read. -/
theorem moduleRead_start (text : String)
    (hadmits : ({ temporal := .fromLanguageLine } : ParseConfig).admitsTemporal
      (languageOf ((tokenize text).map Token.toPair)) = false) :
    ModuleRead (setting { temporal := .disabled } (tokenize text))
      (start { temporal := .disabled } (tokenize text))
      (start { temporal := .disabled } (tokenize text))
      ⟨(start { temporal := .disabled } (tokenize text)).reports,
        ({ temporal := .fromLanguageLine } : ParseConfig).admitsTemporal
          (languageOf ((tokenize text).map Token.toPair))⟩ := by
  refine ⟨.refl _, ?_, ?_⟩ <;> rw [siblings_start]
  · trivial
  · exact unadmitted_start (placed_tokenize text) hadmits

/-- A module is read to its end by both readings; the voices there are told by the options among its
parts. -/
theorem final_read {config config' : ParseConfig} (hfull : config.maxDiagnostics = none)
    (hfull' : config'.maxDiagnostics = none) (hmode : config.temporal ≠ .fromLanguageLine)
    (hmode' : config'.temporal = .fromLanguageLine) {text : String} {v : Voice}
    (hstart : start config' (tokenize text) = (start config (tokenize text)).speak v)
    (hread : ModuleRead (setting config (tokenize text)) (start config (tokenize text))
      (start config (tokenize text)) v) :
    ∃ s v', final config .wholeModule (tokenize text) = s ∧
      final config' .wholeModule (tokenize text) = s.speak v' ∧
      ModuleRead (setting config (tokenize text)) (start config (tokenize text)) s v' := by
  have hsteers := ModuleRead.steers_sourceFile
    (show (setting config' (tokenize text)).stop = (setting config (tokenize text)).stop from rfl)
    hfull hfull' hmode hmode' (origin_start config text) nestingLimit
  obtain ⟨v', hrun, hv'⟩ := hsteers _ v (valid_start config (tokenize text)) hread
  rw [← hstart] at hrun
  refine ⟨final config .wholeModule (tokenize text), v', rfl, ?_, hv'.attachPending⟩
  show (Grammar.sourceFile.run _ _ _).2.attachPending = _
  rw [hrun, State.speak_attachPending]
  rfl

/-- The options in a tree, wherever they are. -/
def optionDecls (t : Tree) : List OptionDecl :=
  (Located.nodesOf 0 [] t).filterMap (·.as? (.only .optionDecl))

/-- If there are no options below the parts of a module, those that ask are among the parts. -/
theorem any_optionDecls {ts : List Tree} {behind : List (TokenKind × String)}
    (hbelow : Tree.AtopAll (fun _ _ _ => True) Grammar.NoOption ts behind) (offset : Nat) :
    ((optionDecls (.node .sourceFile ts)).any fun v =>
        v.asksTemporal && decide (v.node.stop ≤ offset))
      = (Tree.askingStops ts).any fun n => decide (n ≤ offset) := by
  rw [Bool.eq_iff_iff, List.any_eq_true, List.any_eq_true]
  constructor
  · rintro ⟨v, hv, hasks⟩
    obtain ⟨n, hn, hseen⟩ := List.mem_filterMap.mp hv
    obtain rfl := Located.node_of_as? hseen
    have hkind : .optionDecl = v.node.kind := eq_of_beq v.admitted
    have hnode : v.node ∈ Located.allNodesOf 0 [] ts := by
      refine (List.mem_cons.mp hn).resolve_left fun hroot => ?_
      rw [hroot] at hkind
      cases hkind
    obtain ⟨_, _, -, -, hno | ⟨hpart, -⟩⟩ := Located.atop_of_mem_allNodesOf hbelow hnode
    · exact absurd hkind.symm hno
    · obtain ⟨hnames, hstop⟩ := Bool.and_eq_true_iff.mp hasks
      rw [OptionDecl.asksTemporal_eq] at hnames
      refine ⟨v.node.stop, List.mem_map_of_mem (List.mem_filter.mpr ⟨hpart, ?_⟩), hstop⟩
      rw [Located.asks, ← hkind, hnames]
      rfl
  · rintro ⟨stop, hmem, hstop⟩
    obtain ⟨n, hn, rfl⟩ := List.mem_map.mp hmem
    obtain ⟨hpart, hasks⟩ := List.mem_filter.mp hn
    obtain ⟨hkind, hnames⟩ := Bool.and_eq_true_iff.mp hasks
    have hadmitted : (Category.only .optionDecl).admits n.kind = true :=
      beq_iff_eq.mpr (eq_of_beq hkind).symm
    refine ⟨⟨n, hadmitted⟩, List.mem_filterMap.mpr ⟨n, ?_, dif_pos hadmitted⟩, ?_⟩
    · exact List.mem_cons_of_mem _ (Located.mem_allNodesOf_of_mem_nodesIn hpart)
    · rw [OptionDecl.asksTemporal_eq]
      exact Bool.and_eq_true_iff.mpr ⟨hnames, hstop⟩

/-- Where it is left to the text whether temporal constructs are admitted, and its language is not
temporal, the options in the tree decide it: a temporal construct is reported if and only if no
option that asks for them ends in front of it. All other diagnostics are those of a reading that
admits no temporal constructs. An option asks for them if its key and its value begin with the words
that do. -/
theorem admitted_behind_option (text : String)
    (hlanguage : (ofText { temporal := .disabled } .wholeModule text).language.any
      isTemporalLanguage = false) :
    (ofText { temporal := .fromLanguageLine } .wholeModule text).errors
      = (ofText { temporal := .disabled } .wholeModule text).errors.filter fun d =>
        !(d.code == .temporalDisabled &&
          (optionDecls (ofText { temporal := .fromLanguageLine } .wholeModule text).tree).any
            fun v => v.asksTemporal && decide (v.node.stop ≤ d.range.start)) := by
  have hmode : TemporalMode.disabled ≠ .fromLanguageLine := nofun
  obtain ⟨s, v, hfull, hdialect, hread⟩ := final_read rfl rfl hmode rfl
    (start_mode .disabled .fromLanguageLine (tokenize text)) (moduleRead_start text hlanguage)
  have htree : (ofText { temporal := .fromLanguageLine } .wholeModule text).tree
      = .node .sourceFile s.siblings.reverse := by
    rw [ofText, tree_ofTokens, hdialect]
    rfl
  have hany (offset : Nat) := any_optionDecls hread.below offset
  rw [← htree] at hany
  simp only [hany]
  refine errors_of_filter ?_
  rw [ofText, ofText, reports_ofTokens, reports_ofTokens, hfull, hdialect]
  show v.reports.reverse = _
  rw [hread.asked.reports_eq (Tree.pairwise_askingStops _), List.filter_reverse]
  rfl

/-- What stands in front of the option is reported, and what stands behind it is not. -/
theorem admitted_behind_option_between :
    let text := "var sig A {}\noption problem_type temporal\nvar sig B {}"
    (ofText { temporal := .disabled } .wholeModule text).language.any isTemporalLanguage = false ∧
    (ofText { temporal := .fromLanguageLine } .wholeModule text).errors
      = (ofText { temporal := .disabled } .wholeModule text).errors.filter fun d =>
        !(d.code == .temporalDisabled &&
          (optionDecls (ofText { temporal := .fromLanguageLine } .wholeModule text).tree).any
            fun v => v.asksTemporal && decide (v.node.stop ≤ d.range.start)) := by
  have hlanguage : (ofText { temporal := .disabled } .wholeModule
      "var sig A {}\noption problem_type temporal\nvar sig B {}").language.any
      isTemporalLanguage = false := by rw [ofText_eq]; rfl
  exact ⟨hlanguage, admitted_behind_option _ hlanguage⟩

/-- A key that only begins with the word asks for temporal constructs too. -/
theorem longer_key_admits :
    (ofText { temporal := .disabled } .wholeModule
      "option problem_type/x temporal\nvar sig A {}").language = none ∧
    (ofText { temporal := .disabled } .wholeModule
      "option problem_type/x temporal\nvar sig A {}").reports.map
        (fun r => (r.problem.code, r.range.start)) = [(.temporalDisabled, 31)] ∧
    (ofText { temporal := .fromLanguageLine } .wholeModule
      "option problem_type/x temporal\nvar sig A {}").ok = true ∧
    (optionDecls (ofText { temporal := .fromLanguageLine } .wholeModule
      "option problem_type/x temporal\nvar sig A {}").tree).map
        (fun v => (v.key.map QualName.text, v.value))
      = [(some "problem_type/x", some "temporal")] := by
  have htree : (ofText { temporal := .fromLanguageLine } .wholeModule
      "option problem_type/x temporal\nvar sig A {}").tree = .node .sourceFile
      [.node .optionDecl [.token (.keyword .optionKw) "option", .token .whitespace " ",
          .node .qualName [.token .ident "problem_type", .token (.punct .slash) "/",
            .token .ident "x"],
          .token .whitespace " ", .node .qualName [.token .ident "temporal"]],
        .token .whitespace "\n",
        .node .sigDecl [.token (.keyword .varKw) "var", .token .whitespace " ",
          .token (.keyword .sigKw) "sig", .token .whitespace " ",
          .node .nameList [.node .name [.token .ident "A"]], .token .whitespace " ",
          .node .fieldList [.token (.punct .lbrace) "\x7b",
            .token (.punct .rbrace) "\x7d"]]] := by rw [ofText_eq]; rfl
  refine ⟨by rw [ofText_eq]; rfl, by rw [ofText_eq]; rfl, by rw [ofText_eq]; rfl, ?_⟩
  rw [htree]
  rfl

end Parse
end RelLang
