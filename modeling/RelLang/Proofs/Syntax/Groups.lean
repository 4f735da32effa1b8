import RelLang.Proofs.Grammar.Decide
import RelLang.Proofs.Parse.Context
import RelLang.Proofs.Parse.Stray
import RelLang.Proofs.Syntax.Gives

/-!
# Groups in groups

An expression in parentheses, in braces or between the brackets of arguments is a group, and
groups may be put into each other in any order. As long as there are levels left, a group is read
with its closing mark. Past the last level all of the text of the groups that are left is skipped
into one node, and reading goes on with the closing mark of the group around them.
-/

namespace RelLang

open Rule

/-- What opens a group: `(`, `{` or `f[`. -/
inductive Opener where
  | paren | brace | call
  deriving DecidableEq, Repr

namespace Opener

/-- The tokens in front of the expression in the group. -/
def front : Opener → List (TokenKind × String)
  | .paren => [(.punct .lparen, "(")]
  | .brace => [(.punct .lbrace, "\x7b")]
  | .call => [(.ident, "f"), (.punct .lbracket, "[")]

/-- The token that closes the group. -/
def closer : Opener → TokenKind × String
  | .paren => (.punct .rparen, ")")
  | .brace => (.punct .rbrace, "\x7d")
  | .call => (.punct .rbracket, "]")

/-- The group around an expression. -/
def wrap : Opener → Tree → Tree
  | .paren, t => Form.parenTree t
  | .brace, t => .node .block [.token (.punct .lbrace) "\x7b", t, .token (.punct .rbrace) "\x7d"]
  | .call, t => Form.boxTree [t]

theorem leaves_wrap (o : Opener) (t : Tree) :
    (o.wrap t).leaves = o.front ++ t.leaves ++ [o.closer] := by
  cases o <;>
    simp [wrap, Form.parenTree, Form.boxTree, Form.argumentTrees, Form.commaTrees, Tree.leaves,
      Tree.leavesAll, front, closer]

theorem isCloser_closer (o : Opener) : o.closer.1.isCloser = true := by cases o <;> rfl

/-- The tokens of groups in groups, the outermost first, around a name. -/
def words : List Opener → List (TokenKind × String)
  | [] => [(.ident, "a")]
  | o :: w => o.front ++ words w ++ [o.closer]

/-- The groups as they are read with a number of levels left: what is past the last level is
skipped. -/
def tree : Nat → List Opener → Tree
  | 0, w => .node .error (Tree.ofWords (words w))
  | _ + 1, [] => .node .nameRef [.node .qualName [.token .ident "a"]]
  | n + 1, o :: w => o.wrap (tree n w)

/-- What is reported if there is anything past the last level. -/
def problems (levels : Nat) (w : List Opener) : List Problem :=
  if w.length < levels then [] else [.tooDeep]

theorem leaves_tree (n : Nat) (w : List Opener) : (tree n w).leaves = words w := by
  induction n generalizing w with
  | zero => rw [tree, Tree.leaves, Tree.leavesAll_ofWords]
  | succ n ih =>
    cases w with
    | nil => rfl
    | cons o w => rw [tree, leaves_wrap, ih, words]

/-- Whatever opens a group can begin an expression. -/
theorem first_words (w : List Opener) :
    ∃ k ∈ ((words w).map (·.1)).head?, Operator.startsExpr k = true := by
  cases w with
  | nil => exact ⟨.ident, rfl, rfl⟩
  | cons o w => cases o <;> exact ⟨_, rfl, rfl⟩

theorem ne_invalid_of_mem_words {w : List Opener} {v : TokenKind × String} (hv : v ∈ words w) :
    v.1 ≠ .invalid := by
  induction w with
  | nil =>
    rw [List.mem_singleton.mp hv]
    exact nofun
  | cons o w ih =>
    have hown : ∀ u ∈ o.front ++ [o.closer], u.1 ≠ .invalid := by cases o <;> decide
    rw [words, List.mem_append, List.mem_append] at hv
    obtain (hfront | hinner) | hcloser := hv
    · exact hown v (List.mem_append_left _ hfront)
    · exact ih hinner
    · exact hown v (List.mem_append_right _ hcloser)

/-- A group in braces is no declaration. -/
theorem declarationAhead_words (w : List Opener) {closer : TokenKind}
    (hcloser : closer.isCloser = true) (ks : List TokenKind) :
    Grammar.declarationAhead ((words w).map (·.1) ++ closer :: ks) = false := by
  cases w with
  | nil =>
    cases closer with
    | punct p => cases p <;> first | rfl | cases hcloser
    | _ => cases hcloser
  | cons o w => cases o <;> rfl

end Opener

namespace Grammar

variable {r : Reader} {t : Tree} {us : List Tree} {problems : List Problem}
  {behind : List (TokenKind × String)} {level : Nat}

/-! ### Expressions -/

/-- A closing mark ends an expression, and so does the end of the text. -/
def AtClose (behind : List (TokenKind × String)) : Prop :=
  ∀ w ∈ behind.head?, w.1.isCloser = true

theorem atClose_nil : AtClose [] := nofun

/-- Whatever closes nothing is not ahead. -/
theorem AtClose.not_at? (h : AtClose behind) {k : TokenKind} (hk : k.isCloser = false) :
    Form.at? k (behind.map (·.1)) = false := by
  refine Bool.eq_false_iff.mpr fun hat => ?_
  obtain ⟨w, hw, rfl⟩ : ∃ w ∈ behind.head?, w.1 = k := by
    have hfirst : (behind.map (·.1))[0]? = some k := eq_of_beq hat
    rw [List.getElem?_map, Option.map_eq_some_iff] at hfirst
    obtain ⟨w, hw, hk⟩ := hfirst
    exact ⟨w, by rwa [List.head?_eq_getElem?], hk⟩
  exact Bool.false_ne_true (hk.symm.trans (h w hw))

theorem AtClose.stopsAt (h : AtClose behind) (level : Nat) :
    Operator.stopsAt level (behind.map (·.1)) = true := by
  cases behind with
  | nil => rfl
  | cons w ws =>
    have hw : w.1.isCloser = true := h w rfl
    have hnone : ∀ second, Operator.extension? w.1 second = none := by
      generalize w.1 = k at hw
      intro second
      cases k with
      | punct p =>
        cases p with
        | rparen | rbracket | rbrace => rfl
        | _ => cases hw
      | _ => cases hw
    simp [Operator.stopsAt, Operator.extensionOf, hnone]

/-- What is read where nothing was read before is read in a group. -/
theorem gives_group {α : Type} {a : α} {body : Rule Nonterminal α} {ts : List Tree}
    (h : ∀ s : State, s.Ready → s.temporal = true → s.bare = [] →
      s.input = Tree.leavesAll ts ++ behind →
      (body.run r.setting r.enter s).1 = a ∧
        State.Adds ts problems s (body.run r.setting r.enter s).2) :
    Gives r.setting r.enter (Rule.group body) a ts problems behind := by
  intro s hs ht hinput
  obtain ⟨hvalue, hadds⟩ := h (inner s) (ready_inner hs) ht rfl hinput
  rw [run_group]
  refine ⟨hvalue, (bare_group hs _).trans ?_, hadds.reports⟩
  rw [hadds.bare, bare_inner, List.nil_append]

/-- An operand with nothing behind it that extends it is an expression. -/
theorem gives_expression (hr : r.Faithful)
    (hhead : Gives r.setting r.enter operandHead true [t] problems behind)
    (hstops : Operator.stopsAt level (behind.map (·.1)) = true) :
    Gives r.setting r.enter (expression level) true [t] problems behind := by
  have hextend : Gives r.setting r.enter (when true (extend level)) () [] [] behind := by
    intro s hs _ hinput
    have hkinds : s.kinds = behind.map (·.1) := by
      rw [State.kinds_eq, hinput]
      rfl
    rw [run_when_true, run_extend_of_stops hr hs.valid (hkinds ▸ hstops)]
    exact ⟨rfl, (State.Took.refl s).adds⟩
  have hbody : Gives r.setting r.enter (expressionBody level) true [t] problems behind :=
    .yielding hr.steady hhead (.yielding hr.steady hextend (gives_pure true))
  exact gives_group fun s hs ht _ hinput => hbody s hs ht hinput

/-- With one operator ahead and nothing behind its operands that goes on with them, what has been
read is put into one node with them. -/
theorem run_extend_of_tail (hr : r.Faithful) {k : TokenKind} {e : Operator.Extension} {s : State}
    (hs : s.Ready) (ht : s.temporal = true) (hinput : s.input = Tree.leavesAll us ++ behind)
    (hat : Operator.extensionOf (Tree.kinds us ++ behind.map (·.1)) = some (k, e))
    (hlevel : level ≤ e.level) (htemporal : e.temporal = false)
    (htail : Gives r.setting r.enter (extensionTail k e) () us problems behind)
    (hstops : Operator.stopsAt level (behind.map (·.1)) = true) :
    ((extend level).run r.setting r.enter s).2
      = ((Rule.enclose e.node (extensionTail k e)).run r.setting r.enter s).2 := by
  have hkinds : s.kinds = Tree.kinds us ++ behind.map (·.1) := by
    rw [State.kinds_eq, hinput, List.map_append, Tree.kinds]
  have hby : ((extendBy k e).run r.setting r.enter s).2
      = ((Rule.enclose e.node (extensionTail k e)).run r.setting r.enter s).2 := by
    rw [extendBy, htemporal, run_bind, run_when_false]
  have hbehind : ((extendBy k e).run r.setting r.enter s).2.input = behind := by
    have htailReach := reaches_run r.setting hr.steady (extensionTail k e) s
    rw [hby]
    exact htailReach.input_behind hs (htail s hs ht hinput).2.bare hinput
  have hreach := reaches_run r.setting hr.steady (extendBy k e) s
  rw [run_extend_extendBy hr hs.valid (hkinds ▸ hat) hlevel, ← hby]
  apply run_extend_of_stops hr (hreach.valid hs.valid)
  rw [State.kinds_eq, hbehind]
  exact hstops

/-- An operand with an operator behind it, and nothing that extends it further. -/
theorem gives_expression_extended (hr : r.Faithful) {k : TokenKind} {e : Operator.Extension}
    (hhead : Gives r.setting r.enter operandHead true [t] [] (Tree.leavesAll us ++ behind))
    (hat : Operator.extensionOf (Tree.kinds us ++ behind.map (·.1)) = some (k, e))
    (hlevel : level ≤ e.level) (htemporal : e.temporal = false)
    (htail : Gives r.setting r.enter (extensionTail k e) () us problems behind)
    (hstops : Operator.stopsAt level (behind.map (·.1)) = true) :
    Gives r.setting r.enter (expression level) true [.node e.node (t :: us)] problems behind := by
  apply gives_group
  intro s hs ht hbare hinput
  show ((expressionBody level).run r.setting r.enter s).1 = true ∧
    State.Adds _ problems s ((expressionBody level).run r.setting r.enter s).2
  have hinput : s.input = Tree.leavesAll [t] ++ (Tree.leavesAll us ++ behind) := by
    rw [← List.append_assoc, ← Tree.leavesAll_append]
    rwa [Tree.leavesAll_singleton] at hinput
  obtain ⟨hfound, hadds⟩ := hhead s hs ht hinput
  have hreach := reaches_run r.setting hr.steady operandHead s
  have hready := hs.of_reaches hreach
  have hbehind := hreach.input_behind hs hadds.bare hinput
  have hadds' := (htail _ hready (hreach.temporal ht) hbehind).2
  rw [run_expressionBody, hfound, run_when_true,
    run_extend_of_tail hr hready (hreach.temporal ht) hbehind hat hlevel htemporal htail hstops]
  refine ⟨rfl, ?_, (hadds.trans hadds').reports⟩
  rw [run_enclose, bare_wrap, hadds'.bare, hadds.bare, hbare]
  rfl

theorem gives_exprAt (hr : r.Faithful)
    (h : Gives r.setting r.enter (call (.expression level)) true [t] problems behind) :
    Gives r.setting r.enter (exprAt level) true [t] problems behind := by
  have hlast : Gives r.setting r.enter (do
      when (!true) (report .expression)
      return true) true [] [] behind := .yielding hr.steady (gives_pure ()) (gives_pure true)
  exact .yielding hr.steady h hlast

/-! ### Groups -/

/-- What is neither a binder nor an operator is an atom. -/
theorem gives_operandHead (hr : r.Faithful) {form : AtomForm} {k : TokenKind}
    {ks : List TokenKind} (hkinds : Tree.kinds [t] ++ behind.map (·.1) = k :: ks)
    (hbinder : Form.binderAhead (k :: ks) = false) (hfront : Operator.frontRow? k = none)
    (hform : AtomForm.ofTokens? (some k) ks[0]? = some form)
    (h : Gives r.setting r.enter form.rule () [t] problems behind) :
    Gives r.setting r.enter operandHead true [t] problems behind := by
  have hfirst : ∀ s : State, s.kinds = Tree.kinds [t] ++ behind.map (·.1) →
      (peek 0 : Rule Nonterminal _).run r.setting r.enter s = (some k, s) := by
    intro s hs
    rw [looks_peek, hs, hkinds]
    rfl
  have hatom : Gives r.setting r.enter atom true [t] problems behind := by
    refine .seeing hfirst <| .seeing (a := ks[0]?) (fun s hs => ?_) ?_
    · rw [looks_peek, hs, hkinds]
      rfl
    · rw [hform]
      exact .yielding hr.steady h (gives_pure true)
  refine .seeing hfirst <| .seeing (a := false) (fun s hs => ?_) ?_
  · rw [looks_atBinder, hs, hkinds, hbinder]
  · dsimp only
    rw [if_neg Bool.false_ne_true, hfront]
    exact hatom

theorem gives_parenthesized (hr : r.Faithful)
    (hinner : Gives r.setting r.enter (call (.expression 0)) true [t] problems
      ((.punct .rparen, ")") :: behind)) :
    Gives r.setting r.enter parenthesized () [Form.parenTree t] problems behind := by
  have hclose : ∀ opener, Gives r.setting r.enter (ignore (expectCloser Punct.rparen opener)) ()
      [.token (.punct .rparen) ")"] [] behind := fun opener =>
    (gives_expectToken hr.steady _ _ _ _).ignore
  have hexpr : Gives r.setting r.enter (within .parenthesized (ignore expr)) () [t] problems
      ((.punct .rparen, ")") :: behind) := (gives_exprAt hr hinner).ignore.within _
  have hbody : ∀ opener, Gives r.setting r.enter (do
      bump
      within .parenthesized (ignore expr)
      ignore (expectCloser Punct.rparen opener)) ()
      ([.token (.punct .lparen) "("] ++ ([t] ++ [.token (.punct .rparen) ")"])) problems behind :=
    fun opener => .then hr.steady (gives_bump _ _) (.before hr.steady hexpr (hclose opener))
  exact (Gives.behindLook (fun _ => rfl) hbody).node .parenExpr

theorem gives_block (hr : r.Faithful)
    (hinner : Gives r.setting r.enter (call (.expression 0)) true [t] problems
      ((.punct .rbrace, "\x7d") :: behind))
    (hfirst : ∃ k ∈ (Tree.kinds [t]).head?, k ≠ .punct .rbrace) :
    Gives r.setting r.enter block () [Opener.brace.wrap t] problems behind := by
  have hclose : ∀ opener, Gives r.setting r.enter (ignore (expectCloser Punct.rbrace opener)) ()
      [.token (.punct .rbrace) "\x7d"] [] behind := fun opener =>
    (gives_expectToken hr.steady _ _ _ _).ignore
  have hitems : Gives r.setting r.enter
      (within .block (items .rbrace .missingExpression (ignore expr))) () [t] problems
      ((.punct .rbrace, "\x7d") :: behind) :=
    (gives_items hr.steady _ (gives_exprAt hr hinner).ignore hfirst).within _
  have hbody : ∀ opener, Gives r.setting r.enter (do
      ignore (expect Punct.lbrace)
      within .block (items .rbrace .missingExpression (ignore expr))
      ignore (expectCloser Punct.rbrace opener)) ()
      ([.token (.punct .lbrace) "\x7b"] ++ ([t] ++ [.token (.punct .rbrace) "\x7d"]))
      problems behind := fun opener =>
    .then hr.steady (gives_expectToken hr.steady _ _ _ _).ignore
      (.before hr.steady hitems (hclose opener))
  exact (Gives.behindLook (fun _ => rfl) hbody).node .block

/-- One argument, in front of the bracket that closes the arguments. -/
theorem gives_arguments (hr : r.Faithful)
    (hinner : Gives r.setting r.enter (call (.expression 0)) true [t] problems
      ((.punct .rbracket, "]") :: behind))
    (hfirst : ∃ k ∈ (Tree.kinds [t]).head?, k ≠ .punct .rbracket) :
    Gives r.setting r.enter arguments () [.node .exprList [t]] problems
      ((.punct .rbracket, "]") :: behind) := by
  have hmoves : Moves r.setting r.enter (do
      let more ← eat Punct.comma
      when more (ignore expr)
      return more) := (moves_eat Punct.comma).guarded hr.steady (ignore expr)
  have hmore : Gives r.setting r.enter (repeated do
      let more ← eat Punct.comma
      when more (ignore expr)
      return more) () [] [] ((.punct .rbracket, "]") :: behind) := by
    apply gives_repeated_nothing hr.steady hmoves
    intro s hs
    have hk : s.kindAt 0 = some (.punct .rbracket) := by
      rw [State.kindAt_eq, hs]
      rfl
    simp [run_eat, hk]
  have hopen : ∀ s : State,
      s.kinds = Tree.kinds [t] ++ ((TokenKind.punct .rbracket, "]") :: behind).map (·.1) →
      (currentIs Punct.rbracket).run r.setting r.enter s = (false, s) := by
    intro s hs
    obtain ⟨k, hk, hne⟩ := hfirst
    obtain ⟨ks, hks⟩ := List.head?_eq_some_iff.mp hk
    rw [run_currentIs, State.kindAt_eq, hs, hks]
    simpa using hne
  have hlist : Gives r.setting r.enter (do
      ignore expr
      repeated do
        let more ← eat Punct.comma
        when more (ignore expr)
        return more) () [t] problems ((.punct .rbracket, "]") :: behind) :=
    .yielding hr.steady (gives_exprAt hr hinner).ignore hmore
  have hbody : Gives r.setting r.enter (do
      let closed ← currentIs Punct.rbracket
      when (!closed) do
        ignore expr
        repeated do
          let more ← eat Punct.comma
          when more (ignore expr)
          return more) () [t] problems ((.punct .rbracket, "]") :: behind) :=
    .seeing hopen hlist
  exact (hbody.node .exprList).within .argumentList

/-- The arguments and the brackets around them. -/
theorem gives_brackets (hr : r.Faithful)
    (hinner : Gives r.setting r.enter (call (.expression 0)) true [t] problems
      ((.punct .rbracket, "]") :: behind))
    (hfirst : ∃ k ∈ (Tree.kinds [t]).head?, k ≠ .punct .rbracket) :
    Gives r.setting r.enter (postfixTail (.punct .lbracket)) ()
      [.token (.punct .lbracket) "[", .node .exprList [t], .token (.punct .rbracket) "]"]
      problems behind := by
  have hclose : Gives r.setting r.enter
      (ignore (expectToken Punct.rbracket .unclosedBoxJoin none)) ()
      [.token (.punct .rbracket) "]"] [] behind := (gives_expectToken hr.steady _ _ _ _).ignore
  have hbody : Gives r.setting r.enter (do
      bump
      arguments
      ignore (expectToken Punct.rbracket .unclosedBoxJoin none)) ()
      ([.token (.punct .lbracket) "["] ++
        ([.node .exprList [t]] ++ [.token (.punct .rbracket) "]"])) problems behind :=
    .then hr.steady (gives_bump _ _)
      (.before hr.steady (gives_arguments hr hinner hfirst) hclose)
  exact hbody

/-- A name in front of anything but another segment of it. -/
theorem gives_name (hr : r.Faithful) (hall : ∀ reports, r.passes reports) (text : String)
    (hbehind : Form.at? (.punct .slash) (behind.map (·.1)) = false) :
    Gives r.setting r.enter operandHead true
      [.node .nameRef [.node .qualName [.token .ident text]]] [] behind := by
  intro s hs ht hinput
  have hform : Form.operandHead.Derives r.limit
      [.node .nameRef [.node .qualName [.token .ident text]]] (behind.map (·.1)) :=
    Form.derives_ahead.mpr (.node (Chain.derives_plainName hbehind))
  obtain ⟨hfound, htook⟩ := (finds_operandHead hr).complete s _ behind hs ht hinput hform (hall _)
  exact ⟨hfound, htook.adds⟩

/-- A group around what is read as an expression is read as one. -/
theorem gives_wrap (hr : r.Faithful) (hall : ∀ reports, r.passes reports) (o : Opener)
    {w : List Opener} (hleaves : t.leaves = Opener.words w)
    (hinner : Gives r.setting r.enter (call (.expression 0)) true [t] problems
      (o.closer :: behind))
    (hbehind : AtClose behind) :
    Gives r.setting r.enter (expression 0) true [o.wrap t] problems behind := by
  have hkinds : Tree.kinds [t] = (Opener.words w).map (·.1) := by
    rw [Tree.kinds, Tree.leavesAll_singleton, hleaves]
  have hfirst : ∀ {p : Punct}, p.isCloser = true →
      ∃ k ∈ (Tree.kinds [t]).head?, k ≠ .punct p := by
    intro p hp
    obtain ⟨k, hk, hstarts⟩ := Opener.first_words w
    refine ⟨k, hkinds ▸ hk, ?_⟩
    rintro rfl
    exact Bool.false_ne_true ((isCloser_of_startsExpr hstarts).symm.trans hp)
  have hwrapped : Tree.kinds [o.wrap t] ++ behind.map (·.1)
      = o.front.map (·.1) ++ ((Opener.words w).map (·.1) ++ o.closer.1 :: behind.map (·.1)) := by
    rw [Tree.kinds, Tree.leavesAll_singleton, Opener.leaves_wrap, hleaves, List.map_append,
      List.map_append, List.map_singleton]
    simp
  cases o with
  | paren =>
    have hatom : Gives r.setting r.enter AtomForm.parenthesized.rule () [Opener.paren.wrap t]
        problems behind := gives_parenthesized hr hinner
    exact gives_expression hr (gives_operandHead hr hwrapped rfl rfl rfl hatom) (hbehind.stopsAt 0)
  | brace =>
    have hblock : ∀ s : State,
        s.kinds = Tree.kinds [Opener.brace.wrap t] ++ behind.map (·.1) →
        (ahead declarationBehind : Rule Nonterminal Bool).run r.setting r.enter s = (false, s) := by
      intro s hs
      rw [run_ahead, hs, hwrapped]
      exact Prod.ext (Opener.declarationAhead_words w rfl _) rfl
    have hatom : Gives r.setting r.enter AtomForm.braced.rule () [Opener.brace.wrap t] problems
        behind := .seeing hblock (gives_block hr hinner (hfirst rfl))
    exact gives_expression hr (gives_operandHead hr hwrapped rfl rfl rfl hatom) (hbehind.stopsAt 0)
  | call =>
    -- the name is an operand by itself, which the brackets extend
    have htail : Gives r.setting r.enter
        (extensionTail (.punct .lbracket) ⟨.boxJoinExpr, 16, none, false⟩) ()
        [.token (.punct .lbracket) "[", .node .exprList [t], .token (.punct .rbracket) "]"]
        problems behind := gives_brackets hr hinner (hfirst rfl)
    have hname : Gives r.setting r.enter operandHead true
        [.node .nameRef [.node .qualName [.token .ident "f"]]] []
        (Tree.leavesAll [.token (.punct .lbracket) "[", .node .exprList [t],
          .token (.punct .rbracket) "]"] ++ behind) := gives_name hr hall "f" rfl
    have hat : Operator.extensionOf (Tree.kinds [.token (.punct .lbracket) "[",
        .node .exprList [t], .token (.punct .rbracket) "]"] ++ behind.map (·.1))
          = some (.punct .lbracket, ⟨.boxJoinExpr, 16, none, false⟩) := rfl
    exact gives_expression_extended hr hname hat (Nat.zero_le _) rfl htail (hbehind.stopsAt 0)

end Grammar
end RelLang
