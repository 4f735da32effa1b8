import RelLang.Proofs.Parse.Order
import RelLang.Proofs.Parse.Trivia
import RelLang.Proofs.Token.Comment
import RelLang.View.DocComment

/-!
# Comments above a paragraph

Lines of comments between two paragraphs are read as comments and blanks that stand among the
trees in front of the second one, because no node of a module about which nothing is reported
ends with them. So they are collected from below, up to a blank line. And such lines can be put
between any two paragraphs, since the grammar does not see them.
-/

namespace RelLang

open Lexer

/-! ### Collecting comments -/

namespace DocComment

/-- Tokens as trees. -/
def tokenTrees (ps : List (TokenKind × String)) : List Tree := ps.map fun p => .token p.1 p.2

theorem tokenTrees_append (ps qs : List (TokenKind × String)) :
    tokenTrees (ps ++ qs) = tokenTrees ps ++ tokenTrees qs :=
  List.map_append

theorem lineContent_comment (l : CommentLine) :
    lineContent (String.ofList l.comment) = Text.trim l.content := by
  obtain ⟨mark, content, -, hcomment, rfl⟩ := l.exists_mark
  rw [lineContent, String.toList_ofList, hcomment]
  rfl

/-- More blanks on a line make no blank line. -/
theorem isBlankLine_append_spaces (bs : List Char) (n : Nat) :
    isBlankLine (String.ofList (bs ++ List.replicate n ' ')) = decide (1 < bs.count '\n') := by
  rw [isBlankLine, String.toList_ofList, List.count_append, List.count_replicate]
  rfl

theorem collect_whitespace (text : String) (rest : List Tree) :
    collect (.token .whitespace text :: rest)
      = if isBlankLine text then [] else collect rest := by
  rw [collect]

theorem collect_lineComment (text : String) (rest : List Tree) :
    collect (.token .lineComment text :: rest) = lineContent text :: collect rest := by
  rw [collect]

/-- The pieces of a line and of the lines behind it, from the last one on. -/
theorem reverse_commentPieces (bs : List Char) (l : CommentLine) (ls : List CommentLine)
    (front : List Tree) :
    (tokenTrees (commentPieces bs (l :: ls))).reverse ++ front
      = (tokenTrees (commentPieces ['\n'] ls)).reverse ++
        .token .lineComment (String.ofList l.comment) ::
          .token .whitespace (String.ofList (bs ++ List.replicate l.indent ' ')) :: front := by
  rw [commentPieces, tokenTrees, List.map_cons, List.map_cons, List.reverse_cons,
    List.reverse_cons, List.append_assoc, List.append_assoc]
  rfl

/-- Comments are collected from below, up to what is in front of them. -/
theorem collect_comments {bs : List Char} (hbs : bs.count '\n' ≤ 1) (ls : List CommentLine)
    (front : List Tree) :
    collect ((tokenTrees (commentPieces bs ls)).reverse ++ front)
      = (ls.map fun l => Text.trim l.content).reverse ++ collect front := by
  induction ls generalizing bs front with
  | nil => rfl
  | cons l ls ih =>
    have hline : ['\n'].count '\n' ≤ 1 := Nat.le_refl 1
    rw [reverse_commentPieces, ih hline, collect_lineComment, collect_whitespace,
      isBlankLine_append_spaces, decide_eq_false (Nat.not_lt.mpr hbs), lineContent_comment,
      List.map_cons, List.reverse_cons, List.append_assoc]
    rfl

/-- A blank line above them ends them. -/
theorem collect_below_blank {bs : List Char} (hbs : 1 < bs.count '\n') {ls : List CommentLine}
    (hls : ls ≠ []) (front : List Tree) :
    collect ((tokenTrees (commentPieces bs ls)).reverse ++ front)
      = (ls.map fun l => Text.trim l.content).reverse := by
  obtain ⟨l, ls, rfl⟩ := List.exists_cons_of_ne_nil hls
  have hline : ['\n'].count '\n' ≤ 1 := Nat.le_refl 1
  rw [reverse_commentPieces, collect_comments hline, collect_lineComment,
    collect_whitespace, isBlankLine_append_spaces, decide_eq_true hbs, lineContent_comment,
    List.map_cons, List.reverse_cons]
  rfl

end DocComment

/-- What comments say, one line for each. -/
def CommentLine.joined (ls : List CommentLine) : String :=
  String.ofList (['\n'].intercalate (ls.map fun l => Text.trim l.content))

open DocComment in
/-- The doc comment of a node right below lines of comments and a blank line above them. -/
theorem Located.docComment?_eq {n : Located} {bs : List Char} (hbs : 1 < bs.count '\n')
    {ls : List CommentLine} (hls : ls ≠ []) {indent : Nat} {front : List Tree}
    (hbefore : n.before
      = (tokenTrees (commentPieces bs ls ++ [lineEnd indent])).reverse ++ front) :
    n.docComment? = some (CommentLine.joined ls) := by
  have hcollect : collect n.before = (ls.map fun l => Text.trim l.content).reverse := by
    rw [hbefore, tokenTrees_append, List.reverse_append, List.append_assoc]
    refine (collect_whitespace _ _).trans ?_
    have hend : isBlankLine (lineEnd indent).2 = false := isBlankLine_append_spaces ['\n'] indent
    rw [hend]
    exact collect_below_blank hbs hls front
  have hall : ((ls.map fun l => Text.trim l.content).reverse).filter (!·.isEmpty)
      = (ls.map fun l => Text.trim l.content).reverse := by
    refine List.filter_eq_self.mpr fun content hcontent => ?_
    obtain ⟨l, -, rfl⟩ := List.mem_map.mp (List.mem_reverse.mp hcontent)
    simpa using l.not_blank
  rw [docComment?, hcollect, hall]
  split
  · next h =>
    rw [List.reverse_eq_nil_iff, List.map_eq_nil_iff] at h
    exact absurd h hls
  · rw [List.reverse_reverse, CommentLine.joined]

/-! ### The trees in front of a node -/

theorem Tree.everywhereAll_of_mem {P : NodeKind → List Tree → List (TokenKind × String) → Prop}
    {ts : List Tree} {behind : List (TokenKind × String)} (h : EverywhereAll P ts behind) {t : Tree}
    (ht : t ∈ ts) : ∃ later, t.Everywhere P later := by
  induction ts with
  | nil => cases ht
  | cons u ts ih =>
    obtain rfl | ht := List.mem_cons.mp ht
    · exact ⟨_, h.1⟩
    · exact ih h.2 ht

/-- Trivia at the end of some trees is no part of a node, if no node ends with trivia. -/
theorem Tree.eq_append_tokenTrees {ts : List Tree} {front trivia : List (TokenKind × String)}
    (hnodes : ∀ kind children, .node kind children ∈ ts → Backed children)
    (hleaves : leavesAll ts = front ++ trivia) (htrivia : ∀ p ∈ trivia, p.1.isTrivia = true) :
    ∃ us, ts = us ++ DocComment.tokenTrees trivia := by
  induction trivia using List.reverseRecOn generalizing ts with
  | nil => exact ⟨ts, (List.append_nil ts).symm⟩
  | append_singleton trivia p ih =>
    induction ts using List.reverseRecOn with
    | nil => simp [leavesAll] at hleaves
    | append_singleton ts t =>
      rw [leavesAll_append, leavesAll_singleton, ← List.append_assoc] at hleaves
      cases t with
      | token kind text =>
        obtain ⟨hfront, hlast⟩ := List.append_inj' hleaves rfl
        obtain rfl := (List.cons.inj hlast).1
        obtain ⟨us, rfl⟩ := ih (fun kind children h => hnodes kind children
          (List.mem_append_left _ h)) hfront fun q hq => htrivia q (List.mem_append_left _ hq)
        refine ⟨us, ?_⟩
        rw [DocComment.tokenTrees_append, List.append_assoc]
        rfl
      | node kind children =>
        -- The last leaf of a node is no trivia.
        obtain ⟨leaf, hleaf, hsig⟩ := hnodes kind children (List.mem_append_right _ (.head _))
        have hlast := congrArg List.getLast? hleaves
        rw [leaves, List.getLast?_append, hleaf, List.getLast?_concat] at hlast
        obtain rfl := Option.some.inj hlast
        have htriv := htrivia leaf (List.mem_append_right _ (.head _))
        exact absurd (hsig.symm.trans htriv) Bool.false_ne_true

namespace Parse

/-- The trees of a module about which nothing is reported: the nodes among them begin and end with
tokens that are no trivia. -/
theorem exists_children {mode : TemporalMode} {text : String}
    (hnone : (ofText { temporal := mode } .wholeModule text).errors = []) :
    ∃ children, (ofText { temporal := mode } .wholeModule text).tree = .node .sourceFile children ∧
      Tree.leavesAll children = pieces text.toList ∧
      ∀ kind ts, .node kind ts ∈ children → Tree.Fronted ts ∧ Tree.Backed ts := by
  have hok := errors_eq_nil_iff.mp hnone
  have hleaves := leaves_ofTokens { temporal := mode } .wholeModule (tokenize text)
  rw [tree_ofTokens, Tree.leaves, map_toPair_tokenize] at hleaves
  refine ⟨_, tree_ofTokens .., hleaves, fun kind ts hmem => ?_⟩
  have hfree : ∀ problem : Problem, problem.OfDeclaration → (fun _ => false) problem = false :=
    fun _ _ => rfl
  have hparts := (parts_final { temporal := mode } (tokenize text) hfree).1
  obtain ⟨_, hfronted⟩ := Tree.everywhereAll_of_mem (fronted_final _ .wholeModule _).all hmem
  obtain ⟨_, hbacked⟩ := Tree.everywhereAll_of_mem (backed_final rfl hok).all hmem
  refine ⟨hfronted.1, hbacked.1.resolve_right ?_⟩
  rintro ⟨rfl, -⟩
  exact Bool.false_ne_true (hparts _ (List.mem_reverse.mp hmem))

/-- What is behind an offset is cut by itself, if leaves of a tree end there. -/
theorem pieces_of_leaves {cs ahead back : List Char} {ps qs : List (TokenKind × String)}
    (hcs : cs = ahead ++ back) (hpieces : pieces cs = ps ++ qs)
    (hsize : Tree.bytes ps = (String.ofList ahead).utf8ByteSize) :
    spelled ps = ahead ∧ pieces back = qs := by
  obtain ⟨hspelled, hqs⟩ := pieces_of_append hpieces
  rw [Tree.bytes, ← utf8ByteSize_spelled] at hsize
  obtain ⟨hps, rfl⟩ := append_inj_of_size (hspelled.symm.trans hcs) hsize
  exact ⟨hps, hqs⟩

variable {mode : TemporalMode} {text : String} {root n : Located} {ahead back : List Char}

/-- The tokens of a module about which nothing is reported are those in front of a paragraph,
its own and those behind it. -/
theorem exists_beside (hnone : (ofText { temporal := mode } .wholeModule text).errors = [])
    (hroot : Located.root? (ofText { temporal := mode } .wholeModule text).tree = some root)
    (hn : n ∈ root.childNodes) :
    ∃ us vs, (ofText { temporal := mode } .wholeModule text).tree
        = .node .sourceFile (us ++ n.tree :: vs) ∧
      n.before = us.reverse ∧ n.start = Tree.bytes (Tree.leavesAll us) ∧
      pieces text.toList = Tree.leavesAll us ++ n.tree.leaves ++ Tree.leavesAll vs := by
  obtain ⟨children, htree, hleaves, -⟩ := exists_children hnone
  obtain rfl : root = ⟨.sourceFile, children, 0, []⟩ := by
    rw [htree] at hroot
    exact (Option.some.inj hroot).symm
  obtain ⟨us, vs, hsplit, hbefore, hstart⟩ := Located.exists_before_of_mem_nodesIn hn
  obtain rfl : children = us ++ n.tree :: vs := hsplit
  refine ⟨us, vs, htree, by rw [hbefore, List.append_nil], by rw [hstart, Nat.zero_add], ?_⟩
  rw [← hleaves, Tree.leavesAll_append, Tree.leavesAll, List.append_assoc]

/-- A tree that is a node begins and ends with a token that is no trivia. -/
theorem exists_ends {us vs : List Tree} {kind : NodeKind} {ts : List Tree}
    (hnone : (ofText { temporal := mode } .wholeModule text).errors = [])
    (htree : (ofText { temporal := mode } .wholeModule text).tree
      = .node .sourceFile (us ++ .node kind ts :: vs)) :
    (∃ first rest, first.1.isTrivia = false ∧ (Tree.node kind ts).leaves = first :: rest) ∧
      ∃ front last, last.1.isTrivia = false ∧ (Tree.node kind ts).leaves = front ++ [last] := by
  obtain ⟨children, htree', -, hnodes⟩ := exists_children hnone
  obtain rfl := (Tree.node.inj (htree.symm.trans htree')).2
  obtain ⟨hfirst, last, hlast, hsig⟩ := hnodes kind ts (List.mem_append_right us (.head _))
  refine ⟨?_, ?_⟩
  · obtain ⟨first, rest, hleaves⟩ :=
      List.exists_cons_of_ne_nil (List.ne_nil_of_mem (List.mem_of_getLast? hlast))
    exact ⟨first, rest, hfirst first (by rw [hleaves]; rfl), hleaves⟩
  · obtain ⟨front, hfront⟩ := List.getLast?_eq_some_iff.mp hlast
    exact ⟨front, last, hsig, hfront⟩

/-! ### What stands between two paragraphs -/

/-- The first paragraph of a module about which nothing is reported ends where the text between
begins, and the second begins where that text ends. -/
structure Between (mode : TemporalMode) (text : String) (q p : Located)
    (front between back : List Char) : Prop where
  accepted : (ofText { temporal := mode } .wholeModule text).errors = []
  text_eq : text.toList = front ++ between ++ back
  below : ∃ root, Located.root? (ofText { temporal := mode } .wholeModule text).tree = some root ∧
    q ∈ root.childNodes ∧ p ∈ root.childNodes
  stop : q.stop = (String.ofList front).utf8ByteSize
  start : p.start = (String.ofList (front ++ between)).utf8ByteSize

namespace Between

variable {q p : Located} {front between : List Char}

/-- The tokens up to the end of the first paragraph. -/
theorem exists_upper (h : Between mode text q p front between back) :
    ∃ us vs, (ofText { temporal := mode } .wholeModule text).tree
        = .node .sourceFile (us ++ q.tree :: vs) ∧
      spelled (Tree.leavesAll us ++ q.tree.leaves) = front ∧
      pieces text.toList = Tree.leavesAll us ++ q.tree.leaves ++ pieces (between ++ back) := by
  obtain ⟨root, hroot, hq, -⟩ := h.below
  obtain ⟨us, vs, htree, -, hstart, hpieces⟩ := exists_beside h.accepted hroot hq
  have hsize : Tree.bytes (Tree.leavesAll us ++ q.tree.leaves)
      = (String.ofList front).utf8ByteSize := by
    rw [Tree.bytes_append, ← hstart, ← Tree.width_eq]
    exact h.stop
  obtain ⟨hfront, hbehind⟩ :=
    pieces_of_leaves (h.text_eq.trans (List.append_assoc ..)) hpieces hsize
  exact ⟨us, vs, htree, hfront, hbehind ▸ hpieces⟩

/-- The tokens from the second paragraph on. -/
theorem exists_lower (h : Between mode text q p front between back) :
    ∃ us vs, (ofText { temporal := mode } .wholeModule text).tree
        = .node .sourceFile (us ++ p.tree :: vs) ∧ p.before = us.reverse ∧
      pieces text.toList = Tree.leavesAll us ++ pieces back ∧
      pieces back = p.tree.leaves ++ Tree.leavesAll vs := by
  obtain ⟨root, hroot, -, hp⟩ := h.below
  obtain ⟨us, vs, htree, hbefore, hstart, hpieces⟩ := exists_beside h.accepted hroot hp
  rw [List.append_assoc] at hpieces
  obtain ⟨-, hback⟩ := pieces_of_leaves h.text_eq hpieces (hstart.symm.trans h.start)
  exact ⟨us, vs, htree, hbefore, hback ▸ hpieces, hback⟩

/-- The second paragraph does not begin with a blank. -/
theorem exists_cons (h : Between mode text q p front between back) :
    ∃ d ds, back = d :: ds ∧ isSpace d = false := by
  obtain ⟨us, vs, htree, -, -, hback⟩ := h.exists_lower
  obtain ⟨⟨first, rest, hsig, hleaves⟩, -⟩ := exists_ends h.accepted htree
  rw [Located.tree, hleaves] at hback
  cases back with
  | nil => simp [pieces, lexemes] at hback
  | cons d ds =>
    refine ⟨d, ds, rfl, Bool.eq_false_iff.mpr fun hspace => ?_⟩
    -- A blank would be the beginning of a token that is trivia.
    rw [pieces_cons, scan_of_isSpace hspace] at hback
    rw [← (List.cons.inj hback).1] at hsig
    cases hsig

/-- What stands in front of the second paragraph is what the text between is read as. -/
theorem before_eq (h : Between mode text q p front between back)
    {ps : List (TokenKind × String)} (hread : ReadAs between ps)
    (hps : ∀ t ∈ ps, t.1.isTrivia = true) :
    ∃ us, p.before = (DocComment.tokenTrees ps).reverse ++ us := by
  obtain ⟨us, -, -, -, hupper⟩ := h.exists_upper
  obtain ⟨ts, vs, htree, hbefore, hlower, -⟩ := h.exists_lower
  obtain ⟨d, ds, rfl, hd⟩ := h.exists_cons
  rw [hread d ds hd, ← List.append_assoc] at hupper
  obtain ⟨children, htree', -, hnodes⟩ := exists_children h.accepted
  obtain rfl := (Tree.node.inj (htree.symm.trans htree')).2
  obtain ⟨us, rfl⟩ := Tree.eq_append_tokenTrees
    (fun kind ts hmem => (hnodes kind ts (List.mem_append_left _ hmem)).2)
    (List.append_cancel_right (hlower.symm.trans hupper)) hps
  exact ⟨us.reverse, by rw [hbefore, List.reverse_append]⟩

/-- The doc comment of the second paragraph, if the text between is read as blank lines and comments
below. -/
theorem docComment?_eq (h : Between mode text q p front between back)
    {above : List (TokenKind × String)} {bs : List Char} {ls : List CommentLine} {indent : Nat}
    (hread : ReadAs between (above ++ (commentPieces bs ls ++ [lineEnd indent])))
    (habove : ∀ t ∈ above, t.1.isTrivia = true) (hbs : 1 < bs.count '\n') (hls : ls ≠ []) :
    p.docComment? = some (CommentLine.joined ls) := by
  obtain ⟨us, hbefore⟩ := h.before_eq hread (isTrivia_of_above habove bs ls indent)
  rw [DocComment.tokenTrees_append, List.reverse_append, List.append_assoc] at hbefore
  exact Located.docComment?_eq hbs hls hbefore

end Between

/-! ### Comments put between two paragraphs -/

/-- Two texts with the same words: if nothing is reported about one, nothing is about the other,
and without trivia their trees are the same. -/
theorem accepted_of_words {text₁ text₂ : String} (hwords : words text₁.toList = words text₂.toList)
    (hnone : (ofText {} .wholeModule text₁).errors = []) :
    (ofText {} .wholeModule text₂).errors = [] ∧
      (ofText {} .wholeModule text₂).tree.bare = (ofText {} .wholeModule text₁).tree.bare := by
  have hok := errors_eq_nil_iff.mp hnone
  obtain ⟨ts, htree, hts⟩ := derives_of_ok rfl hok
  have hleaves := leaves_of_bare htree
  have hvalid : ∀ w ∈ Tree.leavesAll ts, w.1 ≠ .invalid := by
    intro w hw
    rw [hleaves] at hw
    obtain ⟨t, ht, rfl⟩ := List.mem_map.mp hw
    exact whole_of_ok rfl hok t (List.mem_filter.mp ht).1
  have hwords' : (significantTokens text₂).map Token.toPair = Tree.leavesAll ts := by
    rw [hleaves, map_toPair_significantTokens, map_toPair_significantTokens, hwords]
  obtain ⟨hok', htree'⟩ := ok_of_leaves hwords' hvalid hts (.inl (Nat.le_refl _))
  exact ⟨errors_eq_nil_iff.mpr hok', htree'.trans htree.symm⟩

/-- A node among the trees of one text is among those of another one that are the same without
trivia. -/
theorem exists_node_of_bare {us vs children : List Tree} {kind : NodeKind} {ts : List Tree}
    (h : Tree.bareAll children = Tree.bareAll (us ++ .node kind ts :: vs)) :
    ∃ us' ts' vs', children = us' ++ .node kind ts' :: vs' ∧
      Tree.bareAll us' = Tree.bareAll us ∧ Tree.bareAll ts' = Tree.bareAll ts := by
  rw [Tree.bareAll_append] at h
  obtain ⟨us', t, vs', rfl, hus, -, ht⟩ := Tree.exists_of_bareAll_eq h
  cases t with
  | token kind text => cases ht
  | node kind' ts' =>
    obtain ⟨rfl, hts⟩ := Tree.node.inj ht
    exact ⟨us', ts', vs', rfl, hus, hts⟩

/-- What stands in front of a word is told by the words in front. -/
theorem eq_of_words_ahead {as as' bs bs' : List (TokenKind × String)} {a a' : TokenKind × String}
    (h : as ++ a :: bs = as' ++ a' :: bs') (ha : a.1.isTrivia = false)
    (ha' : a'.1.isTrivia = false)
    (hwords : as.filter (!·.1.isTrivia) = as'.filter (!·.1.isTrivia)) : as = as' := by
  obtain ⟨cs, rfl, hcs⟩ | ⟨cs, rfl, hcs⟩ := List.append_eq_append_iff.mp h
  · cases cs with
    | nil => rw [List.append_nil]
    | cons c cs =>
      obtain rfl := (List.cons.inj hcs).1
      simp [ha] at hwords
  · cases cs with
    | nil => rw [List.append_nil]
    | cons c cs =>
      obtain rfl := (List.cons.inj hcs).1
      simp [ha'] at hwords

/-- What stands in front of a word, and the word, are told by these words. -/
theorem eq_of_words_through {as as' bs bs' : List (TokenKind × String)}
    {a a' : TokenKind × String} (h : as ++ [a] ++ bs = as' ++ [a'] ++ bs')
    (ha : a.1.isTrivia = false) (ha' : a'.1.isTrivia = false)
    (hwords : (as ++ [a]).filter (!·.1.isTrivia) = (as' ++ [a']).filter (!·.1.isTrivia)) :
    as ++ [a] = as' ++ [a'] := by
  have hlast : [a].filter (!·.1.isTrivia) = [a] := by simp [ha]
  have hlast' : [a'].filter (!·.1.isTrivia) = [a'] := by simp [ha']
  rw [List.filter_append, List.filter_append, hlast, hlast'] at hwords
  obtain ⟨hahead, hsame⟩ := List.append_inj' hwords rfl
  rw [List.append_assoc, List.append_assoc, List.singleton_append, List.singleton_append] at h
  rw [eq_of_words_ahead h ha ha' hahead, hsame]

theorem ne_invalid_of_mem_pieces (hnone : (ofText {} .wholeModule text).errors = []) :
    ∀ t ∈ pieces text.toList, t.1 ≠ .invalid := by
  intro t ht
  rw [← map_toPair_tokenize] at ht
  obtain ⟨token, htoken, rfl⟩ := List.mem_map.mp ht
  exact whole_of_ok rfl (errors_eq_nil_iff.mp hnone) token htoken

theorem filter_eq_nil_of_trivia {ps : List (TokenKind × String)}
    (h : ∀ t ∈ ps, t.1.isTrivia = true) : ps.filter (!·.1.isTrivia) = [] :=
  List.filter_eq_nil_iff.mpr fun t ht => by simp [h t ht]

/-- The words of some trees are told by the trees without trivia. -/
theorem words_of_bareAll {us us' : List Tree} (h : Tree.bareAll us = Tree.bareAll us') :
    (Tree.leavesAll us).filter (!·.1.isTrivia) = (Tree.leavesAll us').filter (!·.1.isTrivia) := by
  rw [← Tree.leavesAll_bareAll, h, Tree.leavesAll_bareAll]

/-- A node among the trees of a text, where it stands. -/
theorem mem_childNodes (us vs : List Tree) (kind : NodeKind) (ts : List Tree) :
    ⟨kind, ts, Tree.bytes (Tree.leavesAll us), us.reverse⟩
      ∈ (⟨.sourceFile, us ++ .node kind ts :: vs, 0, []⟩ : Located).childNodes := by
  rw [Located.childNodes, Located.nodesIn_append, Nat.zero_add, List.append_nil, Tree.widths_eq]
  exact List.mem_append_right _ (.head _)

namespace Between

variable {q p : Located} {front s cs ds : List Char} {ps ps' : List (TokenKind × String)}
  {us vs : List Tree}

/-- Something else between two paragraphs, from the end of a line on, leaves the tokens above and
below as they are. -/
theorem pieces_change (h : Between .enabled text q p front (s ++ '\n' :: cs) back)
    (htree : (ofText {} .wholeModule text).tree = .node .sourceFile (us ++ q.tree :: vs))
    (hfront : spelled (Tree.leavesAll us ++ q.tree.leaves) = front)
    (hupper : pieces text.toList = Tree.leavesAll us ++ q.tree.leaves
      ++ pieces (s ++ '\n' :: cs ++ back))
    (hread : ReadAs (s ++ '\n' :: ds) ps) :
    pieces (front ++ (s ++ '\n' :: ds) ++ back)
      = Tree.leavesAll us ++ q.tree.leaves ++ (ps ++ pieces back) := by
  obtain ⟨d, es, rfl, hd⟩ := h.exists_cons
  obtain ⟨-, own, last, hlast, hown⟩ := exists_ends h.accepted htree
  rw [Located.tree] at hfront hupper ⊢
  have hvalid := ne_invalid_of_mem_pieces h.accepted
  have htext := h.text_eq
  rw [← hfront, List.append_assoc, List.append_assoc, List.cons_append] at htext
  rw [List.append_assoc s, List.cons_append] at hupper
  rw [hupper] at hvalid
  rw [htext] at hupper
  have hchange := pieces_change_lines hupper (fun t ht => hvalid t (List.mem_append_left _ ht))
    (fun t ht hkind => by
      rw [hown, ← List.append_assoc, List.getLast?_concat] at ht
      obtain rfl := Option.some.inj ht
      rw [hkind] at hlast
      cases hlast) (ds ++ d :: es)
  have hbehind := hread d es hd
  rw [List.append_assoc, List.cons_append] at hbehind
  rw [← hfront, List.append_assoc, List.append_assoc, List.cons_append, hchange, hbehind]

/-- The paragraph above is found where it was. -/
theorem exists_stop {text' : String} {children : List Tree} {kind : NodeKind}
    {ts : List Tree} {bs : List (TokenKind × String)}
    (htree : (ofText {} .wholeModule text).tree = .node .sourceFile (us ++ .node kind ts :: vs))
    (hnone : (ofText {} .wholeModule text).errors = [])
    (htree' : (ofText {} .wholeModule text').tree = .node .sourceFile children)
    (hnone' : (ofText {} .wholeModule text').errors = [])
    (hbare : Tree.bareAll children = Tree.bareAll (us ++ .node kind ts :: vs))
    (hleaves : Tree.leavesAll children
      = Tree.leavesAll us ++ (Tree.node kind ts).leaves ++ bs) :
    ∃ n ∈ (⟨.sourceFile, children, 0, []⟩ : Located).childNodes,
      n.stop = Tree.bytes (Tree.leavesAll us ++ (Tree.node kind ts).leaves) ∧
      n.tree.bare = (Tree.node kind ts).bare := by
  obtain ⟨us', ts', vs', rfl, hus, hts⟩ := exists_node_of_bare hbare
  refine ⟨_, mem_childNodes us' vs' kind ts', ?_, congrArg (Tree.node kind) hts⟩
  obtain ⟨-, own, last, hlast, hown⟩ := exists_ends hnone htree
  obtain ⟨-, own', last', hlast', hown'⟩ := exists_ends hnone' htree'
  have hwords : (Tree.leavesAll us' ++ (Tree.node kind ts').leaves).filter (!·.1.isTrivia)
      = (Tree.leavesAll us ++ (Tree.node kind ts).leaves).filter (!·.1.isTrivia) := by
    rw [List.filter_append, List.filter_append, words_of_bareAll hus, Tree.leaves, Tree.leaves,
      words_of_bareAll hts]
  have hsame : Tree.leavesAll us' ++ (Tree.node kind ts').leaves
      = Tree.leavesAll us ++ (Tree.node kind ts).leaves := by
    rw [Tree.leavesAll_append, Tree.leavesAll, ← List.append_assoc] at hleaves
    rw [hown, hown', ← List.append_assoc, ← List.append_assoc] at hwords hleaves ⊢
    exact eq_of_words_through hleaves hlast' hlast hwords
  rw [← hsame, Tree.bytes_append, ← Tree.width_eq]
  rfl

/-- The paragraph below is found behind what is put in front of it. -/
theorem exists_start {text' : String} {children : List Tree} {kind : NodeKind}
    {ts : List Tree} {as bs : List (TokenKind × String)}
    (htree : (ofText {} .wholeModule text).tree = .node .sourceFile (us ++ .node kind ts :: vs))
    (hnone : (ofText {} .wholeModule text).errors = [])
    (htree' : (ofText {} .wholeModule text').tree = .node .sourceFile children)
    (hnone' : (ofText {} .wholeModule text').errors = [])
    (hbare : Tree.bareAll children = Tree.bareAll (us ++ .node kind ts :: vs))
    (hleaves : Tree.leavesAll children = as ++ ((Tree.node kind ts).leaves ++ bs))
    (hwords : as.filter (!·.1.isTrivia) = (Tree.leavesAll us).filter (!·.1.isTrivia)) :
    ∃ n ∈ (⟨.sourceFile, children, 0, []⟩ : Located).childNodes,
      n.start = Tree.bytes as ∧ n.tree.bare = (Tree.node kind ts).bare := by
  obtain ⟨us', ts', vs', rfl, hus, hts⟩ := exists_node_of_bare hbare
  refine ⟨_, mem_childNodes us' vs' kind ts', ?_, congrArg (Tree.node kind) hts⟩
  obtain ⟨⟨first, rest, hfirst, hown⟩, -⟩ := exists_ends hnone htree
  obtain ⟨⟨first', rest', hfirst', hown'⟩, -⟩ := exists_ends hnone' htree'
  rw [Tree.leavesAll_append, Tree.leavesAll, hown, hown'] at hleaves
  exact congrArg Tree.bytes (eq_of_words_ahead hleaves hfirst' hfirst
    ((words_of_bareAll hus).trans hwords.symm))

/-- Where blanks stand between two paragraphs, from the end of a line on anything can stand that is
read as trivia: nothing is reported, and the same paragraphs are above and below. -/
theorem exists_of_readAs (h : Between .enabled text q p front (s ++ '\n' :: cs) back)
    (hread : ReadAs (s ++ '\n' :: cs) ps) (hps : ∀ t ∈ ps, t.1.isTrivia = true)
    (hread' : ReadAs (s ++ '\n' :: ds) ps') (hps' : ∀ t ∈ ps', t.1.isTrivia = true) :
    ∃ q' p', Between .enabled (String.ofList (front ++ (s ++ '\n' :: ds) ++ back)) q' p' front
        (s ++ '\n' :: ds) back ∧
      q'.tree.bare = q.tree.bare ∧ p'.tree.bare = p.tree.bare := by
  obtain ⟨us, vs, htree, hfront, hupper⟩ := h.exists_upper
  obtain ⟨ws, xs, htree₂, -, hlower, hback⟩ := h.exists_lower
  have hpieces' := h.pieces_change htree hfront hupper hread'
  have hpieces : pieces text.toList
      = Tree.leavesAll us ++ q.tree.leaves ++ (ps ++ pieces back) := by
    rw [h.text_eq]
    exact h.pieces_change htree hfront hupper hread
  have hwords : words text.toList
      = words (String.ofList (front ++ (s ++ '\n' :: ds) ++ back)).toList := by
    rw [String.toList_ofList, words_eq_filter, words_eq_filter, hpieces, hpieces']
    simp only [List.filter_append, filter_eq_nil_of_trivia hps, filter_eq_nil_of_trivia hps']
  obtain ⟨hnone, hbare⟩ := accepted_of_words hwords h.accepted
  obtain ⟨children, htree', hleaves, -⟩ := exists_children hnone
  rw [String.toList_ofList, hpieces'] at hleaves
  have hupper' := (congrArg Tree.bare htree').symm.trans (hbare.trans (congrArg Tree.bare htree))
  have hlower' := (congrArg Tree.bare htree').symm.trans (hbare.trans (congrArg Tree.bare htree₂))
  obtain ⟨q', hq', hstop, hbareq⟩ := exists_stop htree h.accepted htree' hnone
    (Tree.node.inj hupper').2 hleaves
  have hahead : Tree.leavesAll ws = Tree.leavesAll us ++ q.tree.leaves ++ ps := by
    rw [← List.append_assoc] at hpieces
    exact List.append_cancel_right (hlower.symm.trans hpieces)
  rw [hback, ← List.append_assoc] at hleaves
  obtain ⟨p', hp', hstart, hbarep⟩ := exists_start htree₂ h.accepted htree' hnone
    (Tree.node.inj hlower').2 hleaves (by
      rw [hahead, List.filter_append, List.filter_append _ ps, filter_eq_nil_of_trivia hps,
        filter_eq_nil_of_trivia hps'])
  have hspelled : spelled (Tree.leavesAll us ++ q.tree.leaves ++ ps')
      = front ++ (s ++ '\n' :: ds) := by
    have htext := (pieces_of_append hpieces').1
    rw [spelled_append ps', spelled_pieces, ← List.append_assoc (spelled _), ← spelled_append]
      at htext
    exact (List.append_cancel_right htext).symm
  refine ⟨q', p', ⟨hnone, String.toList_ofList, ⟨_, ?_, hq', hp'⟩, ?_, ?_⟩, hbareq, hbarep⟩
  · exact congrArg Located.root? htree'
  · rw [hstop, ← hfront, utf8ByteSize_spelled]
    rfl
  · rw [hstart, ← hspelled, utf8ByteSize_spelled]
    rfl

end Between

/-- Doc comments are collected up to a blank line. Of a paragraph of a module about which nothing is
reported, below another paragraph, a blank line and lines of comments, the doc comment is what the
lines say; if a line of blanks divides them, it is what the lines below that one say. And between
any two paragraphs of a module with a blank line between them such lines can be put: nothing is
reported then either, and they are the doc comment of the second paragraph. -/
theorem doc_comments_collected {gap : List Char} (hgap : ∀ b ∈ gap, isSpace b = true)
    (hline : 1 < gap.count '\n') (upper : List CommentLine) (blanks : Nat) {ls : List CommentLine}
    (hls : ls ≠ []) (indent : Nat) :
    (∀ {mode : TemporalMode} {text : String} {q p : Located} {front back : List Char},
      Between mode text q p front
        (gap ++ CommentLine.stacked upper blanks ls ++ List.replicate indent ' ') back →
      p.docComment? = some (CommentLine.joined ls)) ∧
    ∀ {text : String} {q p : Located} {front back : List Char},
      Between .enabled text q p front (gap ++ List.replicate indent ' ') back →
      ∃ q' p', Between .enabled
          (String.ofList (front ++ (gap ++ CommentLine.stacked upper blanks ls
            ++ List.replicate indent ' ') ++ back)) q' p' front
          (gap ++ CommentLine.stacked upper blanks ls ++ List.replicate indent ' ') back ∧
        q'.tree.bare = q.tree.bare ∧ p'.tree.bare = p.tree.bare ∧
        p'.docComment? = some (CommentLine.joined ls) := by
  obtain ⟨above, bs, habove, hbs, hread⟩ :=
    exists_readAs_stacked hgap hline upper blanks hls indent
  refine ⟨fun h => h.docComment?_eq hread habove hbs hls, fun h => ?_⟩
  have hblanks : ∀ b ∈ gap ++ List.replicate indent ' ', isSpace b = true := fun b hb =>
    (List.mem_append.mp hb).elim (hgap b) (isSpace_replicate indent b)
  obtain ⟨s, rest, rfl⟩ : ∃ s rest, gap = s ++ '\n' :: rest :=
    List.append_of_mem (List.count_pos_iff.mp (Nat.lt_of_succ_lt hline))
  have hsplit (cs : List Char) : s ++ '\n' :: rest ++ cs = s ++ '\n' :: (rest ++ cs) := by simp
  have hempty := readAs_blanks hblanks (by simp)
  rw [List.append_assoc _ (CommentLine.stacked upper blanks ls), hsplit] at hread ⊢
  rw [hsplit] at h hempty
  obtain ⟨q', p', h', hq, hp⟩ := h.exists_of_readAs hempty
    (List.forall_mem_singleton.mpr rfl) hread (isTrivia_of_above habove bs ls indent)
  exact ⟨q', p', h', hq, hp, h'.docComment?_eq hread habove hbs hls⟩

/-- The children of a signature without fields. -/
def sigChildren (name : String) : List Tree :=
  [.token (.keyword .sigKw) "sig", .token .whitespace " ",
    .node .nameList [.node .name [.token .ident name]], .token .whitespace " ",
    .node .fieldList [.token (.punct .lbrace) "\x7b", .token (.punct .rbrace) "\x7d"]]

/-- Comments in both styles are put above the second of two signatures, and another one further
up. -/
theorem doc_comments_put_above_sig :
    ∃ q p, Between .enabled "sig A {}\n\n-- old\n\n-- one \n  // $(two\nsig B {}" q p
        "sig A {}".toList "\n\n-- old\n\n-- one \n  // $(two\n".toList "sig B {}".toList ∧
      p.docComment? = some "one\n$(two" := by
  have herrors : (ofText {} .wholeModule "sig A {}\n\nsig B {}").errors = [] :=
    errors_eq_nil_iff.mpr (by rw [ofText_eq]; rfl)
  have htree : (ofText {} .wholeModule "sig A {}\n\nsig B {}").tree = .node .sourceFile
      [.node .sigDecl (sigChildren "A"), .token .whitespace "\n\n",
        .node .sigDecl (sigChildren "B")] := by
    rw [ofText_eq]
    rfl
  have hbetween : Between .enabled "sig A {}\n\nsig B {}" ⟨.sigDecl, sigChildren "A", 0, []⟩
      ⟨.sigDecl, sigChildren "B", 10,
        [.token .whitespace "\n\n", .node .sigDecl (sigChildren "A")]⟩
      "sig A {}".toList (['\n', '\n'] ++ List.replicate 0 ' ') "sig B {}".toList :=
    ⟨herrors, rfl, ⟨_, congrArg Located.root? htree, .head _, .tail _ (.head _)⟩, rfl, rfl⟩
  let old : CommentLine := ⟨0, false, "old".toList, by decide, by decide⟩
  let one : CommentLine := ⟨0, false, "one ".toList, by decide, by decide⟩
  let two : CommentLine := ⟨2, true, "$(two".toList, by decide, by decide⟩
  have hgap : ∀ b ∈ ['\n', '\n'], isSpace b = true := by simp [isSpace]
  obtain ⟨q, p, h, -, -, hdoc⟩ :=
    (doc_comments_collected hgap (by decide) [old] 0 (List.cons_ne_nil one [two]) 0).2 hbetween
  exact ⟨q, p, h, hdoc⟩

end Parse
end RelLang
