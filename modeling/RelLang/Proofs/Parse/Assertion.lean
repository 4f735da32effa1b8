import RelLang.Proofs.Parse.Precedence
import RelLang.Proofs.Parse.Syntax
import RelLang.Proofs.Syntax.Uniform
import RelLang.Proofs.View.Bare
import RelLang.View.Declaration

/-!
# Plain assertions

A plain assertion of an accepted module is the word `assert`, a name or none, and a
block. That it is plain is decided by the block alone, before the operators behind it
are read, so a block with operators behind it is a plain assertion too; its block is
then below the operation, and is not found.
-/

namespace RelLang

/-- An operation with a block as its first operand, or as the first operand of that, and so on. -/
inductive Tree.OnBlock : Tree → Prop where
  | block {row : OperatorRow} {children rest : List Tree} (hrow : row ∈ Operator.table)
      (hbehind : row.fixity.isFront = false) (hrest : rest ≠ []) :
      OnBlock (.node row.node (.node .block children :: rest))
  | operation {row : OperatorRow} {first : Tree} {rest : List Tree} (hrow : row ∈ Operator.table)
      (hbehind : row.fixity.isFront = false) (hrest : rest ≠ []) (hfirst : OnBlock first) :
      OnBlock (.node row.node (first :: rest))

/-- An operation is neither a block nor a name. -/
theorem Tree.OnBlock.isOf_eq_false {t : Tree} (ht : t.OnBlock) :
    t.isOf (.only .block) = false ∧ t.isOf (.only .name) = false := by
  have hrow : ∀ row ∈ Operator.table, row.node ≠ .block ∧ row.node ≠ .name := by decide
  have hnode : ∃ row ∈ Operator.table, ∃ children, t = .node row.node children := by
    cases ht with
    | block h _ _ => exact ⟨_, h, _, rfl⟩
    | operation h _ _ _ => exact ⟨_, h, _, rfl⟩
  obtain ⟨row, hmem, children, rfl⟩ := hnode
  exact ⟨beq_eq_false_iff_ne.mpr (hrow row hmem).1.symm,
    beq_eq_false_iff_ne.mpr (hrow row hmem).2.symm⟩

namespace Form

variable {n : Nat} {ts us : List Tree} {behind : List TokenKind}

/-- What continues an expression is not empty. -/
theorem ne_nil_of_tail {k : TokenKind} {e : Operator.Extension} (h : Derives n (tail k e) ts behind) :
    ts ≠ [] := by
  unfold tail at h
  split at h
  · obtain ⟨us, vs, rfl, -, hvs⟩ := derives_row_cons.mp h
    obtain ⟨vs, ws, rfl, hvs, -⟩ := derives_row_cons.mp hvs
    obtain ⟨kind, children, rfl, -⟩ := isExpr_exprAt _ _ _ _ hvs
    simp
  split at h
  · obtain ⟨us, vs, rfl, hus, -⟩ := derives_row_cons.mp h
    obtain ⟨k', text, -, rfl⟩ := derives_token.mp hus
    simp
  · obtain ⟨k', text, -, rfl⟩ := derives_token.mp h
    simp

/-- A block with operators behind it. -/
theorem extended_block {level : Nat} (h : Derives n (.extended level block) ts behind) :
    ∃ t, ts = [t] ∧ ((∃ children, t = .node .block children) ∨ t.OnBlock) := by
  generalize hform : Form.extended level block = form at h
  induction h with
  | head hblock =>
    obtain ⟨-, rfl⟩ := Form.extended.inj hform
    obtain ⟨children, rfl, -⟩ := derives_node.mp hblock
    exact ⟨_, rfl, .inl ⟨children, rfl⟩⟩
  | extend _ asked _ back ih =>
    obtain ⟨t, rfl, ht⟩ := ih hform
    obtain ⟨row, hrow, hbehind, rfl, -⟩ := row_of_extensionOf asked
    have hrest := ne_nil_of_tail back
    refine ⟨_, rfl, .inr ?_⟩
    obtain ⟨children, rfl⟩ | ht := ht
    · exact .block hrow hbehind hrest
    · exact .operation hrow hbehind hrest ht
  | _ => cases hform

/-- What a plain assertion consists of. -/
theorem parts_of_plain (h : Derives n (assertionHead .plain) ts behind) :
    ∃ text, (∃ names children, ts = .token (.keyword .assertKw) text ::
        (names ++ [.node .block children]) ∧
        (names = [] ∨ ∃ us, names = [.node .name us])) ∨
      ∃ t, ts = [.token (.keyword .assertKw) text, t] ∧ t.OnBlock := by
  obtain ⟨us, vs, rfl, hus, hvs⟩ := derives_append.mp h
  obtain ⟨k, text, hk, rfl⟩ := derives_token.mp hus
  obtain rfl := List.mem_singleton.mp hk
  refine ⟨text, ?_⟩
  rw [asserted, derives_given] at hvs
  split at hvs
  · obtain ⟨xs, ys, rfl, hname, hblock⟩ := derives_append.mp (derives_yields.mp hvs).2
    obtain ⟨us, rfl, -⟩ := derives_node.mp hname
    obtain ⟨children, rfl, -⟩ := derives_node.mp hblock
    exact .inl ⟨[.node .name us], children, rfl, .inr ⟨us, rfl⟩⟩
  rw [derives_given] at hvs
  split at hvs
  · obtain ⟨xs, ys, rfl, hblock, hyields⟩ := derives_append.mp hvs
    have hplain := derives_ahead.mp hyields
    obtain rfl := derives_nothing.mp (derives_yields.mp hplain).2
    obtain ⟨t, rfl, ⟨children, rfl⟩ | ht⟩ := extended_block (derives_append_look.mp hblock).1
    · exact .inl ⟨[], children, rfl, .inl rfl⟩
    · exact .inr ⟨t, rfl, ht⟩
  rw [derives_given] at hvs
  split at hvs
  · exact absurd hvs not_derives_never
  · cases (derives_yields.mp hvs).1

end Form

namespace AssertDecl

/-- The word `assert`, a name or none, and a block, which is the body. -/
def IsPlain (v : AssertDecl) : Prop :=
  ∃ (text : String) (b : Block), v.block = some b ∧
    v.parts = .token (.keyword .assertKw) text :: (v.name.toList.map View.bare ++ [b.bare])

/-- The word `assert` and an operation on a block; there is no body. -/
def IsOperation (v : AssertDecl) : Prop :=
  ∃ (text : String) (t : Tree), t.OnBlock ∧ v.block = none ∧ v.name = none ∧
    v.parts = [.token (.keyword .assertKw) text, t]

/-- What is derived for a plain assertion is found in it. -/
theorem isPlain_or_isOperation {v : AssertDecl} (h : Form.Embodied .assertDecl v.parts) :
    v.IsPlain ∨ v.IsOperation := by
  obtain ⟨n, behind, hparts⟩ := h _ rfl
  obtain ⟨text, ⟨names, children, hv, hnames⟩ | ⟨t, hv, ht⟩⟩ := Form.parts_of_plain hparts
  · have hblock : v.parts.filter (Tree.isOf (.only .block)) = [.node .block children] := by
      obtain rfl | ⟨us, rfl⟩ := hnames <;> rw [hv] <;> rfl
    obtain ⟨b, hb, hbare⟩ := View.first_of_parts hblock
    refine .inl ⟨text, b, hb, ?_⟩
    rw [hv, hbare]
    obtain rfl | ⟨us, rfl⟩ := hnames
    · have hname : v.name = none := View.first_eq_none (by rw [hv]; rfl)
      rw [hname]
      rfl
    · have hfirst : v.parts.filter (Tree.isOf (.only .name)) = [.node .name us] := by
        rw [hv]
        rfl
      obtain ⟨name, hname, hbare⟩ := View.first_of_parts hfirst
      rw [View.name, hname, Option.toList_some, List.map_singleton, hbare]
  · obtain ⟨hblock, hname⟩ := ht.isOf_eq_false
    refine .inr ⟨text, t, ht, View.first_eq_none ?_, View.first_eq_none ?_, hv⟩
    · rw [hv, List.filter_cons_of_neg (by simp [Tree.isOf]), List.filter_cons_of_neg (by simp [hblock]),
        List.filter_nil]
    · rw [hv, List.filter_cons_of_neg (by simp [Tree.isOf]), List.filter_cons_of_neg (by simp [hname]),
        List.filter_nil]

end AssertDecl

namespace Parse

/-- Every module that is accepted, whatever the configuration, if reports are not dropped: a plain
assertion in it has a block and nothing but a name in front of that, or there is an operation on
the block where the block is looked for. -/
theorem accepted_assertion (config : ParseConfig) (hkeep : config.maxDiagnostics = none)
    (text : String) (hok : (ofText config .wholeModule text).ok = true) {root : Located}
    (hroot : Located.root? (ofText config .wholeModule text).tree = some root) {v : AssertDecl}
    (hv : v.node ∈ root.descendants) : v.IsPlain ∨ v.IsOperation := by
  obtain ⟨ts, hbare, hts⟩ := derives_of_ok hkeep hok
  have hbelow : Tree.Everywhere (fun kind us _ => Form.Embodied kind us) (.node .sourceFile ts) [] :=
    ⟨nofun, Form.embodied_of_derives hts (Form.uniform_ofEntry .wholeModule) []⟩
  have htree : (ofText config .wholeModule text).tree.bare = .node .sourceFile ts := hbare
  have hall : (ofText config .wholeModule text).tree.Everywhere
      (fun kind us _ => Form.Embodied kind (Tree.bareAll us)) [] :=
    Tree.everywhere_of_bare _ (htree ▸ hbelow)
  obtain ⟨hroot, -⟩ := Located.of_root? hroot
  obtain ⟨-, -, -, -, hnode⟩ := Located.everywhere_of_mem_nodesOf root.tree (hroot ▸ hall) hv
  have hkind : .assertDecl = v.node.kind := eq_of_beq v.admitted
  have hparts : Form.Embodied v.node.kind v.parts := hnode
  rw [← hkind] at hparts
  exact AssertDecl.isPlain_or_isOperation hparts

/-- A name and a block. -/
theorem accepted_assertion_named :
    ∃ (root : Located) (v : AssertDecl), (ofText {} .wholeModule "assert p { a }").ok = true ∧
      Located.root? (ofText {} .wholeModule "assert p { a }").tree = some root ∧
      v.node ∈ root.descendants ∧ (v.IsPlain ∨ v.IsOperation) := by
  have hok : (ofText {} .wholeModule "assert p { a }").ok = true := by rw [ofText_eq]; rfl
  have htree : (ofText {} .wholeModule "assert p { a }").tree = .node .sourceFile
      [.node .assertDecl [.token (.keyword .assertKw) "assert", .token .whitespace " ",
        .node .name [.token .ident "p"], .token .whitespace " ",
        .node .block [.token (.punct .lbrace) "\x7b", .token .whitespace " ",
          .node .nameRef [.node .qualName [.token .ident "a"]], .token .whitespace " ",
          .token (.punct .rbrace) "\x7d"]]] := by rw [ofText_eq]; rfl
  have hassert : ((Located.root? (ofText {} .wholeModule "assert p { a }").tree).map fun root =>
      root.descendants.any (·.kind == .assertDecl)) = some true := by rw [htree]; rfl
  obtain ⟨root, hroot, hany⟩ := Option.map_eq_some_iff.mp hassert
  obtain ⟨n, hn, hkind⟩ := List.any_eq_true.mp hany
  have hadmitted : (Category.only .assertDecl).admits n.kind = true :=
    beq_iff_eq.mpr (eq_of_beq hkind).symm
  exact ⟨root, ⟨n, hadmitted⟩, hok, hroot, hn,
    accepted_assertion {} rfl "assert p { a }" hok hroot hn⟩

/-- An operator behind the block takes the block away from the assertion. -/
theorem assertion_without_body :
    (ofText {} .wholeModule "assert { a } and b").ok = true ∧
      ((Located.root? (ofText {} .wholeModule "assert { a } and b").tree).map fun root =>
        root.descendants.any fun n =>
          (n.as? (.only .assertDecl)).any fun v : AssertDecl => v.block.isNone) = some true := by
  have hok : (ofText {} .wholeModule "assert { a } and b").ok = true := by rw [ofText_eq]; rfl
  have htree : (ofText {} .wholeModule "assert { a } and b").tree = .node .sourceFile
      [.node .assertDecl [.token (.keyword .assertKw) "assert", .token .whitespace " ",
        .node .andExpr [.node .block [.token (.punct .lbrace) "\x7b", .token .whitespace " ",
            .node .nameRef [.node .qualName [.token .ident "a"]], .token .whitespace " ",
            .token (.punct .rbrace) "\x7d"],
          .token .whitespace " ", .token (.keyword .andKw) "and", .token .whitespace " ",
          .node .nameRef [.node .qualName [.token .ident "b"]]]]] := by rw [ofText_eq]; rfl
  refine ⟨hok, ?_⟩
  rw [htree]
  rfl

end Parse
end RelLang
