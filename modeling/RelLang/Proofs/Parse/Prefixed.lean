import Mathlib
import RelLang.Proofs.Parse.Syntax
import RelLang.Proofs.Syntax.Prefixed

/-!
# Accepted texts with `this/` in front of names

Wherever a qualified name is read it may begin with `this/`, and nothing else of the tree
changes. There are two places where it may not, in which the grammar has a qualified name
but the parser looks for its first segment: behind a dot on the left of a bound, and behind
a comma in a tuple of values.
-/

namespace RelLang

open Grammar

namespace Form

/-- No other tokens are added. -/
theorem Prefixed.mem {ks ks' : List TokenKind} (h : Prefixed ks ks') {k : TokenKind} (hk : k ∈ ks') :
    k ∈ ks ∨ k = .keyword .thisKw ∨ k = .punct .slash := by
  induction h with
  | nil => cases hk
  | cons _ ih =>
    obtain rfl | hk := List.mem_cons.mp hk
    · exact .inl List.mem_cons_self
    · exact (ih hk).imp_left (List.mem_cons_of_mem _)
  | this _ _ ih =>
    obtain rfl | hk := List.mem_cons.mp hk
    · exact .inr (.inl rfl)
    obtain rfl | hk := List.mem_cons.mp hk
    · exact .inr (.inr rfl)
    obtain rfl | hk := List.mem_cons.mp hk
    · exact .inl List.mem_cons_self
    · exact (ih hk).imp_left (List.mem_cons_of_mem _)

end Form

namespace Parse

/-- The tree of an accepted text has no malformed tokens. -/
theorem invalid_notMem_kinds {entry : Entry} {text : String} {ts : List Tree}
    (hok : (ofText {} entry text).ok = true)
    (hbare : (ofText {} entry text).tree.bare = .node entry.rootKind ts) :
    .invalid ∉ Tree.kinds ts := by
  intro hmem
  obtain ⟨w, hw, hkind⟩ := List.mem_map.mp hmem
  rw [leaves_of_bare hbare] at hw
  obtain ⟨t, ht, rfl⟩ := List.mem_map.mp hw
  exact whole_of_ok rfl hok t (List.mem_filter.mp ht).1 hkind

/-- A text that is accepted is accepted with `this/` in front of any of its names too, those
excepted that are looked for by their first segment, and its tree is the same but for the words
that have been added. -/
theorem accepted_prefixed (entry : Entry) {text text' : String} {tree : Tree}
    (hok : (ofText {} entry text).ok = true)
    (hprefixed : (ofText {} entry text).tree.bare.Prefixed tree)
    (htokens : (significantTokens text').map Token.toPair = tree.leaves) :
    (ofText {} entry text').ok = true ∧ (ofText {} entry text').tree.bare = tree := by
  obtain ⟨ts, hbare, hts⟩ := derives_of_ok rfl hok
  have htree : (ofText {} entry text).tree.bare = .node entry.rootKind ts := hbare
  have hroot : entry.rootKind ≠ .qualName := by cases entry <;> nofun
  rw [htree] at hprefixed
  have hone : Tree.PrefixedAll none [.node entry.rootKind ts] [tree] := .cons hprefixed nofun .nil
  obtain ⟨us, heq, hus⟩ := hone.node hroot
  obtain rfl := (List.cons.inj heq).1
  have hderives := Form.carries_ofEntry entry _ _ _ _ hus .nil hts
  have hvalid : ∀ w ∈ Tree.leavesAll us, w.1 ≠ .invalid := by
    intro w hw hinvalid
    have hkind : w.1 ∈ Tree.kinds us := List.mem_map_of_mem hw
    rw [hinvalid] at hkind
    obtain hkind | hthis | hslash := (Form.prefixed_kindsAll hus).mem hkind
    · exact invalid_notMem_kinds hok htree hkind
    · cases hthis
    · cases hslash
  exact ok_of_leaves htokens hvalid hderives (.inl (Nat.le_refl _))

/-- The second of two names. -/
theorem accepted_prefixed_joined : ∃ tree,
    (ofText {} .wholeModule "eval a.b").ok = true ∧
    (ofText {} .wholeModule "eval a.b").tree.bare.Prefixed tree ∧
    (significantTokens "eval a.this/b").map Token.toPair = tree.leaves ∧
    (ofText {} .wholeModule "eval a.this/b").ok = true ∧
    (ofText {} .wholeModule "eval a.this/b").tree.bare = tree := by
  have hok : (ofText {} .wholeModule "eval a.b").ok = true := by rw [ofText_eq]; rfl
  have htree : (ofText {} .wholeModule "eval a.b").tree = .node .sourceFile
      [.node .evalDecl [.token (.keyword .evalKw) "eval", .token .whitespace " ",
        .node .dotJoinExpr [.node .nameRef [.node .qualName [.token .ident "a"]],
          .token (.punct .dot) ".", .node .nameRef [.node .qualName [.token .ident "b"]]]]] := by
    rw [ofText_eq]; rfl
  have hname : Tree.Prefixed (.node .nameRef [.node .qualName [.token .ident "b"]])
      (.node .nameRef [.node .qualName [.token (.keyword .thisKw) "this", .token (.punct .slash) "/",
        .token .ident "b"]]) := .node (.middle [] (.name List.mem_cons_self) rfl [])
  obtain ⟨tree, hprefixed, hleaves⟩ : ∃ tree,
      (ofText {} .wholeModule "eval a.b").tree.bare.Prefixed tree ∧ tree.leaves =
        [(.keyword .evalKw, "eval"), (.ident, "a"), (.punct .dot, "."), (.keyword .thisKw, "this"),
         (.punct .slash, "/"), (.ident, "b")] := by
    rw [htree]
    exact ⟨_, .node (.middle [] (.node (.middle [_] (.node (.middle [_, _] hname rfl [])) rfl []))
      rfl []), rfl⟩
  have htokens : (significantTokens "eval a.this/b").map Token.toPair = tree.leaves := by
    rw [hleaves, significantTokens, tokenize_eq]
    rfl
  exact ⟨tree, hok, hprefixed, htokens, accepted_prefixed .wholeModule hok hprefixed htokens⟩

/-- What the qualified names of the tree consist of. -/
def names (p : Parse) : List (List String) :=
  ((Located.root? p.tree).toList.flatMap Located.descendants).filterMap fun n =>
    if n.kind = .qualName then some (n.childTokens.map (·.2)) else none

/-- The two places in which a qualified name is not read if it begins with `this/`. -/
theorem prefix_not_read :
    (let p := ofText {} .wholeModule "inst i { r = a, b }"
     p.ok = true ∧ p.names = [["r"], ["a"], ["b"]] ∧
       (ofText {} .wholeModule "inst i { r = a, this/b }").ok = false) ∧
    (let p := ofText {} .wholeModule "inst i { no a.b }"
     p.ok = true ∧ p.names = [["a"], ["b"]] ∧
       (ofText {} .wholeModule "inst i { no a.this/b }").ok = false) := by
  have htuple : (ofText {} .wholeModule "inst i { r = a, b }").tree = .node .sourceFile
      [.node .instDecl [.token (.keyword .instKw) "inst", .token .whitespace " ",
        .node .name [.token .ident "i"], .token .whitespace " ",
        .node .bounds [.token (.punct .lbrace) "\x7b", .token .whitespace " ",
          .node .bound [.node .boundLhs [.node .qualName [.token .ident "r"]],
            .token .whitespace " ", .node .compareOp [.token (.punct .eq) "="],
            .token .whitespace " ", .node .bindRhsUnion [.node .bindRhsProduct
              [.node .bindRhsAtom [.node .qualName [.token .ident "a"]],
                .token (.punct .comma) ",", .token .whitespace " ",
                .node .bindRhsAtom [.node .qualName [.token .ident "b"]]]]],
          .token .whitespace " ", .token (.punct .rbrace) "\x7d"]]] := by rw [ofText_eq]; rfl
  have hpath : (ofText {} .wholeModule "inst i { no a.b }").tree = .node .sourceFile
      [.node .instDecl [.token (.keyword .instKw) "inst", .token .whitespace " ",
        .node .name [.token .ident "i"], .token .whitespace " ",
        .node .bounds [.token (.punct .lbrace) "\x7b", .token .whitespace " ",
          .node .bound [.token (.keyword .noKw) "no", .token .whitespace " ",
            .node .boundLhs [.node .qualName [.token .ident "a"], .token (.punct .dot) ".",
              .node .qualName [.token .ident "b"]]],
          .token .whitespace " ", .token (.punct .rbrace) "\x7d"]]] := by rw [ofText_eq]; rfl
  refine ⟨⟨?_, ?_, ?_⟩, ⟨?_, ?_, ?_⟩⟩
  · rw [ofText_eq]; rfl
  · rw [names, htuple]; rfl
  · rw [ofText_eq]; rfl
  · rw [ofText_eq]; rfl
  · rw [names, hpath]; rfl
  · rw [ofText_eq]; rfl

end Parse
end RelLang
