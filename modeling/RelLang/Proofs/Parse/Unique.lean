import RelLang.Proofs.Parse.Reports
import RelLang.Proofs.Syntax.Module

/-!
# The tokens tell what is derived

A form that a rule reads stands for no text in two ways: the tokens ahead tell what is
derived in front of the rest of them, and where the rest begins.
-/

namespace RelLang

open Grammar

/-- A reading can begin in front of any tokens that the grammar sees. -/
theorem State.exists_ready {input : List (TokenKind × String)}
    (h : ∀ w ∈ input, w.1.isSignificant = true) :
    ∃ s : State, s.Ready ∧ s.temporal = true ∧ s.input = input := by
  let tokens : List Token := input.map fun w => ⟨w.1, w.2, 0⟩
  have htokens : ∀ t ∈ tokens, t.kind.isSignificant = true := by
    intro t ht
    obtain ⟨w, hw, rfl⟩ := List.mem_map.mp ht
    exact h w hw
  refine ⟨Parse.start {} tokens, ⟨Parse.valid_start _ _, ?_⟩, Parse.temporal_start _ _, ?_⟩
  · rw [Parse.rest_start]
    intro t ht hinvalid
    have hkind := htokens t ht
    rw [hinvalid] at hkind
    cases hkind
  · rw [Parse.input_start, List.filter_eq_self.mpr htokens, List.map_map]
    exact List.map_id _

/-- What a rule reads is the beginning of the tokens ahead in one way only. -/
theorem Form.unique_of_reads {f : Form} {rule : Rule Nonterminal Unit}
    {pre : List TokenKind → Prop} {n : Nat} {ts us vs ws : List Tree}
    (hread : ∀ {r : Reader}, r.Faithful → Reads r pre anyhow (fun _ => f) rule)
    (hleaves : Tree.leavesAll (ts ++ vs) = Tree.leavesAll (us ++ ws))
    (hseen : ∀ k ∈ Tree.kinds (ts ++ vs), k.isSignificant = true)
    (hpre : pre (Tree.kinds (ts ++ vs))) (hts : f.Derives n ts (Tree.kinds vs))
    (hus : f.Derives n us (Tree.kinds ws)) :
    ts = us ∧ Tree.leavesAll vs = Tree.leavesAll ws := by
  have hwords : ∀ w ∈ Tree.leavesAll (ts ++ vs), w.1.isSignificant = true := fun w hw =>
    hseen w.1 (List.mem_map_of_mem hw)
  obtain ⟨s, hready, htemporal, hs⟩ := State.exists_ready hwords
  have hr : (readerOf ⟨0, .enabled, none⟩ n n fun _ => True).Faithful :=
    faithful_readerOf rfl (fun _ _ => trivial) n n (.inl (Nat.le_refl n))
  have hkinds : pre s.kinds := by
    rwa [State.kinds_eq, hs]
  have hinput : s.input = Tree.leavesAll ts ++ Tree.leavesAll vs := by
    rw [hs, Tree.leavesAll_append]
  have hinput' : s.input = Tree.leavesAll us ++ Tree.leavesAll ws := by
    rw [hs, hleaves, Tree.leavesAll_append]
  have htook := ((hread hr).complete s () ts _ hready htemporal hkinds hinput trivial hts trivial).2
  have htook' := ((hread hr).complete s () us _ hready htemporal hkinds hinput' trivial hus trivial).2
  obtain rfl : ts = us := List.append_cancel_left (htook.bare.symm.trans htook'.bare)
  exact ⟨rfl, List.append_cancel_left (hinput.symm.trans hinput')⟩

end RelLang
