import RelLang.Proofs.Grammar.Fits
import RelLang.Proofs.Syntax.Begins

/-!
# Groups are nested

Every closing mark in what a form stands for closes the innermost group that is open in front of
it, and no group is left open. A form either has no marks of groups, or it has both marks of a
group around another form.
-/

namespace RelLang

/-- The mark that opens what the mark closes. -/
def Punct.opener? : Punct → Option Punct
  | .rparen => some .lparen
  | .rbracket => some .lbracket
  | .rbrace => some .lbrace
  | _ => none

namespace TokenKind

/-- Opens a group, or closes one. -/
def isDelimiter (k : TokenKind) : Bool := k.isOpener || k.isCloser

/-- The groups that are open behind a token, the innermost first, for those that are open in front
of it; none if the token closes another than the innermost. -/
def groupsBehind (groups : List Punct) : TokenKind → Option (List Punct)
  | .punct p =>
    if p.isOpener then some (p :: groups)
    else if p.isCloser then
      if groups.head? = p.opener? then some groups.tail else none
    else some groups
  | _ => some groups

/-- Behind the tokens the same groups are open as in front of them. -/
def Nested (ks : List TokenKind) : Prop :=
  ∀ groups, ks.foldlM groupsBehind groups = some groups

theorem groupsBehind_plain {k : TokenKind} (h : k.isDelimiter = false) (groups : List Punct) :
    groupsBehind groups k = some groups := by
  obtain ⟨hopener, hcloser⟩ := Bool.or_eq_false_iff.mp h
  cases k with
  | punct p =>
    have hopener : p.isOpener = false := hopener
    have hcloser : p.isCloser = false := hcloser
    simp [groupsBehind, hopener, hcloser]
  | _ => rfl

theorem nested_nil : Nested [] := fun _ => rfl

theorem nested_plain {k : TokenKind} (h : k.isDelimiter = false) : Nested [k] := by
  intro groups
  simp [groupsBehind_plain h]

theorem Nested.append {ks ls : List TokenKind} (hks : Nested ks) (hls : Nested ls) :
    Nested (ks ++ ls) := by
  intro groups
  rw [List.foldlM_append, hks groups]
  exact hls groups

/-- A group around nested tokens. -/
theorem Nested.group {p q : Punct} (hclose : q.opener? = some p) {ks : List TokenKind}
    (hks : Nested ks) : Nested (.punct p :: (ks ++ [.punct q])) := by
  intro groups
  have hopens : groupsBehind groups (.punct p) = some (p :: groups) := by
    cases q <;> cases hclose <;> rfl
  have hcloses : groupsBehind (p :: groups) (.punct q) = some groups := by
    cases q <;> cases hclose <;> rfl
  rw [List.foldlM_cons, hopens]
  show (ks ++ [TokenKind.punct q]).foldlM groupsBehind (p :: groups) = some groups
  rw [List.foldlM_append, hks]
  simp [hcloses]

theorem length_groupsBehind {k : TokenKind} {groups between : List Punct}
    (h : groupsBehind groups k = some between) :
    groups.length + (if k.isOpener then 1 else 0) = between.length + if k.isCloser then 1 else 0 := by
  cases k with
  | punct p =>
    show groups.length + (if p.isOpener then 1 else 0) = between.length + if p.isCloser then 1 else 0
    simp only [groupsBehind] at h
    split at h
    · next hopener =>
      have hcloser : p.isCloser = false := by cases p <;> cases hopener <;> rfl
      rw [← Option.some.inj h, if_pos hopener, hcloser]
      rfl
    · next hopener =>
      rw [if_neg hopener]
      split at h
      · next hcloser =>
        rw [if_pos hcloser]
        split at h
        · next hclose =>
          cases groups with
          | nil =>
            have hsome : p.opener?.isSome = true := by cases p <;> cases hcloser <;> rfl
            rw [← hclose] at hsome
            cases hsome
          | cons q groups => rw [← Option.some.inj h]; rfl
        · cases h
      · next hcloser =>
        rw [← Option.some.inj h, if_neg hcloser]
  | _ =>
    rw [← Option.some.inj h]
    rfl

/-- As many groups are closed as are opened, but for those that stay open and those that were open
in front of the tokens. -/
theorem countP_of_groups {ks : List TokenKind} {groups groups' : List Punct}
    (h : ks.foldlM groupsBehind groups = some groups') :
    groups.length + ks.countP isOpener = groups'.length + ks.countP isCloser := by
  induction ks generalizing groups with
  | nil =>
    obtain rfl : groups = groups' := by simpa using h
    rfl
  | cons k ks ih =>
    rw [List.foldlM_cons] at h
    obtain ⟨between, hk, hks⟩ := Option.bind_eq_some_iff.mp h
    have hi := ih hks
    have hlength := length_groupsBehind hk
    rw [List.countP_cons, List.countP_cons]
    omega

theorem Nested.countP_eq {ks : List TokenKind} (h : Nested ks) :
    ks.countP isOpener = ks.countP isCloser := by
  simpa using countP_of_groups (h [])

end TokenKind

namespace Form

open Grammar
open Tree (kinds)
open TokenKind (Nested)

/-! ### The ways to put forms together -/

/-- All that the form stands for is nested. -/
def Nests (n : Nat) (f : Form) : Prop := ∀ ts behind, Derives n f ts behind → Nested (kinds ts)

variable {n : Nat} {f g : Form} {test : List TokenKind → Bool}

theorem nests_nothing : Nests n .nothing := by
  intro ts behind h
  obtain rfl := derives_nothing.mp h
  exact TokenKind.nested_nil

theorem nests_token {allowed : List TokenKind} (h : ∀ k ∈ allowed, k.isDelimiter = false) :
    Nests n (.token allowed) := by
  intro ts behind hts
  obtain ⟨k, text, hk, rfl⟩ := derives_token.mp hts
  exact TokenKind.nested_plain (h k hk)

theorem nests_never : Nests n never := nests_token nofun

theorem Nests.append (hf : Nests n f) (hg : Nests n g) : Nests n (f ++ g) := by
  intro ts behind h
  obtain ⟨us, vs, rfl, hus, hvs⟩ := derives_append.mp h
  rw [Tree.kinds_append]
  exact (hf _ _ hus).append (hg _ _ hvs)

/-- A form between the marks of a group. -/
theorem Nests.group {p q : Punct} (hclose : q.opener? = some p) (hf : Nests n f) :
    Nests n (token [.punct p] ++ (f ++ token [.punct q])) := by
  intro ts behind h
  obtain ⟨us, vs, rfl, hus, hvs⟩ := derives_append.mp h
  obtain ⟨ws, xs, rfl, hws, hxs⟩ := derives_append.mp hvs
  obtain ⟨_, _, hp, rfl⟩ := derives_token.mp hus
  obtain ⟨_, _, hq, rfl⟩ := derives_token.mp hxs
  obtain rfl := List.mem_singleton.mp hp
  obtain rfl := List.mem_singleton.mp hq
  rw [Tree.kinds_append, Tree.kinds_append]
  exact (hf _ _ hws).group hclose

theorem Nests.node (hf : Nests n f) (kind : NodeKind) : Nests n (.node kind f) := by
  intro ts behind h
  obtain ⟨us, rfl, hus⟩ := derives_node.mp h
  simpa using hf _ _ hus

theorem Nests.either (hf : Nests n f) (hg : Nests n g) : Nests n (.either f g) := by
  intro ts behind h
  obtain h | h := derives_either.mp h
  · exact hf _ _ h
  · exact hg _ _ h

theorem Nests.many (hf : Nests n f) : Nests n (.many f) := by
  intro ts behind h
  refine h.many_induction (p := fun ts => Nested (kinds ts)) TokenKind.nested_nil
    fun us vs hus hvs => ?_
  rw [Tree.kinds_append]
  exact (hf _ _ hus).append hvs

theorem nests_ahead {choice : List TokenKind → Form} (h : ∀ ks, Nests n (choice ks)) :
    Nests n (.ahead choice) :=
  fun _ _ hts => h _ _ _ (derives_ahead.mp hts)

theorem Nests.given (hf : Nests n f) (hg : Nests n g) : Nests n (given test f g) :=
  nests_ahead fun ks => by
    split
    · exact hf
    · exact hg

theorem Nests.ifAhead (hf : Nests n f) : Nests n (ifAhead test f) := .given hf nests_nothing

theorem nests_look : Nests n (look test) := .given nests_nothing nests_never

theorem Nests.whileAhead (hf : Nests n f) : Nests n (whileAhead test f) :=
  (nests_look.append hf).many.append nests_look

theorem Nests.separated {mark : Punct} (hmark : (TokenKind.punct mark).isDelimiter = false)
    (hf : Nests n f) : Nests n (separated mark f) :=
  ((nests_token fun _ h => List.mem_singleton.mp h ▸ hmark).append hf).whileAhead

theorem Nests.yields {α : Type} [DecidableEq α] {a b : α} (hf : Nests n f) :
    Nests n (yields a f b) := by
  unfold Form.yields
  split
  · exact hf
  · exact nests_never

section

variable (hgroup : Nests n (part .boundGroup))

include hgroup

end

/-! ### Expressions -/

section

variable (hexpr : ∀ level, Nests n (exprAt level))

include hexpr

end

end Form
end RelLang
