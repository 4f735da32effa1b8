import RelLang.Proofs.Grammar.OneNode
import RelLang.Proofs.Machine.Balance
import RelLang.Proofs.Parse.Visit

/-!
# What a reading asks of an expression

Every loop that reads expressions, and every operand, relies on the answer of a call: no expression
means that nothing was touched, an expression means that one node was made. The calls keep to that
in every state that a reading goes through, and so does the machine, which counts its nesting.
-/

namespace RelLang

/-- Machines that show two states inside one frame have the same nodes open and the same nesting. -/
theorem Shows.returns {f : Frame} {s t : State} {m m' : Machine} (h : Shows f s m)
    (h' : Shows f t m') (hcontexts : t.contexts = s.contexts) : m.Returns m' where
  depth := h'.depth.trans h.depth.symm
  below := h'.below.trans h.below.symm
  contexts := by rw [h'.state, h.state]; exact hcontexts
  nesting := h'.nesting.trans h.nesting.symm

namespace Parse

open Grammar Rule

variable {config : ParseConfig} {entry : Entry} {text : String} {levels : Nat} {s : State}

/-- In every state that the reading of a text goes through, a call of an expression of any level
finds one node or nothing. If there is none, no token was taken, nothing was reported and nothing
else has changed, the skipped tokens apart. If there is one, the current token was one that can
begin an expression, tokens were taken, and one node was added, an error node if no level was left.
A machine in that state gives the same answer, and leaves the open nodes, the contexts and the
nesting as they were. -/
theorem expression_one_node (h : Reached config entry (tokenize text) levels s) (level : Nat) :
    let read := setting config (tokenize text)
    let r := (call (.expression level)).run read (Grammar.language.enter read levels) s
    NodeOrNothing (fun kind => levels = 0 → kind = .error) s r ∧
    r.2.contexts = s.contexts ∧
    ∀ (frame : Frame) (m : Machine) (rounds : Nat), Shows frame s m → s.left < rounds →
      levels + frame.nesting = nestingLimit →
      ∃ m', Grammar.language.exec read rounds (levels + 1) (.expression level) frame.mark m
          = .ok (r.1, m') ∧ Shows frame r.2 m' ∧ m.Returns m' := by
  intro read r
  have hs : s.Valid := h.valid
  have hcontexts : r.2.contexts = s.contexts :=
    (Grammar.language.steady_enter read levels (.expression level) s).contexts
  refine ⟨nodeOrNothing_enter levels level hs, hcontexts,
    fun frame m rounds hm hrounds hlimit => ?_⟩
  have hmirrors : Mirrors rounds frame.nesting
      (Grammar.language.exec read rounds (levels + 1) (.expression level))
      (Grammar.language.enter read levels (.expression level)) :=
    Grammar.language.mirrors_exec read rounds
      (fun levels symbol => ends_body (Grammar.language.steady_enter read levels) symbol)
      (fun symbol => (advances_beyond read _ symbol).ends) hlimit (.expression level)
  obtain ⟨m', hexec, hm'⟩ := hmirrors hm hs hrounds rfl
  exact ⟨m', hexec, hm', hm.returns hm' hcontexts⟩

/-- A call of an expression in front of the text. -/
def firstCall (text : String) : Bool × State :=
  (call (.expression 0)).run (setting {} (tokenize text))
    (Grammar.language.enter (setting {} (tokenize text)) nestingLimit) (start {} (tokenize text))

/-- In front of a name there is an expression, in front of a mark that closes a group there is
none. -/
theorem expression_one_node_name :
    ((firstCall "a").1 = true ∧
      NodeOrNothing (fun kind => nestingLimit = 0 → kind = .error) (start {} (tokenize "a"))
        (firstCall "a")) ∧
    (firstCall ")").1 = false ∧
      NodeOrNothing (fun kind => nestingLimit = 0 → kind = .error) (start {} (tokenize ")"))
        (firstCall ")") := by
  refine ⟨⟨?_, (expression_one_node (reached_start {} .oneExpression (tokenize "a")) 0).1⟩, ?_,
    (expression_one_node (reached_start {} .oneExpression (tokenize ")")) 0).1⟩
  · rw [firstCall, tokenize_eq]
    decide +kernel
  · rw [firstCall, tokenize_eq]
    decide +kernel

end Parse
end RelLang
