import RelLang.Grammar.Name
import RelLang.Operator

/-!
# Nonterminals

The two places where the grammar comes back to itself: an expression in an
expression, and a group of bound values in a bound value. Each goes one level
deeper. Past the last level, what would be read is skipped into one error node.
-/

namespace RelLang.Grammar

open Rule

/-- What a rule may call. -/
inductive Nonterminal where
  /-- An expression of no looser level than the given one. -/
  | expression (level : Nat)
  /-- `'(' BindRhsUnion ')'`. -/
  | boundGroup
  deriving DecidableEq, Repr

variable {ν : Type}

/-- Skips what is nested too deeply: a group up to its closer, anything else up to a recovery
point. A closer of a group that was opened before is left. -/
def skipNested : Rule ν Unit := do
  report .tooDeep
  node .error do
    let isGroup ← nthPasses 0 TokenKind.isOpener
    let _ ← loop 0 fun openers => do
      let ended ← atEnd
      let opener ← nthPasses 0 TokenKind.isOpener
      let closer ← nthPasses 0 TokenKind.isCloser
      if ended || (closer && openers == 0) then return (openers, false)
      else
        let openers := if opener then openers + 1 else if closer then openers - 1 else openers
        bump
        let recovered ← atRecoveryPoint
        return (openers, !(openers == 0 && (isGroup || recovered)))
    return ()

/-- An expression of no looser level than the given one; yields whether there is one. -/
def exprAt (level : Nat) : Rule Nonterminal Bool := do
  let present ← call (.expression level)
  when (!present) (report .expression)
  return present

/-- An expression; yields whether there is one. -/
def expr : Rule Nonterminal Bool := exprAt 0

/-- The operand behind an operator. -/
def operand (level : Nat) (after : TokenKind) : Rule Nonterminal Unit := do
  let present ← call (.expression level)
  when (!present) (report (.operand after))

/-- `Expr (',' Expr)*` up to a closing bracket, in a node that is there even if it is empty. -/
def arguments : Rule Nonterminal Unit := within .argumentList <| node .exprList do
  let closed ← currentIs Punct.rbracket
  when (!closed) do
    ignore expr
    repeated do
      let more ← eat Punct.comma
      when more do
        ignore expr
      return more

end RelLang.Grammar
