import RelLang.Grammar.Expression.Atom

/-!
# Expressions

An expression is a binder, an operator in front of its operand, or an atom, and is
then extended by the operators behind it as long as they are not looser than the
level asked for. An extension puts everything read so far into its node, so there is
a node for an operator only if there is one in the text.
-/

namespace RelLang.Grammar

open Rule

/-- What an expression begins with; yields whether there is anything. -/
def operandHead : Rule Nonterminal Bool := do
  let first ← peek 0
  let isBinder ← atBinder
  match first with
  | none => return false
  | some k =>
    if isBinder then do
      binder k
      return true
    else match Operator.frontRow? k with
      | some row => do
        node row.node do
          when row.temporal requireTemporal
          bump
          operand row.operandLevel k
        return true
      | none => atom

/-- The operator of a comparison, with the negation in front of it. -/
def compareOperator : Rule Nonterminal Unit := node .compareOp do
  let negated ← nthPasses 0 Operator.isNegation
  when negated bump
  bump

/-- An arrow with its multiplicities. A keyword behind it that opens a quantified expression,
or that has no operand behind it, is none. -/
def arrowOperator : Rule Nonterminal Unit := node .arrowOp do
  let left ← currentIn Operator.arrowMultiplicities
  when left bump
  bump
  let right ← currentIn Operator.arrowMultiplicities
  let quantifier ← atQuantifier
  let operandBehind ← nthPasses 1 Operator.startsExpr
  when (right && !quantifier && operandBehind) bump

/-- The operator of a binary node. -/
def infixOperator (node : NodeKind) : Rule Nonterminal Unit :=
  match node with
  | .compareExpr => compareOperator
  | .arrowExpr => arrowOperator
  | _ => bump

/-- The part of a binary node behind its left operand. An `else` belongs to the innermost
implication in front of it. -/
def infixTail (node : NodeKind) (level : Nat) (operator : TokenKind) :
    Rule Nonterminal Unit := do
  infixOperator node
  operand level operator
  let otherwise ← currentIs Keyword.elseKw
  when (node == .impliesExpr && otherwise) do
    bump
    operand Operator.impliesLevel Keyword.elseKw

/-- The part of a node behind the operand that its operator ends. -/
def postfixTail (operator : TokenKind) : Rule Nonterminal Unit :=
  if operator == Punct.lbracket then do
    bump
    arguments
    ignore (expectToken Punct.rbracket .unclosedBoxJoin none)
  else bump

/-- Extends the expression read so far by one operator, if one stands here that is not looser
than the given level; yields whether it does. -/
def extendOnce (level : Nat) : Rule Nonterminal Bool := do
  let first ← peek 0
  let second ← peek 1
  match first with
  | none => return false
  | some k =>
    match Operator.extension? k second with
    | none => return false
    | some extension =>
      if extension.level < level then return false
      else do
        when extension.temporal requireTemporal
        enclose extension.node <| match extension.operandLevel? with
          | some operandLevel => infixTail extension.node operandLevel k
          | none => postfixTail k
        return true

/-- Extends the expression read so far by the operators behind it. -/
def extend (level : Nat) : Rule Nonterminal Unit := repeated (extendOnce level)

/-- An expression of no looser level than the given one. -/
def expression (level : Nat) : Rule Nonterminal Bool := group do
  let present ← operandHead
  when present (extend level)
  return present

/-- An expression past the last level. -/
def expressionTooDeep : Rule Empty Bool := do
  let present ← nthPasses 0 Operator.startsExpr
  when present skipNested
  return present

end RelLang.Grammar
