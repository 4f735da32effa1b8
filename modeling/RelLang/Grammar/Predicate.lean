import RelLang.Grammar.Expression

/-!
# Predicates, functions and facts

```text
PredDecl  = 'pred' 'wheat'? Receiver? Name ParaDecls? Block
FunDecl   = 'fun' Receiver? Name ParaDecls? ':' Mult? Expr Block
FactDecl  = 'fact' Name? Block
Receiver  = QualName '.'
ParaDecls = '(' (ParaDecl (',' ParaDecl)*)? ')' | '[' (ParaDecl (',' ParaDecl)*)? ']'
ParaDecl  = 'disj'? NameList ':' Mult? Expr
```
-/

namespace RelLang.Grammar

open Rule

/-- The body of a declaration. -/
def declBody (owner : BodyOwner) : Rule Nonterminal Unit := do
  let brace ← currentIs Punct.lbrace
  if brace then block else report (.body owner)

/-- `Receiver`, if there is one. -/
def optionalReceiver : Rule Nonterminal Unit := do
  let present ← ahead receiverAhead
  when present <| node .receiver do
    ignore qualName
    bump

def paraDecl : Rule Nonterminal Unit := node .paraDecl do
  ignore (eat Keyword.disjKw)
  ignore nameList
  ignore (expect Punct.colon)
  optionalMult Operator.typeMultiplicities
  ignore expr

/-- One parameter with its comma, or text that is none; yields whether the list goes on. -/
def paraItem (closer : Punct) : Rule Nonterminal Bool := do
  let closed ← currentIs closer
  let ended ← atEnd
  if closed || ended then return false
  else
    let parameter ← currentIn [.ident, .keyword .disjKw]
    let recovered ← atRecoveryPoint
    if parameter then do
      paraDecl
      eat Punct.comma
    else if recovered then return false
    else do
      skipUntil .parameter [.punct .comma, .punct closer]
      eat Punct.comma

def paraDecls : Rule Nonterminal Unit := node .paraDecls do
  let parenthesis ← currentIs Punct.lparen
  let closer : Punct := if parenthesis then .rparen else .rbracket
  let opener ← currentRange
  bump
  within .parameterList (repeated (paraItem closer))
  ignore (expectCloser closer opener)

/-- `ParaDecls`, if there are any. -/
def optionalParaDecls : Rule Nonterminal Unit := do
  let present ← currentIn [.punct .lparen, .punct .lbracket]
  when present paraDecls

def predDecl : Rule Nonterminal Unit := node .predDecl do
  bump
  let wheat ← currentIs Keyword.wheatKw
  when wheat (tokenNode .predType)
  optionalReceiver
  ignore name
  optionalParaDecls
  declBody .predicate

def funDecl : Rule Nonterminal Unit := node .funDecl do
  bump
  optionalReceiver
  ignore name
  optionalParaDecls
  ignore (expect Punct.colon)
  optionalMult Operator.typeMultiplicities
  ignore expr
  declBody .function

def factDecl : Rule Nonterminal Unit := node .factDecl do
  bump
  let named ← currentIs .ident
  when named (ignore name)
  declBody .fact

end RelLang.Grammar
