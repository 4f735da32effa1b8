import RelLang.Grammar.Lookahead
import RelLang.Grammar.Nonterminal

/-!
# Blocks and binders

```text
Block      = '{' Expr* '}'
QuantExpr  = Quantifier QuantDecl (',' QuantDecl)* BinderBody
QuantDecl  = 'disj'? NameList ':' Mult? Expr
LetExpr    = 'let' LetDecl (',' LetDecl)* BinderBody
BindExpr   = 'bind' LetDecl (',' LetDecl)* BinderBody
LetDecl    = Name '=' Expr
BinderBody = '|' Expr | Block
```

A binder can stand wherever an operand can, and its body reaches as far to the right
as possible.
-/

namespace RelLang.Grammar

open Rule

/-- `Block`; its opening brace may be repaired. -/
def block : Rule Nonterminal Unit := node .block do
  let opener ← currentRange
  ignore (expect Punct.lbrace)
  within .block <| items .rbrace .missingExpression do
    ignore expr
  ignore (expectCloser Punct.rbrace opener)

def quantDecl : Rule Nonterminal Unit := node .quantDecl do
  ignore (eat Keyword.disjKw)
  ignore nameList
  ignore (expect Punct.colon)
  optionalMult Operator.typeMultiplicities
  ignore expr

/-- `QuantDecl (',' QuantDecl)*`; a comma belongs to the list if a declaration is behind it. -/
def quantDecls : Rule Nonterminal Unit := do
  quantDecl
  repeated do
    let more ← andAlso (currentIs Punct.comma) (ahead declarationBehind)
    when more do
      bump
      quantDecl
    return more

def binderBody : Rule Nonterminal Unit := do
  let bar ← eat Punct.bar
  if bar then ignore expr
  else
    let brace ← currentIs Punct.lbrace
    if brace then block else report .quantifiedBody

/-- A quantifier with declarations behind it. -/
def atQuantifier : Rule Nonterminal Bool :=
  andAlso (currentIn Operator.quantifiers) (ahead declarationBehind)

/-- The keywords that are binders whatever is behind them. -/
def isBinderOnly : TokenKind → Bool
  | .keyword .allKw | .keyword .sumKw | .keyword .letKw | .keyword .bindKw => true
  | _ => false

/-- A binder starts here. -/
def atBinder : Rule Nonterminal Bool := orElse (nthPasses 0 isBinderOnly) atQuantifier

def quantified (quantifier : TokenKind) : Rule Nonterminal Unit := node .quantExpr do
  bump
  let declaration ← ahead declarationAhead
  pick declaration quantDecls (report (.declarations quantifier))
  binderBody

def letDecl : Rule Nonterminal Unit := node .letDecl do
  ignore name
  ignore (expect Punct.eq)
  ignore expr

/-- `LetExpr` or `BindExpr`. -/
def bindings (kind : NodeKind) : Rule Nonterminal Unit := node kind do
  bump
  letDecl
  repeated do
    let more ← atCommaName
    when more do
      bump
      letDecl
    return more
  binderBody

/-- The binder that a keyword opens. -/
def binder (keyword : TokenKind) : Rule Nonterminal Unit :=
  match keyword with
  | .keyword .letKw => bindings .letExpr
  | .keyword .bindKw => bindings .bindExpr
  | _ => quantified keyword

end RelLang.Grammar
