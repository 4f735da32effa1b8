import RelLang.Grammar.Bounds
import RelLang.Grammar.Expression.Binder

/-!
# Commands, instances and scopes

```text
CmdDecl   = (Name ':')? ('run' | 'check') (QualName | Block)? Scope? ('for' Bounds)?
InstDecl  = 'inst' Name Bounds Scope?
Scope     = 'for' NUMBER ('but' Typescope (',' Typescope)*)?
          | 'for' Typescope (',' Typescope)*
Typescope = 'exactly'? NUMBER QualName
```
-/

namespace RelLang.Grammar

open Rule

/-- A `for` with a number behind it, and not bounds. -/
def atScope : Rule Nonterminal Bool :=
  andAlso (currentIs Keyword.forKw)
    (orElse (nthIs 1 .number) (andAlso (nthIs 1 Keyword.exactlyKw) (nthIs 2 .number)))

def typescope : Rule Nonterminal Unit := node .typescope do
  ignore (eat Keyword.exactlyKw)
  let number ← currentIs .number
  if number then do
    bump
    ignore qualName
  else report .typescope

/-- `Typescope (',' Typescope)*`; a comma belongs to the list if a typescope is behind it. -/
def typescopes : Rule Nonterminal Unit := do
  typescope
  repeated do
    let more ← andAlso (currentIs Punct.comma)
      (nthPasses 1 [.number, .keyword .exactlyKw].contains)
    when more do
      bump
      typescope
    return more

/-- A typescope starts here, rather than the number of a default scope. -/
def atTypescope : Rule Nonterminal Bool :=
  orElse (currentIs Keyword.exactlyKw) <| andAlso (currentIs .number) <|
    orElse (nthPasses 1 TokenKind.isNameSegment)
      (andAlso (nthIs 1 Keyword.thisKw) (nthIs 2 Punct.slash))

def scope : Rule Nonterminal Unit := node .scope <| within .scope do
  ignore (expect Keyword.forKw)
  let typed ← atTypescope
  let number ← currentIs .number
  if typed then typescopes
  else if number then do
    bump
    let but ← eat Keyword.butKw
    when but typescopes
  else report .scope

/-- `Scope? ('for' Bounds)?`. -/
def scopeAndBounds : Rule Nonterminal Unit := do
  let limited ← atScope
  when limited scope
  let bounded ← eat Keyword.forKw
  when bounded bounds

/-- `(QualName | Block)?`. -/
def optionalTarget : Rule Nonterminal Unit := do
  let named ← atQualName
  let brace ← currentIs Punct.lbrace
  if named then ignore qualName
  else when brace block

def cmdDecl : Rule Nonterminal Unit := node .cmdDecl do
  let labelled ← currentIs .ident
  when labelled do
    ignore name
    bump
  let command ← currentIn [.keyword .runKw, .keyword .checkKw]
  pick command bump (report .command)
  optionalTarget
  scopeAndBounds

def instDecl : Rule Nonterminal Unit := node .instDecl do
  bump
  ignore name
  bounds
  let limited ← atScope
  when limited scope

end RelLang.Grammar
