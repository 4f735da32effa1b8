import RelLang.Grammar.Expression

/-!
# Signatures

```text
SigDecl   = ('var' | 'abstract' | Mult)* 'sig' NameList SigExt?
            '{' (FieldDecl (',' FieldDecl)* ','?)? '}' Block?
SigExt    = 'extends' QualName | 'in' QualName ('+' QualName)*
FieldDecl = 'var'? NameList ':' Mult? Expr
```
-/

namespace RelLang.Grammar

open Rule

/-- One of the words in front of `sig`; yields whether there is one. -/
def sigModifier : Rule Nonterminal Bool := do
  let varying ← currentIs Keyword.varKw
  let abstracted ← currentIs Keyword.abstractKw
  let multiplicity ← currentIn Operator.sigMultiplicities
  if varying then do
    requireTemporal
    bump
    return true
  else if abstracted then do
    bump
    return true
  else if multiplicity then do
    tokenNode .mult
    return true
  else return false

def sigExt : Rule Nonterminal Unit := node .sigExt do
  let subset ← currentIs Keyword.inKw
  bump
  ignore qualName
  when subset <| repeated do
    let more ← eat Punct.plus
    when more do
      ignore qualName
    return more

/-- `FieldDecl`; the type is no looser than an arrow. -/
def fieldDecl : Rule Nonterminal Unit := node .fieldDecl do
  let varying ← currentIs Keyword.varKw
  when varying do
    requireTemporal
    bump
  ignore nameList
  ignore (expect Punct.colon)
  optionalMult Operator.fieldMultiplicities
  ignore (exprAt Operator.arrowLevel)

/-- A field starts here. -/
def atField : Rule Nonterminal Bool := currentIn [.keyword .varKw, .ident]

/-- What may follow a field: a comma, or another field by mistake. -/
def fieldEnd : Rule Nonterminal Unit := do
  let comma ← eat Punct.comma
  when (!comma) do
    let another ← atField
    when another (report .fieldSeparator)

/-- One field with its comma, or text that is none; yields whether the list goes on. -/
def fieldItem : Rule Nonterminal Bool := do
  let closed ← currentIs Punct.rbrace
  let ended ← atEnd
  if closed || ended then return false
  else
    let field ← atField
    let comma ← currentIs Punct.comma
    let recovered ← atRecoveryPoint
    if field then do
      fieldDecl
      fieldEnd
      return true
    else if comma then do
      skipToken .emptyField
      return true
    else if recovered then return false
    else do
      skipUntil .field [.punct .comma, .punct .rbrace]
      fieldEnd
      return true

/-- The fields in their braces; the node is there even if the braces are not. -/
def fieldList : Rule Nonterminal Unit := node .fieldList do
  let opener ← currentRange
  let opened ← expect Punct.lbrace
  when opened do
    within .sigBody (repeated fieldItem)
    ignore (expectCloser Punct.rbrace opener)

def sigDecl : Rule Nonterminal Unit := node .sigDecl do
  repeated sigModifier
  ignore (expectToken Keyword.sigKw .missingSig none)
  ignore nameList
  let extended ← currentIn [.keyword .extendsKw, .keyword .inKw]
  when extended sigExt
  fieldList
  let brace ← currentIs Punct.lbrace
  when brace block

end RelLang.Grammar
