import RelLang.Rule

/-!
# Names

```text
Name         = IDENT
NameList     = Name (',' Name)*
QualName     = ('this' '/')? Segment ('/' Segment)*
QualNameList = QualName (',' QualName)*
```
-/

namespace RelLang.Grammar

open Rule

variable {ν : Type}

/-- `Name`; yields whether there is one. -/
def name : Rule ν Bool := do
  let present ← currentIs .ident
  if present then do
    tokenNode .name
    return true
  else do
    report .name
    return false

/-- A comma with a name behind it. -/
def atCommaName : Rule ν Bool := andAlso (currentIs Punct.comma) (nthIs 1 .ident)

/-- `NameList`; the node is there even if no name is. -/
def nameList : Rule ν Bool := node .nameList do
  let present ← name
  when present <| repeated do
    let more ← atCommaName
    when more do
      bump
      ignore name
    return more
  return present

/-- A qualified name starts here. -/
def atQualName : Rule ν Bool :=
  orElse (nthPasses 0 TokenKind.isNameSegment)
    (andAlso (currentIs Keyword.thisKw) (nthIs 1 Punct.slash))

/-- `QualName`; yields whether there is one. -/
def qualName : Rule ν Bool := do
  let present ← atQualName
  if present then node .qualName do
    let this ← currentIs Keyword.thisKw
    when this do
      bump
      bump
    let segment ← nthPasses 0 TokenKind.isNameSegment
    pick segment bump (report .nameAfterThis)
    repeated do
      let more ← andAlso (currentIs Punct.slash) (nthPasses 1 TokenKind.isNameSegment)
      when more do
        bump
        bump
      return more
    return true
  else do
    report .qualName
    return false

def qualNameList : Rule ν Unit := node .qualNameList do
  ignore qualName
  repeated do
    let more ← eat Punct.comma
    when more do
      ignore qualName
    return more

/-- A multiplicity of the given ones in a node of its own, if there is one. -/
def optionalMult (allowed : List TokenKind) : Rule ν Unit := do
  let present ← currentIn allowed
  when present (tokenNode .mult)

end RelLang.Grammar
