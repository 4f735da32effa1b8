import RelLang.Grammar.Nonterminal

/-!
# Bounds

```text
Bounds         = 'exactly'? ('{' Bound* '}' | QualName)
Bound          = BoundLhs CompareOp BindRhsUnion | 'no' BoundLhs | QualName
BoundLhs       = '#'? QualName ('.' QualName)*
BindRhsUnion   = BindRhsProduct ('+' BindRhsProduct)*
BindRhsProduct = BindRhsAtom (('->' | ',') BindRhsAtom)*
BindRhsAtom    = ATOM_NAME | '-'? NUMBER | 'none' | QualName | '(' BindRhsUnion ')'
```
-/

namespace RelLang.Grammar

open Rule

/-- The relations between the sides of a bound. -/
def boundOperators : List TokenKind :=
  [.keyword .inKw, .keyword .isKw, .punct .eq, .keyword .niKw, .punct .lt, .punct .gt, .punct .le,
   .punct .ge]

/-- Begins a bound value that is no name. -/
def startsPlainValue : TokenKind → Bool
  | .atomName | .number | .punct .minus | .keyword .noneKw | .punct .lparen => true
  | _ => false

/-- A comma that continues a tuple: a value is behind it that does not begin the next bound. -/
def tupleCommaAhead (first second third : Option TokenKind) : Bool :=
  first == some (.punct .comma) && second.any fun k =>
    startsPlainValue k
      || (k.isNameSegment && third != some (.punct .dot) && !third.any boundOperators.contains)

/-- The forms of a bound value. -/
inductive BoundValueForm where
  | oneToken | negativeNumber | group | name
  deriving DecidableEq, Repr

/-- The form of the bound value that two tokens begin. -/
def BoundValueForm.ofTokens? (first second : Option TokenKind) : Option BoundValueForm :=
  match first with
  | some .atomName | some .number | some (.keyword .noneKw) => some .oneToken
  | some (.punct .minus) => if second == some .number then some .negativeNumber else none
  | some (.punct .lparen) => some .group
  | some .ident | some (.keyword .intKw) | some (.keyword .seqKw) => some .name
  | some (.keyword .thisKw) => if second == some (.punct .slash) then some .name else none
  | _ => none

/-- `BindRhsAtom`; the node is there even if no value is. -/
def boundValue : Rule Nonterminal Unit := node .bindRhsAtom do
  let first ← peek 0
  let second ← peek 1
  match BoundValueForm.ofTokens? first second with
  | some .oneToken => bump
  | some .negativeNumber => do
    bump
    bump
  | some .group => ignore (call .boundGroup)
  | some .name => ignore qualName
  | none => report .boundValue

def boundProduct : Rule Nonterminal Unit := node .bindRhsProduct do
  boundValue
  repeated do
    let first ← peek 0
    let second ← peek 1
    let third ← peek 2
    let more := first == some (.punct .arrow) || tupleCommaAhead first second third
    when more do
      bump
      boundValue
    return more

def boundUnion : Rule Nonterminal Unit := node .bindRhsUnion do
  boundProduct
  repeated do
    let more ← eat Punct.plus
    when more boundProduct
    return more

/-- `'(' BindRhsUnion ')'`. -/
def boundGroup : Rule Nonterminal Bool := do
  let opener ← currentRange
  bump
  boundUnion
  ignore (expectCloser Punct.rparen opener)
  return true

/-- A group of bound values past the last level. -/
def boundGroupTooDeep : Rule Empty Bool := do
  skipNested
  return true

/-- `BoundLhs`; yields whether it is a qualified name and nothing else. -/
def boundLhs : Rule Nonterminal Bool := node .boundLhs do
  let cardinality ← eat Punct.hash
  ignore qualName
  loop (!cardinality) fun simple => do
    let more ← andAlso (currentIs Punct.dot) (nthPasses 1 TokenKind.isNameSegment)
    when more do
      bump
      ignore qualName
    return (simple && !more, more)

def bound : Rule Nonterminal Unit := node .bound do
  let negative ← eat Keyword.noKw
  let simple ← boundLhs
  when (!negative) do
    let related ← currentIn boundOperators
    if related then do
      tokenNode .compareOp
      boundUnion
    else when (!simple) (report .boundOperator)

/-- A bound starts here. -/
def atBound : Rule Nonterminal Bool :=
  orElse (currentIn [.keyword .noKw, .punct .hash]) atQualName

def bounds : Rule Nonterminal Unit := node .bounds do
  ignore (eat Keyword.exactlyKw)
  let brace ← currentIs Punct.lbrace
  if brace then do
    let opener ← currentRange
    bump
    within .bounds <| items .rbrace .malformedBound do
      let present ← atBound
      when present bound
    ignore (expectCloser Punct.rbrace opener)
  else
    let named ← atQualName
    if named then ignore qualName
    else report .bounds

end RelLang.Grammar
