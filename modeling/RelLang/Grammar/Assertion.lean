import RelLang.Grammar.Command
import RelLang.Grammar.Expression

/-!
# Assertions

```text
AssertDecl             = 'assert' Name? Block
PropertyDecl           = 'assert' Expr 'is' Property 'for' Name Scope? ('for' Bounds)?
QuantifiedPropertyDecl = 'assert' 'all' QuantDecl (',' QuantDecl)* BinderBody 'is' Property
                         'for' Name ('[' (Expr (',' Expr)*)? ']')? Scope? ('for' Bounds)?
SatisfiabilityDecl     = 'assert' Expr 'is' Result Scope? ('for' Bounds)?
ConsistencyDecl        = 'assert' Expr 'is' ('consistent' | 'inconsistent') 'with' Name
                         Scope? ('for' Bounds)?
Property               = 'sufficient' | 'necessary'
Result                 = 'sat' | 'unsat' | 'theorem' | 'forge_error' FILE_PATH?
```

All forms begin alike, so the asserted expression is read first, and the word behind
`is` tells which form it is.
-/

namespace RelLang.Grammar

open Rule

/-- The forms of assertions with a word behind `is`. -/
inductive AssertionForm where
  | property | quantifiedProperty | satisfiability | consistency
  deriving DecidableEq, Repr

namespace AssertionForm

/-- The form that the word behind `is` tells. -/
def ofTag? (quantified : Bool) : TokenKind → Option AssertionForm
  | .keyword .sufficientKw | .keyword .necessaryKw =>
    some (if quantified then .quantifiedProperty else .property)
  | .keyword .satKw | .keyword .unsatKw | .keyword .theoremKw | .keyword .forgeErrorKw =>
    some .satisfiability
  | .keyword .consistentKw | .keyword .inconsistentKw => some .consistency
  | _ => none

def node : AssertionForm → NodeKind
  | .property => .propertyDecl
  | .quantifiedProperty => .quantifiedPropertyDecl
  | .satisfiability => .satisfiabilityDecl
  | .consistency => .consistencyDecl

end AssertionForm

/-- The arguments of the predicate of a quantified property, in brackets. -/
def optionalArguments : Rule Nonterminal Unit := do
  let present ← currentIs Punct.lbracket
  when present do
    let opener ← currentRange
    bump
    arguments
    ignore (expectCloser Punct.rbracket opener)

/-- The part of an assertion from its `is` on. -/
def assertionTail (form : AssertionForm) : Rule Nonterminal Unit := do
  bump
  let failing ← currentIs Keyword.forgeErrorKw
  bump
  match form with
  | .property => do
    ignore (expect Keyword.forKw)
    ignore name
    scopeAndBounds
  | .quantifiedProperty => do
    ignore (expect Keyword.forKw)
    ignore name
    optionalArguments
    scopeAndBounds
  | .satisfiability => do
    when failing do
      ignore (eat .filePath)
    scopeAndBounds
  | .consistency => do
    ignore (expect Keyword.withKw)
    ignore name
    scopeAndBounds

/-- What an assertion asserts. -/
inductive Asserted where
  /-- A block with nothing behind it that makes it one of the other forms. -/
  | plain
  /-- An expression. -/
  | expression
  /-- The declarations and the body of a quantified property, side by side. -/
  | quantified
  deriving DecidableEq, Repr

/-- `is sufficient` or `is necessary` stands here. -/
def atProperty : Rule Nonterminal Bool :=
  andAlso (currentIs Keyword.isKw)
    (nthPasses 1 [.keyword .sufficientKw, .keyword .necessaryKw].contains)

/-- What stands between `assert` and the word `is`. -/
def asserted : Rule Nonterminal Asserted := do
  let named ← andAlso (currentIs .ident) (nthIs 1 Punct.lbrace)
  let brace ← currentIs Punct.lbrace
  let all ← currentIs Keyword.allKw
  let declaration ← andAlso (return brace || all) (ahead declarationBehind)
  if named then do
    ignore name
    block
    return .plain
  else if brace && !declaration then do
    group do
      block
      extend 0
    let tagged ← currentIs Keyword.isKw
    return if tagged then .expression else .plain
  else if all && declaration then group do
    bump
    quantDecls
    binderBody
    let property ← atProperty
    if property then return .quantified
    else do
      enclose .quantExpr (return ())
      return .expression
  else do
    ignore expr
    return .expression

/-- An assertion; yields whether it is of another form than `AssertDecl`. A malformed one, which
is reported, counts as such. -/
def assertion : Rule Nonterminal Bool := group do
  bump
  let body ← asserted
  if body == .plain then do
    enclose .assertDecl (return ())
    return false
  else
    let tagged ← currentIs Keyword.isKw
    let tag ← peek 1
    match if tagged then tag.bind (AssertionForm.ofTag? (body == .quantified)) else none with
    | some form => do
      enclose form.node (assertionTail form)
      return true
    | none => do
      enclose .assertDecl (report .assertionTag)
      return true

end RelLang.Grammar
