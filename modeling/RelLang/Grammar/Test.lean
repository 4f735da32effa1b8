import RelLang.Grammar.Assertion

/-!
# Tests and examples

```text
TestDecl       = (Name ':')? (QualName | Block)? Scope? ('for' Bounds)? 'is' Result
TestExpectDecl = 'test'? 'expect' Name? '{' TestDecl* '}'
TestSuiteDecl  = 'test' 'suite' 'for' Name '{' SuiteItem* '}'
SuiteItem      = ExampleDecl | TestExpectDecl | an assertion that is no AssertDecl
ExampleDecl    = 'example' Name 'is' Expr 'for' Bounds
Result         = 'sat' | 'unsat' | 'theorem' | 'forge_error' FILE_PATH?
```
-/

namespace RelLang.Grammar

open Rule

def testResult : Rule Nonterminal Unit := do
  let plain ← currentIn [.keyword .satKw, .keyword .unsatKw, .keyword .theoremKw]
  let failing ← currentIs Keyword.forgeErrorKw
  if plain then bump
  else if failing then do
    bump
    ignore (eat .filePath)
  else report .testResult

def testDecl : Rule Nonterminal Unit := node .testDecl do
  let labelled ← andAlso (currentIs .ident) (nthIs 1 Punct.colon)
  when labelled do
    ignore name
    bump
  optionalTarget
  scopeAndBounds
  ignore (expect Keyword.isKw)
  testResult

/-- Items in braces; the node is there even if the braces are not. -/
def testBlock (context : Context) (item : Rule Nonterminal Unit) : Rule Nonterminal Unit :=
  node .testBlock do
    let opener ← currentRange
    let opened ← expect Punct.lbrace
    when opened do
      within context (items .rbrace .noTestConstruct item)
      ignore (expectCloser Punct.rbrace opener)

/-- An item of a test block. -/
def testItem : Rule Nonterminal Unit := do
  let present ← orElse (currentIs Punct.lbrace) atQualName
  when present testDecl

def testExpectDecl : Rule Nonterminal Unit := node .testExpectDecl do
  ignore (eat Keyword.testKw)
  ignore (expect Keyword.expectKw)
  let named ← currentIs .ident
  when named (ignore name)
  testBlock .testExpectBody testItem

def exampleDecl : Rule Nonterminal Unit := node .exampleDecl do
  bump
  ignore name
  ignore (expect Keyword.isKw)
  ignore expr
  ignore (expect Keyword.forKw)
  bounds

def suiteItem : Rule Nonterminal Unit := do
  let first ← peek 0
  let second ← peek 1
  match first with
  | some (.keyword .exampleKw) => exampleDecl
  | some (.keyword .expectKw) => testExpectDecl
  | some (.keyword .assertKw) => do
    let admitted ← assertion
    when (!admitted) (report .assertionInSuite)
  | _ =>
    if first == some (.keyword .testKw) && second == some (.keyword .expectKw) then testExpectDecl
    else do
      let recovered ← atRecoveryPoint
      when (!recovered) (skipToken .suiteItem)

def testSuiteDecl : Rule Nonterminal Unit := node .testSuiteDecl do
  bump
  bump
  ignore (expect Keyword.forKw)
  ignore name
  testBlock .testSuiteBody suiteItem

end RelLang.Grammar
