import RelLang.Kind.Token

/-!
# Contexts

The reader of a text keeps a stack of contexts. The innermost one says in a message
where a problem is; all of them together give the *follow tokens*, at which the
skipping of unaccepted text ends.
-/

namespace RelLang

/-- Where the reader is. -/
inductive Context where
  | topLevel | sigBody | block | parameterList | argumentList | parenthesized | expression
  | importTarget | scope | bounds | testExpectBody | testSuiteBody
  deriving DecidableEq, Repr

namespace Context

/-- A text begins at the top level. -/
instance : Inhabited Context := ⟨.topLevel⟩

def all : List Context :=
  [.topLevel, .sigBody, .block, .parameterList, .argumentList, .parenthesized, .expression,
   .importTarget, .scope, .bounds, .testExpectBody, .testSuiteBody]

def label : Context → String
  | .topLevel => "TopLevel"
  | .sigBody => "SigBody"
  | .block => "Block"
  | .parameterList => "ParameterList"
  | .argumentList => "ArgumentList"
  | .parenthesized => "Parenthesized"
  | .expression => "Expression"
  | .importTarget => "Import"
  | .scope => "Scope"
  | .bounds => "Bounds"
  | .testExpectBody => "TestExpectBody"
  | .testSuiteBody => "TestSuiteBody"

/-- Where the reader is, in words. -/
def describe : Context → String
  | .topLevel => "at top level"
  | .sigBody => "in sig body"
  | .block => "in block"
  | .parameterList => "in parameter list"
  | .argumentList => "in argument list"
  | .parenthesized => "in parentheses"
  | .expression => "in expression"
  | .importTarget => "in open statement"
  | .scope => "in scope"
  | .bounds => "in bounds"
  | .testExpectBody => "in test expect block"
  | .testSuiteBody => "in test suite"

/-- What may stand in the context, in words. -/
def expectation : Context → String
  | .topLevel => "a sig, pred, fun, fact, assert, command, or test"
  | .sigBody => "a field declaration (name: type)"
  | .block | .parenthesized | .expression => "an expression"
  | .parameterList => "a parameter (name: type)"
  | .argumentList => "an argument"
  | .importTarget => "a module name or file path"
  | .scope => "a number or typescope (e.g., 'exactly 3 Node')"
  | .bounds => "a bound (e.g., 'Node = `N0 + `N1')"
  | .testExpectBody => "a test (e.g., 'name: pred is sat')"
  | .testSuiteBody => "an example, assertion, or test expect block"

/-- The tokens that can begin a paragraph. -/
def paragraphStarts : List TokenKind :=
  [.keyword .moduleKw, .keyword .openKw, .keyword .sigKw, .keyword .abstractKw, .keyword .varKw,
   .keyword .predKw, .keyword .funKw, .keyword .factKw, .keyword .assertKw, .keyword .runKw,
   .keyword .checkKw, .keyword .testKw, .keyword .expectKw, .keyword .exampleKw,
   .keyword .instKw, .keyword .optionKw, .keyword .evalKw, .sexpr]

/-- The tokens that a reader in the context does not skip. -/
def follow : Context → List TokenKind
  | .topLevel => paragraphStarts
  | .sigBody => [.punct .comma, .punct .rbrace]
  | .block | .bounds | .testExpectBody | .testSuiteBody => [.punct .rbrace]
  | .parameterList => [.punct .comma, .punct .rparen, .punct .rbracket]
  | .argumentList => [.punct .comma, .punct .rbracket]
  | .parenthesized => [.punct .rparen]
  | .expression | .importTarget | .scope => []

/-- Inside braces. -/
def inBody : Context → Bool
  | .sigBody | .block | .bounds | .testExpectBody | .testSuiteBody => true
  | _ => false

end Context
end RelLang
