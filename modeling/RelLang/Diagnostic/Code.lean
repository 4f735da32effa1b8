/-!
# Codes of diagnostics

Every diagnostic carries a code. A code has a number, whose hundreds tell the part of
the language it is about, and belongs to a class that tells how the problem was found.
-/

namespace RelLang

/-- How a problem was found. -/
inductive DiagnosticClass where
  /-- The text could not be cut into tokens. -/
  | lexical
  /-- A token stands where the grammar has another. -/
  | grammatical
  /-- The next tokens did not select an alternative. -/
  | ambiguity
  /-- The construct is well formed but not allowed where it stands. -/
  | failedPredicate
  deriving DecidableEq, Repr

namespace DiagnosticClass

def all : List DiagnosticClass := [.lexical, .grammatical, .ambiguity, .failedPredicate]

def label : DiagnosticClass → String
  | .lexical => "Lexical"
  | .grammatical => "Syntax"
  | .ambiguity => "Ambiguity"
  | .failedPredicate => "FailedPredicate"

/-- The class in words. -/
def describe : DiagnosticClass → String
  | .lexical => "lexical error"
  | .grammatical => "syntax error"
  | .ambiguity => "ambiguity"
  | .failedPredicate => "failed predicate"

end DiagnosticClass

/-- The problems that a diagnostic can be about. -/
inductive Code where
  /-- A character that starts no token. -/
  | invalidCharacter
  /-- A quoted path whose line ends before its quote. -/
  | unterminatedPath
  /-- A block comment that runs off the end. -/
  | unterminatedComment
  /-- An s-expression that runs off the end. -/
  | unterminatedSexpr
  /-- A backtick without a name behind it. -/
  | missingAtomName
  /-- A missing closing brace. -/
  | missingBrace
  /-- A missing closing parenthesis. -/
  | missingParen
  /-- A missing closing bracket. -/
  | missingBracket
  /-- A closing delimiter that closes nothing. -/
  | strayCloser
  /-- A missing token of a given kind. -/
  | missingToken
  /-- A token in front of the expected one. -/
  | strayToken
  /-- A missing name. -/
  | missingName
  /-- No `sig` behind the modifiers of a signature. -/
  | missingSig
  /-- A field that is no field. -/
  | malformedField
  /-- A token that starts no paragraph. -/
  | noParagraph
  /-- A declaration without its colon. -/
  | missingColon
  /-- A declaration without its block. -/
  | missingBlock
  /-- A keyword that is no multiplicity here. -/
  | invalidMultiplicity
  /-- A missing expression. -/
  | missingExpression
  /-- An operator without its operand. -/
  | missingOperand
  /-- An operator in a place that has none. -/
  | misplacedOperator
  /-- Arguments without a closing bracket. -/
  | unclosedBoxJoin
  /-- Leading tokens that select no alternative. -/
  | noAlternative
  /-- Text behind a complete expression. -/
  | trailingInput
  /-- An import of nothing. -/
  | malformedImport
  /-- A module declaration without a name. -/
  | missingModuleName
  /-- An option without a value. -/
  | invalidOption
  /-- A scope without a number. -/
  | malformedScope
  /-- A typescope without a number. -/
  | malformedTypescope
  /-- A bound that is no bound. -/
  | malformedBound
  /-- A bound without a value. -/
  | malformedBoundValue
  /-- A test without an expected result. -/
  | invalidTestResult
  /-- An assertion of no known form. -/
  | malformedAssertion
  /-- A token that starts no test. -/
  | noTestConstruct
  /-- A temporal construct in a text that admits none. -/
  | temporalDisabled
  /-- An import behind a paragraph. -/
  | lateImport
  /-- An evaluation beside other paragraphs. -/
  | mixedEval
  /-- An expression past the nesting limit. -/
  | tooDeep
  /-- A token that does not fit where it stands. -/
  | unexpectedToken
  /-- A text that ends inside a construct. -/
  | unexpectedEnd
  deriving DecidableEq, Repr

namespace Code

/-- The number of the code. -/
def number : Code → Nat
  | .invalidCharacter => 101
  | .unterminatedPath => 102
  | .unterminatedComment => 103
  | .unterminatedSexpr => 104
  | .missingAtomName => 105
  | .missingBrace => 201
  | .missingParen => 202
  | .missingBracket => 203
  | .strayCloser => 204
  | .missingToken => 205
  | .strayToken => 206
  | .missingName => 301
  | .missingSig => 302
  | .malformedField => 303
  | .noParagraph => 304
  | .missingColon => 305
  | .missingBlock => 306
  | .invalidMultiplicity => 307
  | .missingExpression => 401
  | .missingOperand => 402
  | .misplacedOperator => 403
  | .unclosedBoxJoin => 404
  | .noAlternative => 405
  | .trailingInput => 406
  | .malformedImport => 501
  | .missingModuleName => 502
  | .invalidOption => 503
  | .malformedScope => 601
  | .malformedTypescope => 602
  | .malformedBound => 603
  | .malformedBoundValue => 604
  | .invalidTestResult => 701
  | .malformedAssertion => 702
  | .noTestConstruct => 703
  | .temporalDisabled => 801
  | .lateImport => 802
  | .mixedEval => 803
  | .tooDeep => 804
  | .unexpectedToken => 901
  | .unexpectedEnd => 902

/-- Every code, by number. -/
def all : List Code :=
  [.invalidCharacter, .unterminatedPath, .unterminatedComment, .unterminatedSexpr,
   .missingAtomName, .missingBrace, .missingParen, .missingBracket, .strayCloser, .missingToken,
   .strayToken, .missingName, .missingSig, .malformedField, .noParagraph, .missingColon,
   .missingBlock, .invalidMultiplicity, .missingExpression, .missingOperand, .misplacedOperator,
   .unclosedBoxJoin, .noAlternative, .trailingInput, .malformedImport, .missingModuleName,
   .invalidOption, .malformedScope, .malformedTypescope, .malformedBound, .malformedBoundValue,
   .invalidTestResult, .malformedAssertion, .noTestConstruct, .temporalDisabled, .lateImport,
   .mixedEval, .tooDeep, .unexpectedToken, .unexpectedEnd]

theorem mem_all (c : Code) : c ∈ all := by cases c <;> decide

theorem find?_number (c : Code) : all.find? (·.number == c.number) = some c := by
  cases c <;> decide

/-- Different codes have different numbers. -/
theorem number_injective {c d : Code} (h : c.number = d.number) : c = d := by
  have hc := find?_number c
  rw [h, find?_number d] at hc
  exact (Option.some.inj hc).symm

/-- The code as it is written: the letter E and four digits. -/
def label (c : Code) : String := "E0" ++ toString c.number

/-- The code that is written so. -/
def ofLabel? (text : String) : Option Code := all.find? (·.label == text)

/-- The part of the language that the code is about, by the hundreds of its number. -/
def category (c : Code) : String :=
  match c.number / 100 with
  | 1 => "lexical error"
  | 2 => "structural error"
  | 3 => "declaration error"
  | 4 => "expression error"
  | 5 => "module error"
  | 6 => "scope error"
  | 7 => "test error"
  | 8 => "context error"
  | _ => "syntax error"

/-- What the code says when nothing more is known. -/
def defaultMessage : Code → String
  | .invalidCharacter => "invalid character"
  | .unterminatedPath => "unterminated file path"
  | .unterminatedComment => "unterminated block comment"
  | .unterminatedSexpr => "unterminated s-expression"
  | .missingAtomName => "expected atom name after '`'"
  | .missingBrace => "expected '\x7d'"
  | .missingParen => "expected ')'"
  | .missingBracket => "expected ']'"
  | .strayCloser => "unexpected closing delimiter"
  | .missingToken => "expected token"
  | .strayToken => "unexpected token"
  | .missingName => "expected name"
  | .missingSig => "expected 'sig'"
  | .malformedField => "invalid field declaration"
  | .noParagraph => "expected a paragraph"
  | .missingColon => "expected ':'"
  | .missingBlock => "expected block"
  | .invalidMultiplicity => "invalid multiplicity"
  | .missingExpression => "expected expression"
  | .missingOperand => "missing operand"
  | .misplacedOperator => "invalid operator"
  | .unclosedBoxJoin => "unclosed box join"
  | .noAlternative => "ambiguous input"
  | .trailingInput => "unexpected input after expression"
  | .malformedImport => "invalid import"
  | .missingModuleName => "expected module name"
  | .invalidOption => "invalid option value"
  | .malformedScope => "invalid scope"
  | .malformedTypescope => "invalid typescope"
  | .malformedBound => "invalid bound"
  | .malformedBoundValue => "invalid bound value"
  | .invalidTestResult => "invalid test result"
  | .malformedAssertion => "invalid assertion"
  | .noTestConstruct => "expected a test construct"
  | .temporalDisabled => "temporal operators are not enabled"
  | .lateImport => "imports must come before paragraphs"
  | .mixedEval => "eval cannot be mixed with other paragraphs"
  | .tooDeep => "expression nested too deeply"
  | .unexpectedToken => "unexpected token"
  | .unexpectedEnd => "unexpected end of input"

/-- The class that the code belongs to. -/
def toClass : Code → DiagnosticClass
  | .invalidCharacter | .unterminatedPath | .unterminatedComment | .unterminatedSexpr
  | .missingAtomName => .lexical
  | .noParagraph | .noAlternative | .malformedAssertion => .ambiguity
  | .temporalDisabled | .lateImport | .mixedEval | .tooDeep => .failedPredicate
  | _ => .grammatical

/-- About delimiters and stray tokens. -/
def isStructural (c : Code) : Bool := c.number / 100 == 2

/-- The reading can go on behind the problem. -/
def isRecoverable (c : Code) : Bool := c != .unexpectedEnd

end Code
end RelLang
