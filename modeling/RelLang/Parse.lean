import RelLang.Grammar.Module
import RelLang.Rule.Run
import RelLang.Token.Lexer

/-!
# Reading a text

A text is read as a module or as one expression. Reading never fails: it yields a
tree that holds every token of the text, and a list of diagnostics.
-/

namespace RelLang

/-- What a text is read as. -/
inductive Entry where
  | wholeModule
  | oneExpression
  deriving DecidableEq, Repr

namespace Entry

/-- The kind of the root of the tree. -/
def rootKind : Entry → NodeKind
  | .wholeModule => .sourceFile
  | .oneExpression => .exprRoot

/-- The rule for the whole text. -/
def rule : Entry → Rule Grammar.Nonterminal Unit
  | .wholeModule => Grammar.sourceFile
  | .oneExpression => Grammar.exprRoot

end Entry

/-- How deep expressions are read. -/
def nestingLimit : Nat := 256

/-- The name behind `#lang`, if the token is a language line. -/
def languageName? (kind : TokenKind) (text : String) : Option String :=
  if kind = .langLine then some (String.ofList (Text.trim (text.toList.drop "#lang".length)))
  else none

/-- The language of a text: of the first language line, if nothing but trivia is before it. -/
def languageOf (tokens : List (TokenKind × String)) : Option String :=
  (tokens.takeWhile (·.1.isTrivia)).findSome? fun t => languageName? t.1 t.2

/-- What reading a text yields. -/
structure Parse where
  tree : Tree
  /-- The reports in the order in which they were made, those of invalid tokens first. -/
  reports : List Report
  language : Option String
  /-- A loop of the grammar was cut off. -/
  stalled : Bool
  deriving Repr

namespace Parse

/-- What stays the same while the text of the tokens is read. -/
def setting (config : ParseConfig) (tokens : List Token) : Setting :=
  { stop := Token.listStop tokens, mode := config.temporal
    maxDiagnostics := config.maxDiagnostics }

/-- Where the reading of the tokens begins; the reports of invalid tokens are made at once. -/
def start (config : ParseConfig) (tokens : List Token) : State :=
  let (pending, words) := Word.split tokens
  let language := languageOf (tokens.map Token.toPair)
  let s : State :=
    { pending, words, left := tokens.length, temporal := config.admitsTemporal language }
  (tokens.filter (·.kind == .invalid)).foldl
    (fun s t => s.keep (setting config tokens) (Report.ofInvalid t)) s

/-- Reads a list of tokens. -/
def ofTokens (config : ParseConfig) (entry : Entry) (tokens : List Token) : Parse :=
  let setting := setting config tokens
  let enter := Grammar.language.enter setting nestingLimit
  let s := (entry.rule.run setting enter (start config tokens)).2.attachPending
  { tree := .node entry.rootKind s.siblings.reverse
    reports := s.reports.reverse
    language := languageOf (tokens.map Token.toPair)
    stalled := s.stalled }

/-- Reads a text. -/
def ofText (config : ParseConfig) (entry : Entry) (text : String) : Parse :=
  ofTokens config entry (tokenize text)

/-- The diagnostics by the place they are about; those about one place as they were made. -/
def errors (p : Parse) : List Diagnostic :=
  (p.reports.map Report.toDiagnostic).mergeSort fun d e => d.range.start ≤ e.range.start

/-- There is nothing to say about the text. -/
def ok (p : Parse) : Bool := p.reports.isEmpty

/-- The text ended before a construct was complete. -/
def hasFatal (p : Parse) : Bool := p.errors.any (·.fatal)

/-- The diagnostics of a class. -/
def errorsOfKind (p : Parse) (kind : DiagnosticClass) : List Diagnostic :=
  p.errors.filter (·.kind == kind)

/-- The first fatal diagnostic stands for the failure of the whole reading. -/
def failure? (p : Parse) : Option Diagnostic := p.errors.find? (·.fatal)

/-- The failure in words. -/
def failureMessage (d : Diagnostic) : String := "parse failed: " ++ d.summary

end Parse
end RelLang
