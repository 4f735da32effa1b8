import RelLang.Grammar.Predicate
import RelLang.Rule.Run
import RelLang.Grammar.Signature
import RelLang.Grammar.Test

/-!
# Modules

```text
SourceFile = ModuleDecl? ImportDecl* Paragraph* | EvalDecl*
ModuleDecl = 'module' QualName ('[' NameList ']')?
ImportDecl = 'open' (QualName ('[' QualNameList ']')? | FILE_PATH) ('as' Name)?
OptionDecl = 'option' QualName (QualName | FILE_PATH | '-'? NUMBER)
EvalDecl   = 'eval' Expr
SExprDecl  = SEXPR
```

A module reads declarations in any order; that they stand in the order above, and
that evaluations stand alone, is checked while they are read.
-/

namespace RelLang.Grammar

open Rule

def moduleDecl : Rule Nonterminal Unit := node .moduleDecl do
  bump
  let named ← atQualName
  pick named (ignore qualName) (report .moduleName)
  let bracket ← currentIs Punct.lbracket
  when bracket do
    let opener ← currentRange
    bump
    ignore nameList
    ignore (expectCloser Punct.rbracket opener)

/-- The module or the file that is imported. -/
def importTarget : Rule Nonterminal Unit := do
  let named ← atQualName
  let path ← currentIs .filePath
  if named then do
    ignore qualName
    let bracket ← currentIs Punct.lbracket
    when bracket do
      let opener ← currentRange
      bump
      qualNameList
      ignore (expectCloser Punct.rbracket opener)
  else if path then bump
  else report .importTarget

def importDecl : Rule Nonterminal Unit := node .importDecl <| within .importTarget do
  bump
  importTarget
  let renamed ← eat Keyword.asKw
  when renamed (ignore name)

/-- The value of an option. -/
def optionValue : Rule Nonterminal Unit := do
  let first ← peek 0
  let second ← peek 1
  let named ← atQualName
  if first == some .filePath || first == some .number then bump
  else if first == some (.punct .minus) && second == some .number then do
    bump
    bump
  else if named then ignore qualName
  else report .optionValue

/-- `OptionDecl`; `option problem_type temporal` asks for temporal constructs. -/
def optionDecl : Rule Nonterminal Unit := node .optionDecl do
  bump
  let key ← currentText
  ignore qualName
  let value ← currentText
  optionValue
  when (key == "problem_type" && value == "temporal") admitTemporal

def evalDecl : Rule Nonterminal Unit := node .evalDecl do
  bump
  ignore expr

def sexprDecl : Rule Nonterminal Unit := tokenNode .sexprDecl

/-- What a paragraph begins with. -/
inductive ParagraphStart where
  | sig | pred | func | fact | assertion | command | testSuite | testExpect | exampleTest | inst
  | option | sexpr
  deriving DecidableEq, Repr

/-- What three tokens begin. -/
def ParagraphStart.ofTokens? (first second third : Option TokenKind) : Option ParagraphStart :=
  match first with
  | some (.keyword .predKw) => some .pred
  | some (.keyword .funKw) => some .func
  | some (.keyword .factKw) => some .fact
  | some (.keyword .assertKw) => some .assertion
  | some (.keyword .runKw) | some (.keyword .checkKw) => some .command
  | some .ident =>
    if second == some (.punct .colon)
        && (third == some (.keyword .runKw) || third == some (.keyword .checkKw))
    then some .command else none
  | some (.keyword .testKw) =>
    if second == some (.keyword .suiteKw) then some .testSuite
    else if second == some (.keyword .expectKw) then some .testExpect
    else none
  | some (.keyword .expectKw) => some .testExpect
  | some (.keyword .exampleKw) => some .exampleTest
  | some (.keyword .instKw) => some .inst
  | some (.keyword .optionKw) => some .option
  | some .sexpr => some .sexpr
  | some (.keyword .sigKw) | some (.keyword .abstractKw) | some (.keyword .varKw) => some .sig
  | some k => if Operator.sigMultiplicities.contains k then some .sig else none
  | none => none

/-- The paragraph behind a beginning. -/
def ParagraphStart.rule : ParagraphStart → Rule Nonterminal Unit
  | .sig => sigDecl
  | .pred => predDecl
  | .func => funDecl
  | .fact => factDecl
  | .assertion => do
    ignore Grammar.assertion
  | .command => cmdDecl
  | .testSuite => testSuiteDecl
  | .testExpect => testExpectDecl
  | .exampleTest => exampleDecl
  | .inst => instDecl
  | .option => optionDecl
  | .sexpr => sexprDecl

/-- What has been read of a module. -/
structure Seen where
  paragraph : Bool := false
  eval : Bool := false
  /-- Evaluations beside other paragraphs have been reported. -/
  mixed : Bool := false
  deriving DecidableEq, Repr

/-- A declaration of a module, if one starts here. -/
def declaration (seen : Seen) : Rule Nonterminal Seen := do
  let first ← peek 0
  let second ← peek 1
  let third ← peek 2
  match first with
  | some (.keyword .moduleKw) => do
    report .lateModule
    moduleDecl
    return seen
  | some (.keyword .openKw) => do
    when seen.paragraph (report .lateImport)
    importDecl
    return seen
  | some (.keyword .evalKw) => do
    let mixes := seen.paragraph && !seen.mixed
    when mixes (report .evalAmongParagraphs)
    evalDecl
    return { seen with eval := true, mixed := seen.mixed || mixes }
  | _ =>
    match ParagraphStart.ofTokens? first second third with
    | some form => do
      let mixes := seen.eval && !seen.mixed
      when mixes (report .paragraphAfterEval)
      form.rule
      return { seen with paragraph := true, mixed := seen.mixed || mixes }
    | none => return seen

/-- A declaration of a module, or text that is none; yields whether the module goes on. -/
def moduleItem (seen : Seen) : Rule Nonterminal (Seen × Bool) := do
  let ended ← atEnd
  if ended then return (seen, false)
  else
    let (seen, moved) ← progress (declaration seen)
    let ended ← atEnd
    when (!moved && !ended) (skipUntil .paragraph [])
    return (seen, true)

/-- `SourceFile`, all of the text. -/
def sourceFile : Rule Nonterminal Unit := do
  let first ← currentIs Keyword.moduleKw
  when first moduleDecl
  ignore (loop {} moduleItem)

/-- One expression and no text behind it. -/
def exprRoot : Rule Nonterminal Unit := within .expression do
  ignore expr
  let ended ← atEnd
  when (!ended) do
    report .afterExpression
    node .error <| repeated do
      let ended ← atEnd
      when (!ended) bump
      return !ended

/-- The grammar of the language. -/
def language : Grammar Nonterminal where
  body
    | .expression level => expression level
    | .boundGroup => boundGroup
  beyond
    | .expression _ => expressionTooDeep
    | .boundGroup => boundGroupTooDeep

end RelLang.Grammar
