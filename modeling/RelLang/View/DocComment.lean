import RelLang.View.Located
import RelLang.Text.Blank

/-!
# Doc comments

The comments right above a node: line comments on the lines above it, up to a blank
line, a block comment, or something that is no comment.
-/

namespace RelLang.DocComment

open Text

/-- The text of a line comment without its first two characters and without blanks around. -/
def lineContent (text : String) : List Char := trim (text.toList.drop 2)

/-- One line of a block comment, without blanks around and without a star in front. -/
def blockLine (line : List Char) : List Char :=
  match trim line with
  | '*' :: rest => trimLeft rest
  | rest => rest

/-- The text of a block comment without its delimiters, line by line, without blank lines. -/
def blockContent (text : String) : List Char :=
  let inner := (text.toList.drop 2).dropLast.dropLast
  ['\n'].intercalate (((splitOn '\n' inner).map blockLine).filter (!·.isEmpty))

/-- More than one newline: there is a blank line between what is before and behind. -/
def isBlankLine (text : String) : Bool := 1 < text.toList.count '\n'

/-- The comments among the siblings in front of a node, the nearest first. -/
def collect : List Tree → List (List Char)
  | .token .whitespace text :: rest => if isBlankLine text then [] else collect rest
  | .token .lineComment text :: rest => lineContent text :: collect rest
  | .token .blockComment text :: _ => [blockContent text]
  | _ => []

end DocComment

/-- The doc comment of a node: the comments right above it that are not empty, one a line. -/
def Located.docComment? (n : Located) : Option String :=
  match (DocComment.collect n.before).filter (!·.isEmpty) with
  | [] => none
  | comments => some (String.ofList (['\n'].intercalate comments.reverse))

end RelLang
