import RelLang.Diagnostic.Code
import RelLang.Diagnostic.Context
import RelLang.Text.Position

/-!
# Diagnostics

A diagnostic says what is wrong with a text and where. It may carry a hint and
notes that point at other places. A *fatal* one says that the text ended before a
construct was complete.
-/

namespace RelLang

/-- A remark about another place. -/
structure Note where
  message : String
  range : ByteRange
  deriving DecidableEq, Repr

/-- What is wrong with a text, and where. -/
structure Diagnostic where
  message : String
  range : ByteRange
  code : Code
  /-- The class of the code, unless it is set to another. -/
  kind : DiagnosticClass := code.toClass
  hint : Option String := none
  notes : List Note := []
  /-- The text ended before a construct was complete. -/
  fatal : Bool := false
  deriving DecidableEq, Repr

namespace Diagnostic

/-- A diagnostic at an offset, where nothing stands. -/
def atOffset (message : String) (offset : Nat) (code : Code) : Diagnostic :=
  { message, range := .empty offset, code }

/-- A token that does not fit into its context. -/
def outOfContext (found : String) (context : Context) (code : Code) (range : ByteRange) :
    Diagnostic :=
  { message := "unexpected " ++ found ++ " " ++ context.describe ++ ", expected "
      ++ context.expectation
    range, code }

def withHint (d : Diagnostic) (hint : String) : Diagnostic := { d with hint := some hint }
def withNote (d : Diagnostic) (note : Note) : Diagnostic := { d with notes := d.notes ++ [note] }
def withKind (d : Diagnostic) (kind : DiagnosticClass) : Diagnostic := { d with kind }
def asFatal (d : Diagnostic) : Diagnostic := { d with fatal := true }

/-- The diagnostic on one line. -/
def summary (d : Diagnostic) : String := d.code.label ++ ": " ++ d.message

/-- The diagnostic with its hint and its notes, each on a line of its own. -/
def render (d : Diagnostic) : String :=
  d.summary ++ (if d.fatal then " (fatal)" else "")
    ++ (match d.hint with | some hint => "\n  hint: " ++ hint | none => "")
    ++ String.join (d.notes.map fun note => "\n  note: " ++ note.message)

end Diagnostic
end RelLang
