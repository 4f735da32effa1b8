import RelLang.Kind.Token
import RelLang.Text.Position

/-!
# Tokens

A token is a piece of the text with the kind it stands for and its place.
-/

namespace RelLang

/-- A piece of the text, the kind it stands for, and the offset of its first byte. -/
structure Token where
  kind : TokenKind
  text : String
  start : Nat
  deriving DecidableEq, Repr

namespace Token

/-- The bytes that the token takes up. -/
def range (t : Token) : ByteRange := .ofLength t.start t.text.utf8ByteSize

/-- The offset behind the last byte. -/
def stop (t : Token) : Nat := t.range.stop

/-- The token without its place. -/
def toPair (t : Token) : TokenKind × String := (t.kind, t.text)

end Token

/-- The text of a list of tokens. -/
def Token.joinText (ts : List Token) : String := String.join (ts.map (·.text))

/-- The offset behind the last token. -/
def Token.listStop (ts : List Token) : Nat := (ts.getLast?.map Token.stop).getD 0

end RelLang
