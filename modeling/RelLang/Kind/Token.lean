import RelLang.Kind.Keyword
import RelLang.Kind.Punct

/-!
# Token kinds

What a token stands for. Blanks, comments and the language line are *trivia*; a
stretch of text that is no token at all is *invalid*. Every other token is
*significant*: the grammar sees only those.
-/

namespace RelLang

/-- The kinds of tokens. -/
inductive TokenKind where
  | whitespace | lineComment | blockComment | langLine
  | ident | number | filePath | atomName | sexpr
  | punct (p : Punct)
  | keyword (k : Keyword)
  | invalid
  deriving DecidableEq, Repr

instance : Coe Punct TokenKind := ⟨.punct⟩
instance : Coe Keyword TokenKind := ⟨.keyword⟩

namespace TokenKind

/-- Kept in the tree, and without meaning for the grammar. -/
def isTrivia : TokenKind → Bool
  | .whitespace | .lineComment | .blockComment | .langLine => true
  | _ => false

/-- Seen by the grammar. -/
def isSignificant (k : TokenKind) : Bool := !k.isTrivia && k != .invalid

def isKeyword : TokenKind → Bool
  | .keyword _ => true
  | _ => false

def isPunct : TokenKind → Bool
  | .punct _ => true
  | _ => false

def isLiteral : TokenKind → Bool
  | .ident | .number | .filePath | .atomName | .sexpr => true
  | _ => false

/-- Usable as a segment of a qualified name, as in `util/ordering` or `Int`. -/
def isNameSegment : TokenKind → Bool
  | .ident | .keyword .intKw | .keyword .seqKw => true
  | _ => false

def isOpener : TokenKind → Bool
  | .punct p => p.isOpener
  | _ => false

def isCloser : TokenKind → Bool
  | .punct p => p.isCloser
  | _ => false

def label : TokenKind → String
  | .whitespace => "WHITESPACE"
  | .lineComment => "LINE_COMMENT"
  | .blockComment => "BLOCK_COMMENT"
  | .langLine => "LANG_DECL"
  | .ident => "IDENT"
  | .number => "NUMBER"
  | .filePath => "FILE_PATH"
  | .atomName => "ATOM_NAME"
  | .sexpr => "SEXPR"
  | .punct p => p.label
  | .keyword k => k.spelling.toUpper ++ "_KW"
  | .invalid => "ERROR"

/-- What a diagnostic calls a token of this kind; fixed spellings stand in quotes. -/
def describe : TokenKind → String
  | .whitespace => "whitespace"
  | .lineComment | .blockComment => "comment"
  | .langLine => "language declaration"
  | .ident => "identifier"
  | .number => "number"
  | .filePath => "file path"
  | .atomName => "atom name"
  | .sexpr => "s-expression"
  | .punct p => "'" ++ p.spelling ++ "'"
  | .keyword k => "'" ++ k.spelling ++ "'"
  | .invalid => "error"

/-- Every kind of token, `invalid` apart, in the order of the kind numbering. -/
def all : List TokenKind :=
  [.whitespace, .lineComment, .blockComment, .langLine, .ident, .number, .filePath, .atomName,
   .sexpr] ++ Punct.all.map .punct ++ Keyword.all.map .keyword

end TokenKind
end RelLang
