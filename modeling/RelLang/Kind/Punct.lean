/-!
# Punctuation

The punctuation marks, their spellings, and the longest mark at the front of a text.
-/

namespace RelLang

/-- The punctuation marks, in the order of the kind numbering. -/
inductive Punct where
  | lbrace | rbrace | lbracket | rbracket | lparen | rparen | comma | colon | slash | dot
  | atSign | prime | bar | hash | plus | minus | plusPlus | amp | arrow | domainRestrict
  | rangeRestrict | tilde | caret | star | eq | lt | gt | le | ge | bang | fatArrow | iffArrow
  | ampAmp | barBar
  deriving DecidableEq, Repr

namespace Punct

/-- The mark as it is written; `<=` may also be written `=<`. -/
def spelling : Punct → String
  | .lbrace => "\x7b"
  | .rbrace => "\x7d"
  | .lbracket => "["
  | .rbracket => "]"
  | .lparen => "("
  | .rparen => ")"
  | .comma => ","
  | .colon => ":"
  | .slash => "/"
  | .dot => "."
  | .atSign => "@"
  | .prime => "'"
  | .bar => "|"
  | .hash => "#"
  | .plus => "+"
  | .minus => "-"
  | .plusPlus => "++"
  | .amp => "&"
  | .arrow => "->"
  | .domainRestrict => "<:"
  | .rangeRestrict => ":>"
  | .tilde => "~"
  | .caret => "^"
  | .star => "*"
  | .eq => "="
  | .lt => "<"
  | .gt => ">"
  | .le => "<="
  | .ge => ">="
  | .bang => "!"
  | .fatArrow => "=>"
  | .iffArrow => "<=>"
  | .ampAmp => "&&"
  | .barBar => "||"

def label : Punct → String
  | .lbrace => "L_BRACE"
  | .rbrace => "R_BRACE"
  | .lbracket => "L_BRACKET"
  | .rbracket => "R_BRACKET"
  | .lparen => "L_PAREN"
  | .rparen => "R_PAREN"
  | .comma => "COMMA"
  | .colon => "COLON"
  | .slash => "SLASH"
  | .dot => "DOT"
  | .atSign => "AT"
  | .prime => "PRIME"
  | .bar => "BAR"
  | .hash => "HASH"
  | .plus => "PLUS"
  | .minus => "MINUS"
  | .plusPlus => "PLUS_PLUS"
  | .amp => "AMP"
  | .arrow => "ARROW"
  | .domainRestrict => "SUBT"
  | .rangeRestrict => "SUPT"
  | .tilde => "TILDE"
  | .caret => "CARET"
  | .star => "STAR"
  | .eq => "EQ"
  | .lt => "LT"
  | .gt => "GT"
  | .le => "LT_EQ"
  | .ge => "GT_EQ"
  | .bang => "BANG"
  | .fatArrow => "FAT_ARROW"
  | .iffArrow => "IFF_ARROW"
  | .ampAmp => "AMP_AMP"
  | .barBar => "PIPE_PIPE"

/-- Every mark, in the order of the kind numbering. -/
def all : List Punct :=
  [.lbrace, .rbrace, .lbracket, .rbracket, .lparen, .rparen, .comma, .colon, .slash, .dot,
   .atSign, .prime, .bar, .hash, .plus, .minus, .plusPlus, .amp, .arrow, .domainRestrict,
   .rangeRestrict, .tilde, .caret, .star, .eq, .lt, .gt, .le, .ge, .bang, .fatArrow, .iffArrow,
   .ampAmp, .barBar]

theorem mem_all (p : Punct) : p ∈ all := by cases p <;> decide

/-- Opens a group that a later mark has to close. -/
def isOpener : Punct → Bool
  | .lparen | .lbracket | .lbrace => true
  | _ => false

/-- Closes a group. -/
def isCloser : Punct → Bool
  | .rparen | .rbracket | .rbrace => true
  | _ => false

/-- Every way to write a mark, longer spellings before shorter ones. -/
def spellings : List (List Char × Punct) :=
  [(['<', '=', '>'], .iffArrow),
   (['=', '>'], .fatArrow), (['<', '='], .le), (['=', '<'], .le), (['>', '='], .ge),
   (['-', '>'], .arrow), (['<', ':'], .domainRestrict), ([':', '>'], .rangeRestrict),
   (['+', '+'], .plusPlus), (['&', '&'], .ampAmp), (['|', '|'], .barBar),
   (['{'], .lbrace), (['}'], .rbrace), (['['], .lbracket), ([']'], .rbracket),
   (['('], .lparen), ([')'], .rparen), ([','], .comma), ([':'], .colon), (['/'], .slash),
   (['.'], .dot), (['@'], .atSign), (['\x27'], .prime), (['|'], .bar), (['#'], .hash),
   (['+'], .plus), (['-'], .minus), (['&'], .amp), (['~'], .tilde), (['^'], .caret),
   (['*'], .star), (['='], .eq), (['<'], .lt), (['>'], .gt), (['!'], .bang)]

/-- The longest mark at the front of a text, with its characters. -/
def longest? (text : List Char) : Option (List Char × Punct) :=
  spellings.find? (·.1.isPrefixOf text)

/-- A mark that is found stands at the front of the text and is not empty. -/
theorem longest?_eq_some {text cs : List Char} {p : Punct} (h : longest? text = some (cs, p)) :
    cs ≠ [] ∧ cs <+: text := by
  have hp := List.find?_some h
  have hne : ∀ e ∈ spellings, e.1 ≠ [] := by decide
  exact ⟨hne _ (List.mem_of_find?_eq_some h), List.isPrefixOf_iff_prefix.1 hp⟩

end Punct
end RelLang
