import RelLang.Grammar.Nonterminal
import RelLang.Proofs.Tree.Bare

/-!
# Forms

The notation in which grammars are written down, as data. A form stands for the
trees that a piece of text may have. Unlike the notation of the grammar in comments
it also says where a choice depends on the tokens ahead, so that it leaves nothing
open: a text has at most the trees that are read from it.
-/

namespace RelLang

/-- What a piece of text may consist of. -/
inductive Form where
  | nothing
  /-- One token of one of the kinds. -/
  | token (kinds : List TokenKind)
  | seq (first second : Form)
  | either (first second : Form)
  /-- Any number of items. -/
  | many (item : Form)
  /-- A node around what the body stands for. -/
  | node (kind : NodeKind) (body : Form)
  /-- A nonterminal, one level deeper. -/
  | part (symbol : Grammar.Nonterminal)
  /-- What the kinds of the tokens ahead ask for. -/
  | ahead (choice : List TokenKind → Form)
  /-- An expression that begins with the head, extended by operators that are not looser than the
  level. -/
  | extended (level : Nat) (head : Form)

namespace Form

instance : Append Form := ⟨.seq⟩

/-- Stands for no text. -/
def never : Form := .token []

/-- One of two forms, as the tokens ahead ask for. -/
def given (test : List TokenKind → Bool) (yes no : Form) : Form :=
  .ahead fun ks => if test ks then yes else no

/-- Nothing, in front of tokens that pass. -/
def look (test : List TokenKind → Bool) : Form := given test .nothing never

/-- The form if the tokens ahead pass. -/
def ifAhead (test : List TokenKind → Bool) (form : Form) : Form := given test form .nothing

/-- Items for as long as the tokens ahead pass. -/
def whileAhead (test : List TokenKind → Bool) (item : Form) : Form :=
  .many (look test ++ item) ++ look fun ks => !test ks

/-- Forms one behind the other. -/
def row : List Form → Form
  | [] => .nothing
  | [form] => form
  | form :: forms => form ++ row forms

/-- One of some forms. -/
def anyOf (forms : List Form) : Form := forms.foldr .either never

/-- What is read for a value, if that is the value. -/
def yields {α : Type} [DecidableEq α] (a : α) (form : Form) (b : α) : Form :=
  if b = a then form else never

/-! ### Tokens ahead -/

/-- The current token is of a kind. -/
def at? (kind : TokenKind) (ks : List TokenKind) : Bool := ks[0]? == some kind

/-- The current token is of one of some kinds. -/
def atAny (kinds : List TokenKind) (ks : List TokenKind) : Bool := ks[0]?.any kinds.contains

/-- A token of a kind, if one is ahead. -/
def optional (kind : TokenKind) : Form := ifAhead (at? kind) (.token [kind])

/-- Items behind marks, for as long as a mark is ahead. -/
def separated (mark : Punct) (item : Form) : Form :=
  whileAhead (at? mark) (.token [.punct mark] ++ item)

end Form
end RelLang
