import RelLang.Kind.Token

/-!
# Looking ahead

What the kinds of the tokens ahead say about the text to come. A list of declared
names with a colon behind it tells a quantifier (`some x: A | ...`) from a
multiplicity (`some x`), and a comprehension from a block.
-/

namespace RelLang.Grammar

/-- `(',' Name)* ':'`. -/
def namesEndInColon : List TokenKind → Bool
  | .punct .comma :: .ident :: ks => namesEndInColon ks
  | .punct .colon :: _ => true
  | _ => false

/-- `Name (',' Name)* ':'`. -/
def namesAhead : List TokenKind → Bool
  | .ident :: ks => namesEndInColon ks
  | _ => false

/-- `'disj'? Name (',' Name)* ':'`. -/
def declarationAhead : List TokenKind → Bool
  | .keyword .disjKw :: ks => namesAhead ks
  | ks => namesAhead ks

/-- A declaration behind the current token. -/
def declarationBehind (ks : List TokenKind) : Bool := declarationAhead ks.tail

/-- `('/' Segment)* '.'`. -/
def segmentsEndInDot : List TokenKind → Bool
  | .punct .slash :: k :: ks => k.isNameSegment && segmentsEndInDot ks
  | .punct .dot :: _ => true
  | _ => false

/-- `Segment ('/' Segment)* '.'`. -/
def segmentsAhead : List TokenKind → Bool
  | k :: ks => k.isNameSegment && segmentsEndInDot ks
  | [] => false

/-- `('this' '/')? Segment ('/' Segment)* '.'`, the receiver in front of a name. -/
def receiverAhead : List TokenKind → Bool
  | .keyword .thisKw :: .punct .slash :: ks => segmentsAhead ks
  | ks => segmentsAhead ks

end RelLang.Grammar
