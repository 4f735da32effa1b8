import RelLang.Grammar.Expression.Binder

/-!
# Atoms

```text
Atom          = Constant | NameRef | 'this' | '@' Name | ATOM_NAME | SEXPR
              | ParenExpr | Comprehension | Block
Constant      = '-'? NUMBER | 'none' | 'univ' | 'iden'
NameRef       = QualName
ParenExpr     = '(' Expr ')'
Comprehension = '{' QuantDecl (',' QuantDecl)* ('|' Expr | Block)? '}'
```
-/

namespace RelLang.Grammar

open Rule

def parenthesized : Rule Nonterminal Unit := node .parenExpr do
  let opener ← currentRange
  bump
  within .parenthesized (ignore expr)
  ignore (expectCloser Punct.rparen opener)

def comprehension : Rule Nonterminal Unit := node .comprehensionExpr do
  let opener ← currentRange
  bump
  within .block do
    quantDecls
    let bar ← eat Punct.bar
    if bar then ignore expr
    else
      let brace ← currentIs Punct.lbrace
      when brace block
  ignore (expectCloser Punct.rbrace opener)

/-- The atoms by their first token. -/
inductive AtomForm where
  | oneToken (kind : NodeKind)
  | negativeNumber
  | nameRef
  | atName
  | parenthesized
  | braced
  deriving DecidableEq, Repr

/-- The form of the atom that two tokens begin. -/
def AtomForm.ofTokens? (first second : Option TokenKind) : Option AtomForm :=
  match first with
  | some .number | some (.keyword .noneKw) | some (.keyword .univKw) | some (.keyword .idenKw) =>
    some (.oneToken .constExpr)
  | some (.punct .minus) => if second == some .number then some .negativeNumber else none
  | some (.keyword .thisKw) =>
    if second == some (.punct .slash) then some .nameRef else some (.oneToken .thisExpr)
  | some .ident | some (.keyword .intKw) | some (.keyword .seqKw) => some .nameRef
  | some (.punct .atSign) => if second == some .ident then some .atName else none
  | some .atomName => some (.oneToken .atomExpr)
  | some .sexpr => some (.oneToken .sexprExpr)
  | some (.punct .lparen) => some .parenthesized
  | some (.punct .lbrace) => some .braced
  | _ => none

/-- The atom of a form. -/
def AtomForm.rule : AtomForm → Rule Nonterminal Unit
  | .oneToken kind => tokenNode kind
  | .negativeNumber => node .constExpr do
    bump
    bump
  | .nameRef => node .nameRef do
    ignore qualName
  | .atName => node .atNameExpr do
    bump
    tokenNode .name
  | .parenthesized => Grammar.parenthesized
  | .braced => do
    let declaration ← ahead declarationBehind
    if declaration then comprehension else block

/-- `Atom`; yields whether there is one. -/
def atom : Rule Nonterminal Bool := do
  let first ← peek 0
  let second ← peek 1
  match AtomForm.ofTokens? first second with
  | some form => do
    form.rule
    return true
  | none => return false

end RelLang.Grammar
