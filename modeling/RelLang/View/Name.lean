import RelLang.View

/-!
# Names and multiplicities

What names are made of, and what a multiplicity keyword stands for.
-/

namespace RelLang

abbrev Name := View (.only .name)
abbrev NameList := View (.only .nameList)
abbrev QualName := View (.only .qualName)
abbrev QualNameList := View (.only .qualNameList)
abbrev Mult := View (.only .mult)

/-- How many. -/
inductive Multiplicity where
  | lone | some | one | two | set | func | pfunc
  deriving DecidableEq, Repr

namespace Multiplicity

/-- What a keyword stands for. -/
def ofToken? : TokenKind → Option Multiplicity
  | .keyword .loneKw => .some .lone
  | .keyword .someKw => .some .some
  | .keyword .oneKw => .some .one
  | .keyword .twoKw => .some .two
  | .keyword .setKw => .some .set
  | .keyword .funcKw => .some .func
  | .keyword .pfuncKw => .some .pfunc
  | _ => none

def label : Multiplicity → String
  | .lone => "Lone"
  | .some => "Some"
  | .one => "One"
  | .two => "Two"
  | .set => "Set"
  | .func => "Func"
  | .pfunc => "Pfunc"

end Multiplicity

namespace Name

def text (v : Name) : Option String := v.tokenText? .ident

end Name

namespace NameList

def names (v : NameList) : List Name := v.all (.only .name)

/-- The names as texts, in order. -/
def texts (v : NameList) : List String := v.names.filterMap Name.text

end NameList

namespace QualName

/-- The name begins with `this/`. -/
def isThis (v : QualName) : Bool := v.hasToken (.keyword .thisKw)

/-- The segments of the name without `this/`. -/
def segments (v : QualName) : List String :=
  (v.node.childTokens.filter (·.1.isNameSegment)).map (·.2)

/-- The name as it is written, without trivia. -/
def text (v : QualName) : String :=
  String.join ((v.node.childTokens.filter (!·.1.isTrivia)).map (·.2))

/-- The last segment, which is the name without its path. -/
def last (v : QualName) : Option String := v.segments.getLast?

end QualName

namespace QualNameList

def names (v : QualNameList) : List QualName := v.all (.only .qualName)

end QualNameList

namespace Mult

def multiplicity (v : Mult) : Option Multiplicity := v.firstMeaning Multiplicity.ofToken?

end Mult

namespace View

variable {c : Category}

/-- The names that a declaration declares. -/
def nameList (v : View c) : Option NameList := v.first (.only .nameList)

/-- The declared names as texts. -/
def names (v : View c) : List String := (v.nameList.map NameList.texts).getD []

/-- The multiplicity of a declaration. -/
def multiplicity (v : View c) : Option Multiplicity :=
  (v.first (.only .mult)).bind Mult.multiplicity

/-- The name of a declaration. -/
def name (v : View c) : Option Name := v.first (.only .name)

end View
end RelLang
