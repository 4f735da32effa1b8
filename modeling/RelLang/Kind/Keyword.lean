/-!
# Keywords

The reserved words of the language, their spellings, and the reading of a word
as a keyword. `ofSpelling?_spelling` says that no two keywords are spelled alike.
-/

namespace RelLang

/-- The reserved words, in the order of the kind numbering. -/
inductive Keyword where
  | abstractKw | afterKw | allKw | alwaysKw | andKw | asKw | assertKw | beforeKw | bindKw
  | butKw | checkKw | consistentKw | disjKw | elseKw | evalKw | eventuallyKw | exactlyKw
  | exampleKw | expectKw | extendsKw | factKw | forKw | forgeErrorKw | funKw | funcKw
  | historicallyKw | idenKw | iffKw | impliesKw | inKw | inconsistentKw | instKw | intKw | isKw
  | letKw | loneKw | moduleKw | necessaryKw | niKw | noKw | noneKw | notKw | onceKw | oneKw
  | openKw | optionKw | orKw | pfuncKw | predKw | releaseKw | runKw | satKw | seqKw | setKw
  | sigKw | sinceKw | someKw | sufficientKw | suiteKw | sumKw | testKw | theoremKw | thisKw
  | triggeredKw | twoKw | univKw | unsatKw | untilKw | varKw | wheatKw | withKw | xorKw
  deriving DecidableEq, Repr

namespace Keyword

/-- The keyword as it is written. -/
def spelling : Keyword → String
  | .abstractKw => "abstract"
  | .afterKw => "after"
  | .allKw => "all"
  | .alwaysKw => "always"
  | .andKw => "and"
  | .asKw => "as"
  | .assertKw => "assert"
  | .beforeKw => "before"
  | .bindKw => "bind"
  | .butKw => "but"
  | .checkKw => "check"
  | .consistentKw => "consistent"
  | .disjKw => "disj"
  | .elseKw => "else"
  | .evalKw => "eval"
  | .eventuallyKw => "eventually"
  | .exactlyKw => "exactly"
  | .exampleKw => "example"
  | .expectKw => "expect"
  | .extendsKw => "extends"
  | .factKw => "fact"
  | .forKw => "for"
  | .forgeErrorKw => "forge_error"
  | .funKw => "fun"
  | .funcKw => "func"
  | .historicallyKw => "historically"
  | .idenKw => "iden"
  | .iffKw => "iff"
  | .impliesKw => "implies"
  | .inKw => "in"
  | .inconsistentKw => "inconsistent"
  | .instKw => "inst"
  | .intKw => "Int"
  | .isKw => "is"
  | .letKw => "let"
  | .loneKw => "lone"
  | .moduleKw => "module"
  | .necessaryKw => "necessary"
  | .niKw => "ni"
  | .noKw => "no"
  | .noneKw => "none"
  | .notKw => "not"
  | .onceKw => "once"
  | .oneKw => "one"
  | .openKw => "open"
  | .optionKw => "option"
  | .orKw => "or"
  | .pfuncKw => "pfunc"
  | .predKw => "pred"
  | .releaseKw => "release"
  | .runKw => "run"
  | .satKw => "sat"
  | .seqKw => "seq"
  | .setKw => "set"
  | .sigKw => "sig"
  | .sinceKw => "since"
  | .someKw => "some"
  | .sufficientKw => "sufficient"
  | .suiteKw => "suite"
  | .sumKw => "sum"
  | .testKw => "test"
  | .theoremKw => "theorem"
  | .thisKw => "this"
  | .triggeredKw => "triggered"
  | .twoKw => "two"
  | .univKw => "univ"
  | .unsatKw => "unsat"
  | .untilKw => "until"
  | .varKw => "var"
  | .wheatKw => "wheat"
  | .withKw => "with"
  | .xorKw => "xor"

/-- Every keyword, in the order of the kind numbering. -/
def all : List Keyword :=
  [.abstractKw, .afterKw, .allKw, .alwaysKw, .andKw, .asKw, .assertKw, .beforeKw, .bindKw,
   .butKw, .checkKw, .consistentKw, .disjKw, .elseKw, .evalKw, .eventuallyKw, .exactlyKw,
   .exampleKw, .expectKw, .extendsKw, .factKw, .forKw, .forgeErrorKw, .funKw, .funcKw,
   .historicallyKw, .idenKw, .iffKw, .impliesKw, .inKw, .inconsistentKw, .instKw, .intKw, .isKw,
   .letKw, .loneKw, .moduleKw, .necessaryKw, .niKw, .noKw, .noneKw, .notKw, .onceKw, .oneKw,
   .openKw, .optionKw, .orKw, .pfuncKw, .predKw, .releaseKw, .runKw, .satKw, .seqKw, .setKw,
   .sigKw, .sinceKw, .someKw, .sufficientKw, .suiteKw, .sumKw, .testKw, .theoremKw, .thisKw,
   .triggeredKw, .twoKw, .univKw, .unsatKw, .untilKw, .varKw, .wheatKw, .withKw, .xorKw]

theorem mem_all (k : Keyword) : k ∈ all := by cases k <;> decide

/-- The keyword that a word spells, if it spells one. -/
def ofSpelling? (word : String) : Option Keyword := all.find? (·.spelling == word)

theorem ofSpelling?_spelling (k : Keyword) : ofSpelling? k.spelling = some k := by
  cases k <;> decide

end Keyword
end RelLang
