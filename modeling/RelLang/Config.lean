import RelLang.Text.Blank

/-!
# Configuration

When temporal constructs are admitted, and how many diagnostics are kept.
-/

namespace RelLang

/-- When temporal constructs are admitted. -/
inductive TemporalMode where
  | enabled
  /-- Read, and each use is reported. -/
  | disabled
  /-- Admitted if the language line names a temporal dialect, or after an option that asks
  for it. -/
  | fromLanguageLine
  deriving DecidableEq, Repr

/-- A dialect is temporal if one of the parts of its name between slashes is `temporal`. -/
def isTemporalLanguage (language : String) : Bool :=
  (Text.splitOn '/' language.toList).any fun part => Text.trim part == "temporal".toList

/-- What one reading of a text goes by. -/
structure ParseConfig where
  temporal : TemporalMode := .enabled
  /-- Once so many diagnostics are kept, only fatal ones are added. -/
  maxDiagnostics : Option Nat := none
  deriving DecidableEq, Repr

namespace ParseConfig

def withTemporal (c : ParseConfig) (mode : TemporalMode) : ParseConfig :=
  { c with temporal := mode }

def withMaxDiagnostics (c : ParseConfig) (max : Nat) : ParseConfig :=
  { c with maxDiagnostics := some max }

/-- Temporal constructs are admitted from the start of a text in the given language. -/
def admitsTemporal (c : ParseConfig) (language : Option String) : Bool :=
  match c.temporal with
  | .enabled => true
  | .disabled => false
  | .fromLanguageLine => language.any isTemporalLanguage

end ParseConfig
end RelLang
