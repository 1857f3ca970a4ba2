import MethodFlow.Symbol
/-!
# Why a configuration is refused
-/

namespace MethodFlow

inductive StageDefect where
  | noKinds
  | kindWithoutObject (kind : Dispatch)
deriving DecidableEq, Repr

def StageDefect.text : StageDefect → String
  | .noKinds => "enabled with no invocation kinds; disable the stage instead"
  | .kindWithoutObject kind => s!"'{kind.name}' invocations have no instance to check"

inductive FileDefect where
  | absent
  | notText
deriving DecidableEq, Repr

def FileDefect.text : FileDefect → String
  | .absent => "No such file or directory (os error 2)"
  | .notText => "stream did not contain valid UTF-8"

inductive ConfigError where
  | range (field : String) (value low high : Nat) (hint : String)
  | missingVersion
  | unsupportedVersion (found : Nat) (supported : List Nat)
  | unknownPreset (name : String)
  | validation (stage : String) (defect : StageDefect)
  | file (defect : FileDefect)
  | malformed
deriving DecidableEq, Repr

namespace ConfigError

/-- The text of the error; what is wrong with a malformed document is not told. -/
def message? : ConfigError → Option String
  | .range field value low high hint =>
    some s!"Invalid range for field '{field}': {value} not in {low}..={high}. {hint}"
  | .missingVersion =>
    some "Missing 'version' field in configuration. Add 'version: 1' to the top of your YAML file."
  | .unsupportedVersion found supported =>
    let versions := ", ".intercalate (supported.map toString)
    some s!"Unsupported configuration version {found}. Supported versions: {versions}"
  | .unknownPreset name =>
    some s!"Unknown preset '{name}'. Valid presets: fast, balanced, thorough"
  | .validation stage defect => some s!"Validation error in '{stage}': {defect.text}"
  | .file defect => some s!"IO error: {defect.text}"
  | .malformed => none

end ConfigError

end MethodFlow
