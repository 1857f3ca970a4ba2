import MethodFlow.Config.File
/-!
# Configurations

The settings of all stages, with the preset that they started from.
-/

namespace MethodFlow

structure AnalysisConfig where
  preset : Preset
  escape : EscapeConfig
  nullCheck : NullCheckConfig
  parallel : ParallelConfig
deriving DecidableEq, Repr

namespace AnalysisConfig

def ofPreset (p : Preset) : AnalysisConfig := ⟨p, .ofPreset p, .ofPreset p, .ofPreset p⟩

def standard : AnalysisConfig := .ofPreset .standard

/-- The first defect of a stage, in the order of the stages. -/
def validate (c : AnalysisConfig) : Except ConfigError Unit := do
  c.escape.validate
  c.nullCheck.validate
  c.parallel.validate

/-! ## Files -/

def supportedVersions : List Nat := [1]

/-- The configuration that a file gives: its preset, with the stages that it replaces. -/
def ofFile (f : ConfigFile) : Except ConfigError AnalysisConfig := do
  let version ← match f.version? with
    | some version => .ok version
    | none => .error .missingVersion
  if !supportedVersions.contains version then
    throw (.unsupportedVersion version supportedVersions)
  let base := ofPreset (← Preset.ofText f.preset)
  let c := { base with
    escape := f.escape?.getD base.escape
    nullCheck := f.nullCheck?.getD base.nullCheck
    parallel := f.parallel?.getD base.parallel }
  c.validate
  return c

def readIn (format : FileFormat) (text : String) : Except ConfigError AnalysisConfig :=
  match format.read? text with
  | some f => ofFile f
  | none => .error .malformed

def ofYaml (text : String) : Except ConfigError AnalysisConfig := readIn .yaml text

/-- Reads the bytes of a file; an absent file has none. -/
def ofBytes (bytes? : Option ByteArray) : Except ConfigError AnalysisConfig :=
  match bytes? with
  | none => .error (.file .absent)
  | some bytes =>
    match String.fromUTF8? bytes with
    | some text => ofYaml text
    | none => .error (.file .notText)

/-- The file that gives every stage, so that it does not depend on what the preset gives. -/
def toFile (c : AnalysisConfig) : ConfigFile where
  version? := some 1
  preset := c.preset.name
  escape? := some c.escape
  nullCheck? := some c.nullCheck
  parallel? := some c.parallel

def writeIn (format : FileFormat) (c : AnalysisConfig) : Except ConfigError String :=
  match format.write? c.toFile with
  | some text => .ok text
  | none => .error .malformed

def toYaml (c : AnalysisConfig) : String := c.toFile.text

end AnalysisConfig

instance : Codec AnalysisConfig where
  encode c := .record [
    ("preset", encode c.preset),
    ("escape", encode c.escape),
    ("null_check", encode c.nullCheck),
    ("parallel", encode c.parallel)]
  decode d := do
    return {
      preset := ← d.field "preset"
      escape := ← d.field "escape"
      nullCheck := ← d.field "null_check"
      parallel := ← d.field "parallel" }

end MethodFlow
