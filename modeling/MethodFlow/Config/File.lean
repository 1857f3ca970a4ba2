import MethodFlow.Config.Stage
import MethodFlow.Yaml.Outline
import MethodFlow.Yaml.Value
/-!
# Configuration files

A file names a preset and may replace the settings of whole stages. It gives its version, so that
the meaning of a file stays what it was when it was written.
-/

namespace MethodFlow

open Yaml (Node Outline)

structure ConfigFile where
  version? : Option Nat
  preset : String
  escape? : Option EscapeConfig
  nullCheck? : Option NullCheckConfig
  parallel? : Option ParallelConfig
deriving DecidableEq, Repr

/-! ## Reading -/

def EscapeConfig.ofNode? (node : Node) : Option EscapeConfig := do
  let fields ← node.fields? ["enabled", "verify_ir", "mark_receiver_slot"]
  return {
    enabled := ← (← fields.lookup "enabled").bool?
    verifyFirst := ← (← fields.lookup "verify_ir").bool?
    markReceiver := ← (← fields.lookup "mark_receiver_slot").bool? }

def NullCheckConfig.ofNode? (node : Node) : Option NullCheckConfig := do
  let fields ← node.fields? ["enabled", "invocation_kinds"]
  return {
    enabled := ← (← fields.lookup "enabled").bool?
    kinds := ← (← (← fields.lookup "invocation_kinds").items?).mapM Node.member? }

def ParallelConfig.ofNode? (node : Node) : Option ParallelConfig := do
  let fields ← node.fields? ["enabled", "num_threads"]
  return {
    enabled := ← (← fields.lookup "enabled").bool?
    threads := ← (← fields.lookup "num_threads").natural? wordLimit }

namespace ConfigFile

/-- Reads a value that may be absent or have no key at all. -/
def optionalField? {α : Type} (read : Node → Option α) (fields : List (String × Node))
    (key : String) : Option (Option α) :=
  match fields.lookup key with
  | some node => node.optional? read
  | none => some none

def ofNode? (node : Node) : Option ConfigFile := do
  let fields ← node.fields? ["version", "preset", "escape", "null_check", "parallel"]
  return {
    version? := ← optionalField? (·.natural? 0x100000000) fields "version"
    preset := ← (← fields.lookup "preset").text?
    escape? := ← optionalField? EscapeConfig.ofNode? fields "escape"
    nullCheck? := ← optionalField? NullCheckConfig.ofNode? fields "null_check"
    parallel? := ← optionalField? ParallelConfig.ofNode? fields "parallel" }

def ofText? (text : String) : Option ConfigFile := do ofNode? (← Node.ofText? text)

end ConfigFile

/-! ## Writing -/

def boolText (b : Bool) : String := if b then "true" else "false"

def EscapeConfig.outline (c : EscapeConfig) : Outline :=
  .word "enabled" (boolText c.enabled) <|
  .word "verify_ir" (boolText c.verifyFirst) <|
  .word "mark_receiver_slot" (boolText c.markReceiver) .done

def NullCheckConfig.outline (c : NullCheckConfig) : Outline :=
  .word "enabled" (boolText c.enabled) <|
  .words "invocation_kinds" (c.kinds.map Vocabulary.name) .done

def ParallelConfig.outline (c : ParallelConfig) : Outline :=
  .word "enabled" (boolText c.enabled) <|
  .word "num_threads" (toString c.threads) .done

namespace ConfigFile

/-- A stage that the file does not replace is not written. -/
def optionalBlock (key : String) (content? : Option Outline) (more : Outline) : Outline :=
  match content? with
  | some content => .block key content more
  | none => more

def outline (f : ConfigFile) : Outline :=
  .word "version" (f.version?.elim "null" toString) <|
  .word "preset" f.preset <|
  optionalBlock "escape" (f.escape?.map (·.outline)) <|
  optionalBlock "null_check" (f.nullCheck?.map (·.outline)) <|
  optionalBlock "parallel" (f.parallel?.map (·.outline)) .done

def text (f : ConfigFile) : String := f.outline.text 0

end ConfigFile

/-! ## Formats -/

/-- How files are written as texts and texts read as files; either may fail. -/
structure FileFormat where
  write? : ConfigFile → Option String
  read? : String → Option ConfigFile

def FileFormat.yaml : FileFormat where
  write? f := some f.text
  read? := ConfigFile.ofText?

end MethodFlow
