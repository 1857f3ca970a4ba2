import MethodFlow.Config.Error
import MethodFlow.Datum
/-!
# Settings of the stages

Each stage has settings of its own. A preset gives settings for all of them.
-/

namespace MethodFlow

inductive Preset where
  | fast
  | balanced
  | thorough
deriving DecidableEq, Repr

instance : Vocabulary Preset where
  members := [.fast, .balanced, .thorough]
  name
    | .fast => "fast"
    | .balanced => "balanced"
    | .thorough => "thorough"

namespace Preset

def name (p : Preset) : String := Vocabulary.name p

def standard : Preset := .balanced

/-- The preset of a name in letters of either case. -/
def ofText (s : String) : Except ConfigError Preset :=
  match Vocabulary.ofName? s.toLower with
  | some p => .ok p
  | none => .error (.unknownPreset s)

end Preset

/-! ## Escape analysis -/

structure EscapeConfig where
  enabled : Bool
  /-- Whether the whole program is verified first; its operands always are. -/
  verifyFirst : Bool
  /-- Whether variable 0 holds the object that the method is called on. -/
  markReceiver : Bool
deriving DecidableEq, Repr

namespace EscapeConfig

def ofPreset (p : Preset) : EscapeConfig := ⟨true, p ≠ .fast, true⟩

def validate (_ : EscapeConfig) : Except ConfigError Unit := .ok ()

end EscapeConfig

instance : Codec EscapeConfig where
  encode c := .record [
    ("enabled", encode c.enabled),
    ("verify_ir", encode c.verifyFirst),
    ("mark_receiver_slot", encode c.markReceiver)]
  decode d := do
    guard (d.hasOnly ["enabled", "verify_ir", "mark_receiver_slot"])
    return {
      enabled := ← d.field "enabled"
      verifyFirst := ← d.field "verify_ir"
      markReceiver := ← d.field "mark_receiver_slot" }

/-! ## Null-check insertion -/

structure NullCheckConfig where
  enabled : Bool
  /-- The dispatch kinds of the invocations that get a check. -/
  kinds : List Dispatch
deriving DecidableEq, Repr

namespace NullCheckConfig

def ofPreset (p : Preset) : NullCheckConfig := ⟨p ≠ .fast, [.virtual]⟩

/-- An enabled stage needs kinds, each of which has an object to check. -/
def validate (c : NullCheckConfig) : Except ConfigError Unit :=
  if !c.enabled then .ok ()
  else if c.kinds.isEmpty then .error (.validation "null_check" .noKinds)
  else
    match c.kinds.find? fun kind => !kind.needsObject with
    | some kind => .error (.validation "null_check" (.kindWithoutObject kind))
    | none => .ok ()

end NullCheckConfig

instance : Codec NullCheckConfig where
  encode c := .record [
    ("enabled", encode c.enabled),
    ("invocation_kinds", encode c.kinds)]
  decode d := do
    guard (d.hasOnly ["enabled", "invocation_kinds"])
    return { enabled := ← d.field "enabled", kinds := ← d.field "invocation_kinds" }

/-! ## Batches -/

structure ParallelConfig where
  enabled : Bool
  /-- The number of workers, or 0 to leave the choice open. -/
  threads : Nat
deriving DecidableEq, Repr

namespace ParallelConfig

def maxThreads : Nat := 1024

def ofPreset (p : Preset) : ParallelConfig := ⟨p ≠ .thorough, 0⟩

def validate (c : ParallelConfig) : Except ConfigError Unit :=
  if c.threads ≤ maxThreads then .ok ()
  else .error (.range "num_threads" c.threads 0 maxThreads
    "Number of threads must be reasonable (0=auto)")

end ParallelConfig

instance : Codec ParallelConfig where
  encode c := .record [("enabled", encode c.enabled), ("num_threads", encode c.threads)]
  decode d := do
    guard (d.hasOnly ["enabled", "num_threads"])
    return { enabled := ← d.field "enabled", threads := ← d.field "num_threads" }

end MethodFlow
