import MethodFlow.Config.Analysis
import MethodFlow.Escape.Analysis
import MethodFlow.NullCheck
/-!
# Methods

What happens to one method: its program is verified, null checks are inserted, and the escape
analysis runs, each if the configuration says so. The program is handed back with the result; a
method that is refused after the insertion keeps the inserted checks.
-/

namespace MethodFlow

structure Method where
  reference : MethodRef
  program : Program
  /-- Whether no object is passed to the method before its parameters. -/
  isStatic : Bool
deriving DecidableEq, Repr

structure MethodFacts where
  reference : MethodRef
  insertedChecks : Nat
  escape? : Option EscapeFacts
deriving DecidableEq, Repr

structure MethodReport where
  method : String
  insertedChecks : Nat
  escape? : Option EscapeSummary
deriving DecidableEq, Repr

def MethodFacts.report (f : MethodFacts) : MethodReport :=
  ⟨f.reference.text, f.insertedChecks, f.escape?.map (·.summary)⟩

instance : Codec MethodReport where
  encode r := .record [
    ("method", encode r.method),
    ("null_checks_inserted", encode r.insertedChecks),
    ("escape", encode r.escape?)]
  decode d := return {
    method := ← d.field "method"
    insertedChecks := ← d.field "null_checks_inserted"
    escape? := ← d.field "escape" }

structure MethodOutcome where
  method : Method
  result : Except MethodError MethodFacts

namespace Method

/-- The method whose program has the null checks of a configuration, and their number. -/
def withNullChecks (m : Method) (config : NullCheckConfig) : Except Violation (Nat × Method) := do
  if config.enabled then
    let (inserted, program) ← m.program.insertNullChecks config.kinds
    return (inserted, { m with program })
  else return (0, m)

/-- The escape facts that a configuration asks for. The program has been verified before, so that
only its operands are looked at here. -/
def escapeFacts? (m : Method) (config : EscapeConfig) :
    Except MethodError (Option EscapeFacts) := do
  if config.enabled then
    let config := { config with
      verifyFirst := false
      markReceiver := config.markReceiver && !m.isStatic }
    return some (← EscapeFacts.analyze m.program m.reference.parameterCount config)
  else return none

def run (config : AnalysisConfig) (m : Method) : Except Violation MethodOutcome := do
  match if config.escape.verifyFirst then m.program.verify else .ok () with
  | .error e => return ⟨m, .error e⟩
  | .ok () =>
    let (inserted, m) ← m.withNullChecks config.nullCheck
    return ⟨m, (m.escapeFacts? config.escape).map fun escape? => ⟨m.reference, inserted, escape?⟩⟩

end Method

end MethodFlow
