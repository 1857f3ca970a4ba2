import MethodFlow.Method
/-!
# Batches of methods

The methods of a batch do not depend on each other: each has an outcome of its own, and one that
is refused does not keep the others from being analysed.
-/

namespace MethodFlow

def runBatch (config : AnalysisConfig) (methods : List Method) :
    Except Violation (List MethodOutcome) :=
  methods.mapM (·.run config)

structure BatchStats where
  methods : Nat
  failed : Nat
  insertedChecks : Nat
  escapingClasses : Nat
  localAllocations : Nat
deriving DecidableEq, Repr

namespace BatchStats

def empty : BatchStats := ⟨0, 0, 0, 0, 0⟩

def add (s : BatchStats) (o : MethodOutcome) : BatchStats :=
  match o.result with
  | .error _ => { s with methods := s.methods + 1, failed := s.failed + 1 }
  | .ok facts =>
    let summary? := facts.escape?.map (·.summary)
    { s with
      methods := s.methods + 1
      insertedChecks := s.insertedChecks + facts.insertedChecks
      escapingClasses := s.escapingClasses + summary?.elim 0 (·.escapingClassCount)
      localAllocations := s.localAllocations + summary?.elim 0 (·.localAllocations.length) }

def ofOutcomes (outcomes : List MethodOutcome) : BatchStats := outcomes.foldl add empty

end BatchStats

instance : Codec BatchStats where
  encode s := .record [
    ("methods", encode s.methods),
    ("failed", encode s.failed),
    ("null_checks_inserted", encode s.insertedChecks),
    ("escaping_classes", encode s.escapingClasses),
    ("local_allocations", encode s.localAllocations)]
  decode d := return {
    methods := ← d.field "methods"
    failed := ← d.field "failed"
    insertedChecks := ← d.field "null_checks_inserted"
    escapingClasses := ← d.field "escaping_classes"
    localAllocations := ← d.field "local_allocations" }

end MethodFlow
