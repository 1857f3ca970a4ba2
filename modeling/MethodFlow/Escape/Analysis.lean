import MethodFlow.Config.Stage
import MethodFlow.Escape.Fact
import MethodFlow.Graph.Cycle
import MethodFlow.Graph.DisjointSet
import MethodFlow.Verification
/-!
# Escape analysis

Which objects of a method can be seen outside it. Variables that hold the same object form a
class. A class escapes if one of its variables does, if it lies on a cycle of field edges, or if
it can be reached along field edges from a class that escapes. A new object that does not escape
need not be built at all.
-/

namespace MethodFlow

structure EscapeFacts where
  /-- The class of each variable. -/
  classOf : Array Nat
  /-- Whether each class escapes. -/
  escaping : Array Bool
  /-- Whether each variable is given a new object. -/
  constructed : Array Bool
  edgeCount : Nat
deriving DecidableEq, Repr

structure EscapeSummary where
  variableCount : Nat
  classCount : Nat
  escapingClassCount : Nat
  edgeCount : Nat
  escapingVariables : List Nat
  localAllocations : List Nat
deriving DecidableEq, Repr

namespace EscapeFacts

/-! ## Analysis -/

def marksOf (size : Nat) (entries : List Nat) : Array Bool :=
  entries.foldl (fun marks entry => marks.setIfInBounds entry true) (.replicate size false)

def markedIn (marks : Array Bool) : List Nat :=
  (List.range marks.size).filter fun entry => marks[entry]?.getD false

def classes (variableCount : Nat) (facts : List Fact) : DisjointSet :=
  (Fact.copies facts).foldl (fun s (dest, source) => (s.union dest.index source.index).2)
    (.ofSize variableCount)

def classGraph (classCount : Nat) (classOf : Array Nat) (facts : List Fact) : Adjacency :=
  .ofEdges classCount ((Fact.fieldEdges facts).filterMap fun (object, value) =>
    return (← classOf[object.index]?, ← classOf[value.index]?))

/-- Every class that is flagged, lies on a cycle or can be reached from such a class. -/
def close (g : Adjacency) (flags : Array Bool) : Array Bool :=
  Graph.reachable g (markedIn (Graph.markCycles g flags).1)

def ofFacts (variableCount : Nat) (slots : List Nat) (facts : List Fact) : EscapeFacts :=
  let classOf := ((classes variableCount facts).pack variableCount).1
  let classCount := (DisjointSet.classesOf? classOf).getD 0
  let g := classGraph classCount classOf facts
  let seeds := slots ++ (Fact.escapees facts).map (·.index)
  let seeded := marksOf classCount (seeds.filterMap fun v => classOf[v]?)
  { classOf
    escaping := close g seeded
    constructed := marksOf variableCount ((Fact.allocations facts).map (·.index))
    edgeCount := Graph.edgeCount g }

/-- The variables that hold the parameters: those up to the number of parameters, the first one
only if it holds the object that the method is called on. -/
def parameterSlots (variableCount parameterCount : Nat) (markReceiver : Bool) : List Nat :=
  (List.range variableCount).filter fun slot =>
    slot ≤ parameterCount && (markReceiver || slot ≠ 0)

def analyze (p : Program) (parameterCount : Nat) (config : EscapeConfig) :
    Except MethodError EscapeFacts := do
  if config.verifyFirst then p.verify else p.verifyOperands
  let slots := parameterSlots p.variableCount parameterCount config.markReceiver
  return ofFacts p.variableCount slots p.facts

/-! ## Queries -/

def variableCount (f : EscapeFacts) : Nat := f.classOf.size

def classCount (f : EscapeFacts) : Nat := f.escaping.size

def class? (f : EscapeFacts) (v : Variable) : Option Nat := f.classOf[v.index]?

/-- Whether the object of a variable escapes, if the program has the variable. -/
def escapes? (f : EscapeFacts) (v : Variable) : Option Bool :=
  (f.class? v).map fun c => f.escaping[c]?.getD true

/-- Whether the object of a variable of the program escapes. -/
def escapes (f : EscapeFacts) (v : Variable) : Except Violation Bool :=
  match f.escapes? v with
  | some b => .ok b
  | none => .error (.unknownVariable v.index f.variableCount)

/-- Whether the object of a variable escapes; asking for another variable is an error. -/
def tryEscapes (f : EscapeFacts) (v : Variable) : Except MethodError Bool :=
  match f.escapes? v with
  | some b => .ok b
  | none => .error (.danglingVariable v.index f.variableCount (.named "escape query"))

def isConstructed (f : EscapeFacts) (v : Variable) : Except Violation Bool :=
  if v.index < f.variableCount then .ok (f.constructed[v.index]?.getD false)
  else .error (.unknownVariable v.index f.variableCount)

def escapesAt (f : EscapeFacts) (i : Nat) : Bool :=
  match f.classOf[i]? with
  | some c => f.escaping[c]?.getD true
  | none => true

def escapingVariables (f : EscapeFacts) : List Nat :=
  (List.range f.variableCount).filter f.escapesAt

def constructedVariables (f : EscapeFacts) : List Nat :=
  (List.range f.variableCount).filter fun i => f.constructed[i]?.getD false

/-- The variables that are given a new object which does not escape.  A table of more than
`indexLimit` variables, the last of which have no number, is outside the model. -/
def candidates (f : EscapeFacts) : List Nat :=
  f.constructedVariables.filter fun i => !f.escapesAt i

/-- The facts in short, for tables of at most `indexLimit` variables as in `candidates`. -/
def summary (f : EscapeFacts) : EscapeSummary where
  variableCount := f.variableCount
  classCount := f.classCount
  escapingClassCount := f.escaping.count true
  edgeCount := f.edgeCount
  escapingVariables := f.escapingVariables
  localAllocations := f.candidates

end EscapeFacts

instance : Codec EscapeSummary where
  encode s := .record [
    ("variable_count", encode s.variableCount),
    ("class_count", encode s.classCount),
    ("escaping_class_count", encode s.escapingClassCount),
    ("reference_edge_count", encode s.edgeCount),
    ("escaping_variables", encode s.escapingVariables),
    ("local_allocations", encode s.localAllocations)]
  decode d := return {
    variableCount := ← d.field "variable_count"
    classCount := ← d.field "class_count"
    escapingClassCount := ← d.field "escaping_class_count"
    edgeCount := ← d.field "reference_edge_count"
    escapingVariables := ← d.field "escaping_variables"
    localAllocations := ← d.field "local_allocations" }

end MethodFlow
