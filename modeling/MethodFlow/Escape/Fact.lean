import MethodFlow.Program
/-!
# What instructions say about objects

An instruction is a handful of facts about the objects that its variables hold. Facts do not
depend on where the instruction stands. Arrays are not followed: what goes in or out of an
element escapes.
-/

namespace MethodFlow

inductive Fact where
  /-- Both variables hold the same object. -/
  | copy (dest source : Variable)
  /-- The object can be seen outside the method. -/
  | escapes (v : Variable)
  /-- A field of the object may hold the value. -/
  | holds (object value : Variable)
  /-- The variable is given a new object. -/
  | allocates (v : Variable)
deriving DecidableEq, Repr

/-- A field access; a field without an object can be seen everywhere. -/
def Fact.fieldAccess (object : Option Variable) (value : Variable) : Fact :=
  match object with
  | some object => .holds object value
  | none => .escapes value

/-- A call sees its object and arguments and knows its result. -/
def Fact.call (object : Option Variable) (arguments : List Variable) (dest : Option Variable) :
    List Fact :=
  (object.toList ++ arguments ++ dest.toList).map .escapes

def Instruction.facts : Instruction → List Fact
  | .assign dest source => [.copy dest source]
  | .cast dest source _ => [.copy dest source]
  | .nullCheck dest value => [.copy dest value]
  | .exit value => value.toList.map .escapes
  | .raise exception => [.escapes exception]
  | .construct dest _ => [.allocates dest]
  | .getField dest object _ _ => [.fieldAccess object dest]
  | .putField object value _ _ => [.fieldAccess object value]
  | .getElement dest array _ _ => [.escapes array, .escapes dest]
  | .putElement array index value _ => [.escapes array, .escapes index, .escapes value]
  | .isInstance _ value _ => [.escapes value]
  | .invoke call => Fact.call call.object call.arguments call.dest
  | .invokeDynamic call => Fact.call call.object call.arguments call.dest
  | .monitorEnter object => [.escapes object]
  | .monitorExit object => [.escapes object]
  | .intConstant .. | .longConstant .. | .floatConstant .. | .doubleConstant ..
  | .stringConstant .. | .classConstant .. | .nullConstant _ | .castNumber .. | .castInteger ..
  | .binary .. | .negate .. | .branch .. | .pairBranch .. | .jump _ | .switch ..
  | .constructArray .. | .constructMultiArray .. | .arrayLength .. | .cloneArray ..
  | .unwrapArray .. | .initClass _ => []

/-- A phi holds the object of whichever value flows in. -/
def Phi.facts (p : Phi) : List Fact := p.incomings.map fun i => .copy p.dest i.value

def Block.facts (b : Block) : List Fact :=
  b.phis.flatMap Phi.facts ++ b.instructions.flatMap Instruction.facts

def Program.facts (p : Program) : List Fact := p.blocks.toList.flatMap Block.facts

namespace Fact

def copies (facts : List Fact) : List (Variable × Variable) :=
  facts.filterMap fun
    | .copy dest source => some (dest, source)
    | _ => none

def escapees (facts : List Fact) : List Variable :=
  facts.filterMap fun
    | .escapes v => some v
    | _ => none

def fieldEdges (facts : List Fact) : List (Variable × Variable) :=
  facts.filterMap fun
    | .holds object value => some (object, value)
    | _ => none

def allocations (facts : List Fact) : List Variable :=
  facts.filterMap fun
    | .allocates v => some v
    | _ => none

end Fact

end MethodFlow
