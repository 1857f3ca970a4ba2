import MethodFlow.ControlFlow
import MethodFlow.Graph.Reach
/-!
# Well-formed programs

What an analysis relies on. Operands must refer to variables and blocks of the program; control
transfers must come last and calls, array constructions and switches must make sense by
themselves; and the phis of every block that control can reach must agree with the control-flow
graph. Checks come in this order, and the first failure is the error.
-/

namespace MethodFlow

/-! ## Operands -/

def Phi.sites (p : Phi) (block : Nat) : List (Operand × Site) :=
  (.variable p.dest, .phiDest block)
    :: p.incomings.map (fun i => (.variable i.value, .phiValue block))
    ++ p.incomings.map (fun i => (.label i.source, .phiSource block))

/-- The operands of an instruction, what it defines first and its targets last. -/
def Instruction.operands (i : Instruction) : List Operand :=
  i.dest?.toList.map .variable ++ i.uses.map .variable ++ (i.targets?.getD []).map .label

namespace Block

def sites (b : Block) : List (Operand × Site) :=
  b.phis.flatMap (·.sites b.label.index)
    ++ b.instructions.zipIdx.flatMap fun (i, position) =>
      i.operands.map fun operand => (operand, .instruction i.kind b.label.index position)

end Block

namespace Program

/-- The error that an operand is when the program has no such variable or block. -/
def dangling? (p : Program) : Operand × Site → Option MethodError
  | (.variable v, site) =>
    if v.index < p.variableCount then none
    else some (.danglingVariable v.index p.variableCount site)
  | (.label l, site) =>
    if l.index < p.blockCount then none
    else some (.danglingLabel l.index p.blockCount site)

def sites (p : Program) : List (Operand × Site) := p.blocks.toList.flatMap Block.sites

def verifyOperands (p : Program) : Except MethodError Unit :=
  match p.sites.findSome? p.dangling? with
  | some e => .error e
  | none => .ok ()

end Program

/-! ## Instructions -/

/-- The first value that an earlier one equals. -/
def firstRepeated? : (seen : List Int32) → List Int32 → Option Int32
  | _, [] => none
  | seen, n :: rest => if n ∈ seen then some n else firstRepeated? (n :: seen) rest

def Instruction.malformation? : Instruction → Option Malformation
  | .invoke call =>
    match call.dispatch.needsObject, call.object with
    | true, none => some (.missingObject call.dispatch call.method)
    | false, some _ => some (.unwantedObject call.method)
    | _, _ => none
  | .constructMultiArray _ [] _ => some .noDimensions
  | .switch _ table _ => (firstRepeated? [] (table.map (·.value))).map .repeatedCase
  | _ => none

namespace Block

/-- The first instruction that is malformed or out of place. -/
def malformed? (b : Block) : Option MethodError :=
  b.instructions.zipIdx.findSome? fun (i, position) =>
    if i.isControlTransfer ∧ position + 1 ≠ b.instructions.length then
      some (.malformedInstruction b.label.index position (.notLast i.kind))
    else i.malformation?.map (.malformedInstruction b.label.index position)

end Block

/-! ## Phis -/

/-- The first source that is no predecessor or came before. -/
def sourceDefect? (dest : Nat) (predecessors : List Nat) :
    (seen : List Nat) → List Nat → Option PhiDefect
  | _, [] => none
  | seen, source :: rest =>
    if source ∉ predecessors then some (.notPredecessor dest source)
    else if source ∈ seen then some (.repeatedSource dest source)
    else sourceDefect? dest predecessors (source :: seen) rest

/-- How a phi disagrees with the predecessors of its block: every source must be one of them and
appear once, and every one that control reaches must be a source.  If several are missing, the
smallest is named, though any of them would do. -/
def Phi.defect? (p : Phi) (predecessors : List Nat) (reachable : Array Bool) : Option PhiDefect :=
  let sources := p.incomings.map (·.source.index)
  match sourceDefect? p.dest.index predecessors [] sources with
  | some defect => some defect
  | none =>
    (predecessors.find? fun b => reachable[b]?.getD false && !sources.contains b).map
      (.missingSource p.dest.index)

/-- The first phi of a block that control reaches and that disagrees with the graph. -/
def Block.invalidPhi? (b : Block) (g : Adjacency) (reachable : Array Bool) : Option MethodError :=
  if reachable[b.label.index]?.getD false then
    b.phis.findSome? fun phi =>
      (phi.defect? (Graph.predecessors g b.label.index) reachable).map
        (.invalidPhi b.label.index)
  else none

namespace Program

/-- Which blocks control can reach from the first one. -/
def reachableBlocks (p : Program) (g : Adjacency) : Array Bool :=
  Graph.spread g (.replicate p.blockCount false) [0]

/-- Whether the program is well-formed. -/
def verify (p : Program) : Except MethodError Unit := do
  p.verifyOperands
  match p.blocks.toList.findSome? Block.malformed? with
  | some e => throw e
  | none =>
    let g ← p.controlFlow
    let reachable := p.reachableBlocks g
    match p.blocks.toList.findSome? (·.invalidPhi? g reachable) with
    | some e => throw e
    | none => return ()

end Program

end MethodFlow
