import MethodFlow.Graph.Adjacency
import MethodFlow.Program
/-!
# Control flow

Edges between blocks are not stored. They follow from the last instruction of a block: to its
targets if it transfers control, and else to the next block of the program, if there is one.
-/

namespace MethodFlow.Program

/-- The blocks that control may go to from the block at `l`, in the order of its targets. -/
def successors (p : Program) (l : Label) : Except MethodError (List Label) := do
  let b ← p.block l
  match b.last?.bind Instruction.targets? with
  | some targets => return targets
  | none => return if l.index + 1 < p.blockCount then l.next?.toList else []

/-- The control-flow edges from a block, looked up by the label that the block carries. -/
def edgesFrom (p : Program) (b : Block) : Except MethodError (List (Nat × Nat)) := do
  (← p.successors b.label).mapM fun target => do
    let target ← p.checkLabel target (.named "control transfer target")
    return (b.label.index, target)

def controlEdges (p : Program) : Except MethodError (List (Nat × Nat)) := do
  return (← p.blocks.toList.mapM p.edgesFrom).flatten

def controlFlow (p : Program) : Except MethodError Adjacency := do
  return .ofEdges p.blockCount (← p.controlEdges)

def predecessors (p : Program) : Except MethodError (List (List Nat)) := do
  let g ← p.controlFlow
  return (List.range p.blockCount).map (Graph.predecessors g)

end MethodFlow.Program
