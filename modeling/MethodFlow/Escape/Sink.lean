import MethodFlow.Escape.Analysis
/-!
# Sinks

A coarser analysis, instruction by instruction: a variable escapes if a sink reads it. Branches,
stores, calls, monitors and what ends the method are sinks; copies and phis are not followed.
-/

namespace MethodFlow

def Instruction.sinks : Instruction → List Variable
  | .branch _ operand _ _ => [operand]
  | .pairBranch _ first second _ _ => [first, second]
  | .switch subject _ _ => [subject]
  | .exit value => value.toList
  | .raise exception => [exception]
  | .putField object value _ _ => object.toList ++ [value]
  | .putElement array index value _ => [array, index, value]
  | .invoke call => call.object.toList ++ call.arguments
  | .invokeDynamic call => call.object.toList ++ call.arguments
  | .monitorEnter object => [object]
  | .monitorExit object => [object]
  | _ => []

def Program.sinkFlags (p : Program) : Except MethodError (Array Bool) := do
  p.verifyOperands
  let sinks := p.blocks.toList.flatMap fun b => b.instructions.flatMap Instruction.sinks
  return EscapeFacts.marksOf p.variableCount (sinks.map (·.index))

end MethodFlow
