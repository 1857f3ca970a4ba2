import MethodFlow.Instruction
/-!
# Operands of an instruction

The variable that an instruction defines, the variables that it reads, the labels that it may
transfer control to, and the renaming of labels.
-/

namespace MethodFlow.Instruction

def dest? : Instruction → Option Variable
  | .intConstant dest _ | .longConstant dest _ | .floatConstant dest _ | .doubleConstant dest _
  | .stringConstant dest _ | .classConstant dest _ | .nullConstant dest
  | .assign dest _ | .cast dest _ _ | .castNumber dest .. | .castInteger dest ..
  | .binary dest .. | .negate dest .. | .construct dest _ | .constructArray dest ..
  | .constructMultiArray dest .. | .getField dest .. | .getElement dest .. | .arrayLength dest _
  | .cloneArray dest _ | .unwrapArray dest .. | .isInstance dest .. | .nullCheck dest _ => some dest
  | .invoke call => call.dest
  | .invokeDynamic call => call.dest
  | .branch .. | .pairBranch .. | .jump _ | .switch .. | .exit _ | .raise _ | .putField ..
  | .putElement .. | .initClass _ | .monitorEnter _ | .monitorExit _ => none

/-- The variables that the instruction reads, in operand order; a call reads its arguments before
its object. -/
def uses : Instruction → List Variable
  | .intConstant .. | .longConstant .. | .floatConstant .. | .doubleConstant ..
  | .stringConstant .. | .classConstant .. | .nullConstant _ | .jump _ | .construct ..
  | .initClass _ => []
  | .assign _ source => [source]
  | .cast _ source _ => [source]
  | .castNumber _ source _ _ => [source]
  | .castInteger _ source _ _ => [source]
  | .binary _ _ _ first second => [first, second]
  | .negate _ operand _ => [operand]
  | .branch _ operand _ _ => [operand]
  | .pairBranch _ first second _ _ => [first, second]
  | .switch subject _ _ => [subject]
  | .exit value => value.toList
  | .raise exception => [exception]
  | .constructArray _ size _ => [size]
  | .constructMultiArray _ dimensions _ => dimensions
  | .getField _ object _ _ => object.toList
  | .putField object value _ _ => object.toList ++ [value]
  | .getElement _ array index _ => [array, index]
  | .putElement array index value _ => [array, index, value]
  | .arrayLength _ array => [array]
  | .cloneArray _ array => [array]
  | .unwrapArray _ array _ => [array]
  | .isInstance _ value _ => [value]
  | .invoke call => call.arguments ++ call.object.toList
  | .invokeDynamic call => call.arguments ++ call.object.toList
  | .nullCheck _ value => [value]
  | .monitorEnter object => [object]
  | .monitorExit object => [object]

/-- Where control may go after the instruction, or `none` if it falls through. A switch names its
table's targets before the one it takes otherwise. -/
def targets? : Instruction → Option (List Label)
  | .branch _ _ consequent alternative => some [consequent, alternative]
  | .pairBranch _ _ _ consequent alternative => some [consequent, alternative]
  | .jump target => some [target]
  | .switch _ table otherwise => some (table.map (·.target) ++ [otherwise])
  | .exit _ | .raise _ => some []
  | _ => none

/-- Renames every label, in the order of `targets?`. -/
def mapLabels (f : Label → Label) : Instruction → Instruction
  | .branch condition operand consequent alternative =>
    .branch condition operand (f consequent) (f alternative)
  | .pairBranch condition first second consequent alternative =>
    .pairBranch condition first second (f consequent) (f alternative)
  | .jump target => .jump (f target)
  | .switch subject table otherwise =>
    .switch subject (table.map fun row => { row with target := f row.target }) (f otherwise)
  | i => i

/-- Renames every label by an effectful renaming, whose effects run in the order of `targets?`. -/
def mapLabelsM {m : Type → Type} [Monad m] (f : Label → m Label) : Instruction → m Instruction
  | .branch condition operand consequent alternative => do
    let consequent ← f consequent
    let alternative ← f alternative
    return .branch condition operand consequent alternative
  | .pairBranch condition first second consequent alternative => do
    let consequent ← f consequent
    let alternative ← f alternative
    return .pairBranch condition first second consequent alternative
  | .jump target => return .jump (← f target)
  | .switch subject table otherwise => do
    let table ← table.mapM fun row => return { row with target := ← f row.target }
    let otherwise ← f otherwise
    return .switch subject table otherwise
  | i => return i

theorem isControlTransfer_eq_isSome_targets? (i : Instruction) :
    i.isControlTransfer = i.targets?.isSome := by
  cases i <;> rfl

end MethodFlow.Instruction
