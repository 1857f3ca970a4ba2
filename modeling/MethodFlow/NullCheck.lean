import MethodFlow.Program
/-!
# Null-check insertion

Makes the check explicit that dynamic dispatch does on its object: an invocation of a chosen kind
on an object is made on a fresh variable, and a null check in front of it gives that variable
the object. Fresh variables are appended, block by block and from the end of each block.
-/

namespace MethodFlow

/-- The kinds that are guarded unless others are chosen. -/
def guardedByDefault : List Dispatch := [.virtual]

/-- The call and the object of an invocation of one of these kinds that has an object. -/
def Instruction.guarded? (kinds : List Dispatch) : Instruction → Option (Invocation × Variable)
  | .invoke call => if call.dispatch ∈ kinds then call.object.map fun object => (call, object)
    else none
  | _ => none

/-- Guards the last instruction first; `next` is the number of the next fresh variable. -/
def guardInstruction (kinds : List Dispatch) (i : Instruction) (rest : List Instruction)
    (next : Nat) : Except Violation (List Instruction × Nat) :=
  match i.guarded? kinds with
  | some (call, object) => do
    let checked ← Variable.ofIndex next
    return (.nullCheck checked object :: .invoke { call with object := some checked } :: rest,
      next + 1)
  | none => .ok (i :: rest, next)

def guardInstructions (kinds : List Dispatch) (is : List Instruction) (next : Nat) :
    Except Violation (List Instruction × Nat) :=
  is.foldr
    (fun i done => do
      let (rest, next) ← done
      guardInstruction kinds i rest next)
    (.ok ([], next))

/-- Guards the blocks one after the other. -/
def guardBlocks (kinds : List Dispatch) (blocks : List Block) (next : Nat) :
    Except Violation (Array Block × Nat) :=
  blocks.foldlM
    (fun (done, next) b => do
      let (instructions, next) ← guardInstructions kinds b.instructions next
      return (done.push { b with instructions }, next))
    (#[], next)

/-- Guards every invocation of these kinds and tells how many there were.  A program of more than
`indexLimit` blocks, the last of which have no label, is outside the model. -/
def Program.insertNullChecks (p : Program) (kinds : List Dispatch) :
    Except Violation (Nat × Program) := do
  let (blocks, next) ← guardBlocks kinds p.blocks.toList p.variableCount
  let inserted := next - p.variableCount
  return (inserted, ⟨blocks, p.infos ++ .replicate inserted ⟨none⟩⟩)

end MethodFlow
