import MethodFlow.ControlFlow
/-!
# Node splitting

Gives a set of blocks, the nodes, copies of their own that are entered only from a domain of
other blocks. Copies are appended, and every reference to a node from a copy or from the domain
is turned to the copy of that node. The nodes stay where they are. A copy is a new predecessor of
the blocks it leaves for, so their phis take from the copy what they took from the node.
-/

namespace MethodFlow

abbrev Edited (α : Type) := Except MethodError α × Program

namespace Program

def firstUnknown? (p : Program) (what : String) (labels : List Label) : Option MethodError :=
  labels.findSome? fun l =>
    match p.checkLabel l (.named what) with
    | .ok _ => none
    | .error e => some e

/-- Appends a copy of each node and gives the labels of the copies. -/
def copyBlocks (p : Program) (nodes : List Label) : Except Violation (List Label × Program) :=
  nodes.foldlM
    (fun (copies, p) node => do
      let (copy, q) ← p.createBlock
      let original := (p.blocks[node.index]?).getD (.empty node)
      return (copies ++ [copy], q.setBlock copy { original with label := copy }))
    ([], p)

/-- The copy that stands for a label, if it is that of a node; of a node named twice the last. -/
def copyOf? (pairs : List (Label × Label)) (l : Label) : Option Label :=
  (pairs.reverse.find? fun pair => pair.1 == l).map (·.2)

def redirect (pairs : List (Label × Label)) (l : Label) : Label := (copyOf? pairs l).getD l

def redirectBlocks (p : Program) (pairs : List (Label × Label)) (labels : List Label) : Program :=
  labels.foldl
    (fun p l => { p with blocks := p.blocks.modify l.index (·.mapLabels (redirect pairs)) }) p

end Program

/-- Takes from `copy` what is taken from `node`, unless something is taken from `copy` already. -/
def Phi.extend (phi : Phi) (node copy : Label) : Phi :=
  if phi.incomings.any fun i => i.source == copy then phi
  else
    let taken := phi.incomings.filter fun i => i.source == node
    { phi with incomings := phi.incomings ++ taken.map fun i => { i with source := copy } }

namespace Program

/-- Whether a block is outside the region: neither node nor copy nor in the domain. -/
def isExit (pairs : List (Label × Label)) (domain : List Label) (l : Label) : Bool :=
  !(pairs.any fun pair => pair.1 == l)
    && !(pairs.any fun pair => pair.2 == l && copyOf? pairs pair.1 == some l)
    && !domain.contains l

/-- Extends the phis of these blocks, up to the first that the program does not have. -/
def extendPhis (p : Program) (node copy : Label) : List Label → Edited Unit
  | [] => (.ok (), p)
  | exit :: rest =>
    match p.modifyBlock exit fun b => { b with phis := b.phis.map (·.extend node copy) } with
    | .ok p => p.extendPhis node copy rest
    | .error e => (.error e, p)

/-- The blocks outside the region that control may leave a copy for, in order. -/
def exitsOf (p : Program) (pairs : List (Label × Label)) (domain : List Label) (copy : Label) :
    Except MethodError (List Label) := do
  let targets ← p.successors copy
  let ordered := (targets.mergeSort fun a b => a.index ≤ b.index).eraseReps
  return ordered.filter (isExit pairs domain)

/-- Extends the phis of the exits of each copy, up to the first failure. -/
def extendExits (p : Program) (pairs : List (Label × Label)) (domain : List Label) :
    List (Label × Label) → Edited Unit
  | [] => (.ok (), p)
  | (node, copy) :: rest =>
    match p.exitsOf pairs domain copy with
    | .error e => (.error e, p)
    | .ok exits =>
      match p.extendPhis node copy exits with
      | (.ok (), p) => p.extendExits pairs domain rest
      | (.error e, p) => (.error e, p)

def split (p : Program) (domain nodes : List Label) : Except Violation (Edited (List Label)) := do
  match p.firstUnknown? "split node" nodes, p.firstUnknown? "split domain" domain with
  | some e, _ | none, some e => return (.error e, p)
  | none, none =>
    let (copies, p) ← p.copyBlocks nodes
    let pairs := nodes.zip copies
    let p := p.redirectBlocks pairs (copies ++ domain)
    let (result, p) := p.extendExits pairs domain pairs
    return (result.map fun _ => copies, p)

end Program

end MethodFlow
