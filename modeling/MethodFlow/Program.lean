import MethodFlow.Error
import MethodFlow.Instruction.Operands
/-!
# Programs

A program is the body of one method: a table of variables and a list of basic blocks. Variables
and blocks are numbered by their place and only ever appended.
-/

namespace MethodFlow

/-- The value that flows into a phi when control comes from `source`. -/
structure Incoming where
  source : Label
  value : Variable
deriving DecidableEq, Repr

/-- A merge point: `dest` takes the value of the incoming whose source control came from. -/
structure Phi where
  dest : Variable
  incomings : List Incoming
deriving DecidableEq, Repr

namespace Phi

def empty (dest : Variable) : Phi := ⟨dest, []⟩

def addIncoming (p : Phi) (source : Label) (value : Variable) : Phi :=
  { p with incomings := p.incomings ++ [⟨source, value⟩] }

def uses (p : Phi) : List Variable := p.incomings.map (·.value)

def mapLabels (f : Label → Label) (p : Phi) : Phi :=
  { p with incomings := p.incomings.map fun i => { i with source := f i.source } }

def mapLabelsM {m : Type → Type} [Monad m] (f : Label → m Label) (p : Phi) : m Phi := do
  return { p with
    incomings := ← p.incomings.mapM fun i => return { i with source := ← f i.source } }

end Phi

/-- Straight-line code: phis, then instructions, of which the last alone may transfer control. -/
structure Block where
  label : Label
  phis : List Phi
  instructions : List Instruction
deriving DecidableEq, Repr

namespace Block

def empty (label : Label) : Block := ⟨label, [], []⟩

def isEmpty (b : Block) : Bool := b.phis.isEmpty && b.instructions.isEmpty

def last? (b : Block) : Option Instruction := b.instructions.getLast?

def add (b : Block) (i : Instruction) : Block := { b with instructions := b.instructions ++ [i] }

def addAll (b : Block) (is : List Instruction) : Block :=
  { b with instructions := b.instructions ++ is }

/-- Puts `i` in front of the instruction at `position`; the end of the block is a position. -/
def insert (b : Block) (position : Nat) (i : Instruction) : Except Violation Block :=
  if position ≤ b.instructions.length then
    .ok { b with
      instructions := b.instructions.take position ++ i :: b.instructions.drop position }
  else .error .positionPastEnd

def addPhi (b : Block) (p : Phi) : Block := { b with phis := b.phis ++ [p] }

/-- Renames every label that a phi or an instruction refers to; the block keeps its own. -/
def mapLabels (f : Label → Label) (b : Block) : Block :=
  { b with phis := b.phis.map (·.mapLabels f), instructions := b.instructions.map (·.mapLabels f) }

/-- Renames by an effectful renaming: phi by phi, source by source, then by instruction. -/
def mapLabelsM {m : Type → Type} [Monad m] (f : Label → m Label) (b : Block) : m Block := do
  let phis ← b.phis.mapM (·.mapLabelsM f)
  let instructions ← b.instructions.mapM (·.mapLabelsM f)
  return { b with phis, instructions }

/-- Renames by a renaming that may fail: labels up to the first failure are renamed, those from
there on kept. -/
def renameUntil {ε : Type} (f : Label → Except ε Label) (b : Block) : Block × Option ε :=
  let step (l : Label) : StateM (Option ε) Label := do
    match ← get with
    | some _ => return l
    | none =>
      match f l with
      | .ok l' => return l'
      | .error e => set (some e); return l
  (b.mapLabelsM step).run none

def sameValue (a b : Block) : Bool :=
  a.label == b.label && a.phis == b.phis && a.instructions.length == b.instructions.length
    && (a.instructions.zip b.instructions).all fun (i, j) => i.sameValue j

end Block

/-- What a program knows of a variable: its name in the source text, if it had one. -/
structure VariableInfo where
  sourceName : Option String
deriving DecidableEq, Repr

structure Program where
  blocks : Array Block
  infos : Array VariableInfo
deriving DecidableEq, Repr

namespace Program

def empty : Program := ⟨#[], #[]⟩

/-- A program without blocks whose first variables are the `count` slots of the parameters. -/
def withVariables (count : Nat) : Except Violation Program :=
  if count ≤ indexLimit then .ok ⟨#[], .replicate count ⟨none⟩⟩ else .error .variableTooLarge

def variableCount (p : Program) : Nat := p.infos.size

def blockCount (p : Program) : Nat := p.blocks.size

/-! ## Growing -/

def createVariable (p : Program) (name : Option String) : Except Violation (Variable × Program) := do
  let v ← Variable.ofIndex p.variableCount
  return (v, { p with infos := p.infos.push ⟨name⟩ })

def createBlock (p : Program) : Except Violation (Label × Program) := do
  let l ← Label.ofIndex p.blockCount
  return (l, { p with blocks := p.blocks.push (.empty l) })

/-! ## Looking up -/

/-- The number of a variable that the program has; `site` is asked for only in the error. -/
def checkVariableM {m : Type → Type} [Monad m] (p : Program) (v : Variable) (site : m Site) :
    m (Except MethodError Nat) :=
  if v.index < p.variableCount then pure (.ok v.index)
  else do return .error (.danglingVariable v.index p.variableCount (← site))

/-- The number of a block that the program has; `site` is asked for only in the error. -/
def checkLabelM {m : Type → Type} [Monad m] (p : Program) (l : Label) (site : m Site) :
    m (Except MethodError Nat) :=
  if l.index < p.blockCount then pure (.ok l.index)
  else do return .error (.danglingLabel l.index p.blockCount (← site))

def checkVariable (p : Program) (v : Variable) (site : Site) : Except MethodError Nat :=
  Id.run (p.checkVariableM v (pure site))

def checkLabel (p : Program) (l : Label) (site : Site) : Except MethodError Nat :=
  Id.run (p.checkLabelM l (pure site))

def nameOf (p : Program) (v : Variable) : Except MethodError (Option String) :=
  match p.infos[v.index]? with
  | some info => .ok info.sourceName
  | none => .error (.danglingVariable v.index p.variableCount (.named "variable lookup"))

def block (p : Program) (l : Label) : Except MethodError Block :=
  match p.blocks[l.index]? with
  | some b => .ok b
  | none => .error (.danglingLabel l.index p.blockCount (.named "block lookup"))

/-- Replaces the block at `l`, where the program has one. -/
def setBlock (p : Program) (l : Label) (b : Block) : Program :=
  { p with blocks := p.blocks.setIfInBounds l.index b }

def modifyBlock (p : Program) (l : Label) (f : Block → Block) : Except MethodError Program := do
  return p.setBlock l (f (← p.block l))

def sameValue (p q : Program) : Bool :=
  p.infos == q.infos && p.blocks.size == q.blocks.size
    && (p.blocks.zip q.blocks).all fun (a, b) => a.sameValue b

end Program

end MethodFlow
