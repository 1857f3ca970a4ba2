/-!
# Breaches of a precondition

What a caller must guarantee and did not. A violation is no answer about the program under
analysis: it ends the call that met it.
-/

namespace MethodFlow

/-- Variables and blocks are numbered below this bound. -/
def indexLimit : Nat := 0x100000000

/-- Sizes and positions are machine words, below this bound. -/
def wordLimit : Nat := 0x10000000000000000

/-- A table of this many rows would fill half of the address space. -/
def tableLimit : Nat := 0x8000000000000000 / 24

inductive Violation where
  | variableTooLarge
  | labelTooLarge
  | unknownVariable (index count : Nat)
  | sizeOverflow
  | tableTooLarge
  | shortBuffer
  | positionPastEnd
  | unknownNode
  | outsideTable
deriving DecidableEq, Repr

def Violation.message? : Violation → Option String
  | .variableTooLarge => some "variable index does not fit in u32"
  | .labelTooLarge => some "block index does not fit in u32"
  | .unknownVariable index count => some s!"v{index} is not in this program ({count} variables)"
  | _ => none

/-- The table of the numbers up to `n` must have a size that is a word. -/
def checkNumber (n : Nat) : Except Violation Unit :=
  if n + 1 < wordLimit then .ok () else .error .sizeOverflow

/-- A table to be made at once must fit the address space. -/
def checkSize (n : Nat) : Except Violation Unit :=
  if n < tableLimit then .ok () else .error .tableTooLarge

end MethodFlow
