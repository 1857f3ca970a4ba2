import MethodFlow.Violation
/-!
# Variables and labels

An instruction refers to variables and to blocks by number. A variable is its place in the
program's variable table, a label the place of a block among the program's blocks.
-/

namespace MethodFlow

structure Variable where
  index : Nat
  index_lt : index < indexLimit
deriving DecidableEq, Repr

/-- Names a block by its place in the program. -/
structure Label where
  index : Nat
  index_lt : index < indexLimit
deriving DecidableEq, Repr

namespace Variable

def ofIndex (n : Nat) : Except Violation Variable :=
  if h : n < indexLimit then .ok ⟨n, h⟩ else .error .variableTooLarge

def text (v : Variable) : String := s!"v{v.index}"

@[ext] theorem ext {v w : Variable} (h : v.index = w.index) : v = w := by
  cases v; cases w; cases h; rfl

end Variable

namespace Label

def ofIndex (n : Nat) : Except Violation Label :=
  if h : n < indexLimit then .ok ⟨n, h⟩ else .error .labelTooLarge

/-- The block that control falls through to, when its number is still a label. -/
def next? (l : Label) : Option Label :=
  if h : l.index + 1 < indexLimit then some ⟨l.index + 1, h⟩ else none

def text (l : Label) : String := s!"#{l.index}"

@[ext] theorem ext {l m : Label} (h : l.index = m.index) : l = m := by
  cases l; cases m; cases h; rfl

end Label

inductive Operand where
  | variable (v : Variable)
  | label (l : Label)
deriving DecidableEq, Repr

end MethodFlow
