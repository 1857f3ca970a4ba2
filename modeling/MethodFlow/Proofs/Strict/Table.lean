import MethodFlow.Violation
/-!
# Strict tables

Reading beside a table is answered with a default, and writing beside it does nothing.  Here both
are a violation, so that a computation whose strict form succeeds has met neither.
-/

namespace MethodFlow.Strict

variable {α : Type} {table : Array α} {i : Nat} {a : α}

/-- The entry of a table, which must be there. -/
def read (table : Array α) (i : Nat) : Except Violation α :=
  match table[i]? with
  | some a => .ok a
  | none => .error .outsideTable

def write (table : Array α) (i : Nat) (a : α) : Except Violation (Array α) :=
  if i < table.size then .ok (table.setIfInBounds i a) else .error .outsideTable

def update (table : Array α) (i : Nat) (f : α → α) : Except Violation (Array α) :=
  if i < table.size then .ok (table.modify i f) else .error .outsideTable

theorem read_eq_ok (h : table[i]? = some a) : read table i = .ok a := by
  unfold read
  rw [h]

theorem read_eq_ok_getD (h : i < table.size) (default : α) :
    read table i = .ok (table[i]?.getD default) := by
  unfold read
  rw [Array.getElem?_eq_getElem h]
  rfl

theorem write_eq_ok (h : i < table.size) : write table i a = .ok (table.setIfInBounds i a) :=
  if_pos h

theorem update_eq_ok (h : i < table.size) {f : α → α} :
    update table i f = .ok (table.modify i f) := if_pos h

end MethodFlow.Strict
