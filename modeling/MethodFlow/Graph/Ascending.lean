/-!
# Ascending lists

Sets of numbers as strictly ascending lists.
-/

namespace MethodFlow.Ascending

def dropRepeats (l : List Nat) : List Nat :=
  l.foldr (fun n rest => if rest.head? = some n then rest else n :: rest) []

/-- The numbers of a list, ascending and each once. -/
def ofList (l : List Nat) : List Nat := dropRepeats (l.mergeSort (· ≤ ·))

/-- Adds a number to an ascending list, unless it is there. -/
def insert (n : Nat) : List Nat → List Nat
  | [] => [n]
  | m :: rest =>
    if n < m then n :: m :: rest
    else if n = m then m :: rest
    else m :: insert n rest

end MethodFlow.Ascending
