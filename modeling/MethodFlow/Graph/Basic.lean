import MethodFlow.Violation
/-!
# Directed graphs

What every graph can be asked, and how it is exported. Nodes are numbered from 0; a node outside
the graph has no edges.
-/

namespace MethodFlow

class Graph (γ : Type) where
  size : γ → Nat
  successors : γ → Nat → List Nat
  predecessors : γ → Nat → List Nat

namespace Graph

variable {γ : Type} [Graph γ]

def outDegree (g : γ) (node : Nat) : Nat := (successors g node).length

def inDegree (g : γ) (node : Nat) : Nat := (predecessors g node).length

def edgeCount (g : γ) : Nat :=
  ((List.range (size g)).flatMap (successors g)).length

/-! ## Copying into a buffer -/

/-- Writes a list over the front of a buffer, which must have room for it. -/
def fill (buffer edges : List Nat) : Except Violation (Nat × List Nat) :=
  if edges.length ≤ buffer.length then .ok (edges.length, edges ++ buffer.drop edges.length)
  else .error .shortBuffer

def copySuccessors (g : γ) (node : Nat) (buffer : List Nat) : Except Violation (Nat × List Nat) :=
  fill buffer (successors g node)

def copyPredecessors (g : γ) (node : Nat) (buffer : List Nat) :
    Except Violation (Nat × List Nat) :=
  fill buffer (predecessors g node)

/-! ## Export -/

/-- The edges by source, and for one source in the order of its successors. -/
def edges (g : γ) : List (Nat × Nat) :=
  (List.range (size g)).flatMap fun node => (successors g node).map fun target => (node, target)

structure Listing where
  nodes : List Nat
  edges : List (Nat × Nat)
deriving DecidableEq, Repr

/-- The listing of a graph none of whose edges leads out of it. -/
def listing (g : γ) : Except Violation Listing :=
  if (edges g).all fun edge => edge.2 < size g then .ok ⟨List.range (size g), edges g⟩
  else .error .unknownNode

/-- A listing as a drawing in the DOT language, each node labelled by its number. -/
def Listing.dot (l : Listing) : String :=
  let node (n : Nat) : String := s!"    {n} [ label = \"{n}\" ]\n"
  let edge (e : Nat × Nat) : String := s!"    {e.1} -> {e.2} [ ]\n"
  "digraph \x7b\n" ++ String.join (l.nodes.map node) ++ String.join (l.edges.map edge) ++ "\x7d\n"

def dot (g : γ) : Except Violation String := (listing g).map Listing.dot

end Graph

end MethodFlow
