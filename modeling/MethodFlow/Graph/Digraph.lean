import MethodFlow.Graph.Ascending
import MethodFlow.Graph.Basic
/-!
# Edited graphs

A graph that is changed edge by edge. It has as many nodes as its largest node so far asks for,
and no edge twice.
-/

namespace MethodFlow

structure Digraph where
  successors : Array (List Nat)
  predecessors : Array (List Nat)
deriving DecidableEq, Repr

instance : Graph Digraph where
  size g := g.successors.size
  successors g node := g.successors[node]?.getD []
  predecessors g node := g.predecessors[node]?.getD []

namespace Digraph

def empty : Digraph := ⟨#[], #[]⟩

def size (g : Digraph) : Nat := g.successors.size

/-- Adds nodes without edges until there are at least `size` nodes. -/
def grow (g : Digraph) (size : Nat) : Digraph :=
  ⟨g.successors ++ .replicate (size - g.successors.size) [],
    g.predecessors ++ .replicate (size - g.predecessors.size) []⟩

/-- Adds an edge, and the nodes up to its ends where they are missing. -/
def addEdge (g : Digraph) (source target : Nat) : Digraph :=
  let g := g.grow (max source target + 1)
  ⟨g.successors.modify source (Ascending.insert target),
    g.predecessors.modify target (Ascending.insert source)⟩

def hasEdge (g : Digraph) (source target : Nat) : Bool :=
  (Graph.successors g source).contains target

/-- Takes an edge away and tells whether it was there; the nodes stay. -/
def removeEdge (g : Digraph) (source target : Nat) : Bool × Digraph :=
  (g.hasEdge source target,
    ⟨g.successors.modify source (·.erase target), g.predecessors.modify target (·.erase source)⟩)

def ofGraph {γ : Type} [Graph γ] (g : γ) : Digraph :=
  ((Graph.edges g).foldl (fun copy (source, target) => copy.addEdge source target) empty).grow
    (Graph.size g)

/-- Adds an edge whose ends leave room for a table. -/
def addChecked (g : Digraph) (source target : Nat) : Except Violation Digraph := do
  checkNumber (max source target)
  return g.addEdge source target

end Digraph

end MethodFlow
