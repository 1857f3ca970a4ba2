import MethodFlow.Datum
import MethodFlow.Graph.Ascending
import MethodFlow.Graph.Basic
/-!
# Built graphs

A graph is built once from its edges and then only asked. A built graph has its successor and
predecessor lists strictly ascending.
-/

namespace MethodFlow

structure Adjacency where
  successors : Array (List Nat)
  predecessors : Array (List Nat)
deriving DecidableEq, Repr

instance : Graph Adjacency where
  size g := g.successors.size
  successors g node := g.successors[node]?.getD []
  predecessors g node := g.predecessors[node]?.getD []

namespace Adjacency

/-- The edges of a graph to be, by source and in any order. -/
structure Builder where
  targets : Array (List Nat)

namespace Builder

def ofSize (n : Nat) : Builder := ⟨.replicate n []⟩

/-- Adds nodes without edges until there are at least `size` nodes. -/
def grow (b : Builder) (size : Nat) : Builder :=
  ⟨b.targets ++ .replicate (size - b.targets.size) []⟩

/-- Adds an edge, and the nodes up to its ends where they are missing. -/
def addEdge (b : Builder) (source target : Nat) : Builder :=
  let b := b.grow (max source target + 1)
  ⟨b.targets.modify source (target :: ·)⟩

def recordSource (predecessors : Array (List Nat)) (node : Nat) (targets : List Nat) :
    Array (List Nat) :=
  targets.foldl (fun table target => table.modify target (node :: ·)) predecessors

/-- Orders the edges and drops repetitions. Going through the sources downwards leaves the
predecessor lists ascending. -/
def build (b : Builder) : Adjacency :=
  let successors := b.targets.map Ascending.ofList
  let predecessors := (List.range successors.size).foldr
    (fun node table => recordSource table node (successors[node]?.getD []))
    (.replicate successors.size [])
  ⟨successors, predecessors⟩

end Builder

/-- The graph of these edges, with at least `size` nodes. -/
def ofEdges (size : Nat) (edges : List (Nat × Nat)) : Adjacency :=
  (edges.foldl (fun b (source, target) => b.addEdge source target) (Builder.ofSize size)).build

/-- The graph of these edges, whose numbers must leave room for a table. -/
def ofEdgesChecked (size : Nat) (edges : List (Nat × Nat)) : Except Violation Adjacency := do
  checkSize size
  edges.forM fun (source, target) => do
    checkNumber (max source target)
    checkSize (max source target)
  return ofEdges size edges

end Adjacency

instance : Codec Adjacency where
  encode g := .record [
    ("successors", encode g.successors),
    ("predecessors", encode g.predecessors)]
  decode d := return {
    successors := ← d.field "successors"
    predecessors := ← d.field "predecessors" }

end MethodFlow
