import MethodFlow.Proofs.Graph.Copying
/-!
# Nothing is lost on the way

A graph is copied through one buffer, which still holds the row of the node before, and it is handed
over to a library of graphs by adding its nodes and then its edges. Either way it can be told again
from what comes out:

* `copyThrough_eq_ok`: whatever is left in the buffer does not get into the copy;
* `HasEdges.ext`: a graph is told by its size and its edges;
* `pairwise_edges`: edges are listed by their ends, each once;
* `exportTo_eq_ok`: a library that appends holds the nodes and the edges in this order;
* `copying_keeps_all`: graphs that are edited, copied or built are kept whole.
-/

namespace MethodFlow

/-! ## Copying through a buffer -/

namespace Graph

variable {γ : Type} [Graph γ] {g : γ} {node : Nat}

/-- Gives a buffer `count` cells, new ones holding 0. -/
def resize (buffer : List Nat) (count : Nat) : List Nat :=
  buffer.take count ++ List.replicate (count - buffer.length) 0

/-- Adds the edges that leave a node to a copy; they are read from the front of a buffer. -/
def copyNode (g : γ) (state : Digraph × List Nat) (node : Nat) :
    Except Violation (Digraph × List Nat) := do
  let (count, cells) ← copySuccessors g node (resize state.2 (outDegree g node))
  return ((cells.take count).foldl (fun copy target => copy.addEdge node target) state.1, cells)

/-- Copies a graph through one buffer, and adds the nodes that have no edges at the end. -/
def copyThrough (g : γ) : Except Violation Digraph := do
  let (copy, _) ← (List.range (size g)).foldlM (copyNode g) (Digraph.empty, [])
  return copy.grow (size g)

def edgesFrom (g : γ) (node : Nat) : List (Nat × Nat) :=
  (successors g node).map fun target => (node, target)

theorem length_resize (buffer : List Nat) (count : Nat) : (resize buffer count).length = count := by
  simp only [resize, List.length_append, List.length_take, List.length_replicate]
  omega

theorem exists_copyNode (g : γ) (copy : Digraph) (buffer : List Nat) (node : Nat) :
    ∃ cells, copyNode g (copy, buffer) node = .ok (copy.addEdges (edgesFrom g node), cells) := by
  have hroom : (successors g node).length ≤ (resize buffer (outDegree g node)).length := by
    rw [length_resize, outDegree]
  have hfill : copySuccessors g node (resize buffer (outDegree g node)) = .ok _ := if_pos hroom
  unfold copyNode
  rw [hfill, ok_bind, Digraph.addEdges, edgesFrom, List.foldl_map]
  dsimp only
  rw [List.take_left]
  exact ⟨_, rfl⟩

/-- Rows that were read before stay in the buffer, and not in the copy. -/
theorem exists_copyNodes (g : γ) (nodes : List Nat) (copy : Digraph) (buffer : List Nat) :
    ∃ cells, nodes.foldlM (copyNode g) (copy, buffer) =
      .ok (copy.addEdges (nodes.flatMap (edgesFrom g)), cells) := by
  induction nodes generalizing copy buffer with
  | nil => exact ⟨buffer, rfl⟩
  | cons node nodes ih =>
    obtain ⟨cells, hfirst⟩ := exists_copyNode g copy buffer node
    obtain ⟨rest, hrest⟩ := ih (copy.addEdges (edgesFrom g node)) cells
    rw [List.foldlM_cons, hfirst, List.flatMap_cons, Digraph.addEdges_append]
    exact ⟨rest, hrest⟩

theorem copyThrough_eq_ok (g : γ) : copyThrough g = .ok (Digraph.ofGraph g) := by
  obtain ⟨cells, hloop⟩ := exists_copyNodes g (List.range (size g)) Digraph.empty []
  unfold copyThrough
  rw [hloop]
  rfl

theorem Lists.agree_ofGraph {set : Set (Nat × Nat)} (h : Lists g set) :
    Agree (Digraph.ofGraph g) g where
  toSameEdges := (Digraph.HasEdges.ofGraph h).lists.sameEdges h
  size_eq := Digraph.size_ofGraph h

end Graph

/-! ## Graphs told by their edges -/

/-- A table is told by its size and its rows. -/
theorem Graph.table_ext {table table' : Array (List Nat)} (hsize : table.size = table'.size)
    (hrow : ∀ node : Nat, table[node]?.getD [] = table'[node]?.getD []) : table = table' := by
  refine Array.ext hsize fun node hnode hnode' => ?_
  have heq := hrow node
  rwa [Array.getElem?_eq_getElem hnode, Array.getElem?_eq_getElem hnode'] at heq

theorem Digraph.HasEdges.ext {g g' : Digraph} {set : Set (Nat × Nat)} (h : HasEdges g set)
    (h' : HasEdges g' set) (hsize : g.size = g'.size) : g = g' := by
  have hsuccessors : g.successors = g'.successors :=
    Graph.table_ext hsize (h.successors.unique h'.successors)
  have hpredecessors : g.predecessors = g'.predecessors := by
    apply Graph.table_ext
    · rw [h.size_predecessors, h'.size_predecessors, hsize]
    · exact h.predecessors.unique h'.predecessors
  cases g
  cases g'
  rw [Digraph.mk.injEq]
  exact ⟨hsuccessors, hpredecessors⟩

theorem Digraph.HasEdges.ofGraph_eq {g : Digraph} {set : Set (Nat × Nat)} (h : HasEdges g set) :
    Digraph.ofGraph g = g :=
  (HasEdges.ofGraph h.lists).ext h (size_ofGraph h.lists)

/-- A built graph is built again from its own edges. -/
theorem Adjacency.ofEdges_edges (size : Nat) (edges : List (Nat × Nat)) :
    ofEdges (Graph.size (ofEdges size edges)) (Graph.edges (ofEdges size edges)) =
      ofEdges size edges := by
  have hlists := lists_ofEdges size edges
  have hmem : ∀ edge, edge ∈ Graph.edges (ofEdges size edges) ↔ edge ∈ edges :=
    fun edge => Digraph.mem_edges_iff hlists
  rw [ofEdges_congr hmem]
  refine Builder.build_congr (eq_of_forall_ge_iff fun n => ?_) fun u v => ?_
  · rw [← Builder.size_build, ← Builder.size_build]
    change Graph.size (ofEdges (Graph.size (ofEdges size edges)) edges) ≤ n ↔
      Graph.size (ofEdges size edges) ≤ n
    rw [size_ofEdges_le_iff, size_ofEdges_le_iff, and_assoc, and_self]
  · change v ∈ ((Builder.ofSize _).addEdges edges).row u ↔
      v ∈ ((Builder.ofSize size).addEdges edges).row u
    rw [Builder.mem_row_addEdges, Builder.mem_row_addEdges, Builder.row_ofSize, Builder.row_ofSize]

/-! ## Export -/

namespace Graph

variable {γ : Type} [Graph γ] {g : γ} {set : Set (Nat × Nat)}

/-- A library of graphs that are made node by node and edge by edge. -/
structure Library where
  Store : Type
  empty : Store
  /-- Adds a node that carries a number. -/
  addNode : Store → Nat → Store
  /-- Adds an edge from one node to another, which are told by their places. -/
  addEdge : Store → Nat → Nat → Except Violation Store
  /-- The numbers that the nodes carry. -/
  nodes : Store → List Nat
  /-- The ends of the edges. -/
  edges : Store → List (Nat × Nat)

/-- Nodes and edges stand in the order of the calls, and an edge is accepted if its ends are there. -/
structure Library.Appends (lib : Library) : Prop where
  nodes_empty : lib.nodes lib.empty = []
  edges_empty : lib.edges lib.empty = []
  nodes_addNode : ∀ store n, lib.nodes (lib.addNode store n) = lib.nodes store ++ [n]
  edges_addNode : ∀ store n, lib.edges (lib.addNode store n) = lib.edges store
  exists_addEdge : ∀ store u v, max u v < (lib.nodes store).length →
    ∃ store', lib.addEdge store u v = .ok store' ∧ lib.nodes store' = lib.nodes store ∧
      lib.edges store' = lib.edges store ++ [(u, v)]

namespace Library

variable {lib : Library} {store : lib.Store}

def addRow (lib : Library) (g : γ) (store : lib.Store) (node : Nat) :
    Except Violation lib.Store :=
  (successors g node).foldlM (fun store target => lib.addEdge store node target) store

/-- Hands a graph over: all its nodes, and then its edges node by node. -/
def exportTo (lib : Library) (g : γ) : Except Violation lib.Store :=
  (List.range (size g)).foldlM (lib.addRow g) ((List.range (size g)).foldl lib.addNode lib.empty)

theorem Appends.nodes_foldl (hlib : lib.Appends) (store : lib.Store) (numbers : List Nat) :
    lib.nodes (numbers.foldl lib.addNode store) = lib.nodes store ++ numbers ∧
      lib.edges (numbers.foldl lib.addNode store) = lib.edges store := by
  induction numbers generalizing store with
  | nil => exact ⟨(List.append_nil _).symm, rfl⟩
  | cons n numbers ih =>
    obtain ⟨hnodes, hedges⟩ := ih (lib.addNode store n)
    rw [List.foldl_cons, hnodes, hedges, hlib.nodes_addNode, hlib.edges_addNode, List.append_assoc]
    exact ⟨rfl, rfl⟩

/-- Edges between nodes that are there are appended. -/
theorem Appends.exists_addEdges (hlib : lib.Appends) {edges : List (Nat × Nat)}
    (h : ∀ edge ∈ edges, max edge.1 edge.2 < (lib.nodes store).length) :
    ∃ store', edges.foldlM (fun store edge => lib.addEdge store edge.1 edge.2) store = .ok store' ∧
      lib.nodes store' = lib.nodes store ∧ lib.edges store' = lib.edges store ++ edges := by
  induction edges generalizing store with
  | nil => exact ⟨store, rfl, rfl, (List.append_nil _).symm⟩
  | cons edge edges ih =>
    obtain ⟨hfirst, hrest⟩ := List.forall_mem_cons.mp h
    obtain ⟨next, hnext, hnodes, hedges⟩ := hlib.exists_addEdge store edge.1 edge.2 hfirst
    rw [← hnodes] at hrest
    obtain ⟨last, hlast, hnodes', hedges'⟩ := ih hrest
    refine ⟨last, ?_, hnodes'.trans hnodes, ?_⟩
    · rw [List.foldlM_cons, hnext]
      exact hlast
    · rw [hedges', hedges, List.append_assoc, List.singleton_append]

/-- Row by row, the edges of the nodes are handed over. -/
theorem foldlM_addRow (lib : Library) (g : γ) (nodes : List Nat) (store : lib.Store) :
    nodes.foldlM (lib.addRow g) store =
      (nodes.flatMap (edgesFrom g)).foldlM (fun store edge => lib.addEdge store edge.1 edge.2)
        store := by
  induction nodes generalizing store with
  | nil => rfl
  | cons node nodes ih =>
    rw [List.foldlM_cons, List.flatMap_cons, List.foldlM_append, edgesFrom, List.foldlM_map]
    exact congrArg _ (funext ih)

theorem Appends.exists_exportTo (hlib : lib.Appends) (hg : Lists g set) :
    ∃ store, lib.exportTo g = .ok store ∧ lib.nodes store = List.range (size g) ∧
      lib.edges store = Graph.edges g := by
  obtain ⟨hnodes, hedges⟩ := hlib.nodes_foldl lib.empty (List.range (size g))
  rw [hlib.nodes_empty, List.nil_append] at hnodes
  rw [hlib.edges_empty] at hedges
  have hends : ∀ edge ∈ Graph.edges g, max edge.1 edge.2 <
      (lib.nodes ((List.range (size g)).foldl lib.addNode lib.empty)).length := by
    intro edge hedge
    rw [hnodes, List.length_range]
    exact hg.lt_size edge ((Digraph.mem_edges_iff hg).mp hedge)
  obtain ⟨store, hstore, hsame, happended⟩ := hlib.exists_addEdges hends
  refine ⟨store, ?_, hsame.trans hnodes, ?_⟩
  · unfold exportTo
    rw [foldlM_addRow]
    exact hstore
  · rw [happended, hedges, List.nil_append]

end Library

/-- The edges are listed by their sources, and those of one source by their targets. -/
theorem pairwise_edges (h : ∀ u, (successors g u).Pairwise (· < ·)) :
    (edges g).Pairwise (Prod.Lex (· < ·) (· < ·)) := by
  refine List.pairwise_flatMap.mpr ⟨fun u _ => ?_, ?_⟩
  · exact List.pairwise_map.mpr ((h u).imp fun hlt => .right _ hlt)
  · apply List.pairwise_lt_range.imp
    intro u w hlt edge hedge edge' hedge'
    obtain ⟨v, -, rfl⟩ := List.mem_map.mp hedge
    obtain ⟨x, -, rfl⟩ := List.mem_map.mp hedge'
    exact .left _ _ hlt

theorem Lists.listing_eq_ok (hg : Lists g set) :
    listing g = .ok ⟨List.range (size g), edges g⟩ := by
  refine if_pos (List.all_eq_true.mpr fun edge hedge => decide_eq_true ?_)
  have := hg.lt_size edge ((Digraph.mem_edges_iff hg).mp hedge)
  omega

/-- The graph is copied whole, and is handed over whole: node by node, each carrying its own number,
and edge by edge in ascending order. -/
structure KeptBy (lib : Library) (g : γ) : Prop where
  exists_copy : ∃ copy, copyThrough g = .ok copy ∧ copy = Digraph.ofGraph g ∧ Agree copy g
  exists_export : ∃ store, lib.exportTo g = .ok store ∧
    lib.nodes store = List.range (size g) ∧
    (∀ edge, edge ∈ lib.edges store ↔ Edge g edge.1 edge.2) ∧
    (lib.edges store).Pairwise (Prod.Lex (· < ·) (· < ·)) ∧
    (lib.edges store).length = edgeCount g ∧
    listing g = .ok ⟨lib.nodes store, lib.edges store⟩

theorem Lists.keptBy {lib : Library} (hg : Lists g set) (hlib : lib.Appends) : KeptBy lib g where
  exists_copy := ⟨_, copyThrough_eq_ok g, rfl, hg.agree_ofGraph⟩
  exists_export := by
    obtain ⟨store, hstore, hnodes, hedges⟩ := hlib.exists_exportTo hg
    refine ⟨store, hstore, hnodes, fun edge => ?_, ?_, ?_, ?_⟩
    · rw [hedges, mem_edges fun _ => hg.successors_eq_nil]
      rfl
    · rw [hedges]
      exact pairwise_edges hg.successors.ascending
    · rw [hedges, length_edges]
    · rw [hnodes, hedges, hg.listing_eq_ok]

/-- The graph that a store describes, made by edits or at once. -/
def Library.edited (lib : Library) (store : lib.Store) : Digraph :=
  (Digraph.empty.addEdges (lib.edges store)).grow (lib.nodes store).length

def Library.built (lib : Library) (store : lib.Store) : Adjacency :=
  Adjacency.ofEdges (lib.nodes store).length (lib.edges store)

/-- Copies and exports keep every graph that is edited, copied or built, and from the export the graph
itself is made again. -/
theorem copying_keeps_all (lib : Library) (hlib : lib.Appends) :
    (∀ g : Digraph, g.Made → KeptBy lib g ∧ Digraph.ofGraph g = g ∧
      (lib.exportTo g).map lib.edited = .ok g) ∧
    ∀ size edges, KeptBy lib (Adjacency.ofEdges size edges) ∧
      (lib.exportTo (Adjacency.ofEdges size edges)).map lib.built =
        .ok (Adjacency.ofEdges size edges) := by
  refine ⟨fun g hg => ?_, fun size edges => ?_⟩
  · obtain ⟨set, h⟩ := hg.exists_hasEdges
    refine ⟨h.lists.keptBy hlib, h.ofGraph_eq, ?_⟩
    obtain ⟨store, hstore, hnodes, hedges⟩ := hlib.exists_exportTo h.lists
    rw [hstore, Except.map, Library.edited, hnodes, hedges, List.length_range]
    exact congrArg _ h.ofGraph_eq
  · have h := Adjacency.lists_ofEdges size edges
    refine ⟨h.keptBy hlib, ?_⟩
    obtain ⟨store, hstore, hnodes, hedges⟩ := hlib.exists_exportTo h
    rw [hstore, Except.map, Library.built, hnodes, hedges, List.length_range]
    exact congrArg _ (Adjacency.ofEdges_edges size edges)

/-- The library whose stores are listings. -/
def listings : Library where
  Store := Listing
  empty := ⟨[], []⟩
  addNode store n := { store with nodes := store.nodes ++ [n] }
  addEdge store u v :=
    if max u v < store.nodes.length then .ok { store with edges := store.edges ++ [(u, v)] }
    else .error .unknownNode
  nodes := Listing.nodes
  edges := Listing.edges

theorem listings_appends : listings.Appends where
  nodes_empty := rfl
  edges_empty := rfl
  nodes_addNode _ _ := rfl
  edges_addNode _ _ := rfl
  exists_addEdge _ _ _ h := ⟨_, if_pos h, rfl, rfl⟩

/-- A graph whose last node has lost its only edge. -/
def pruned : Digraph := (fork.removeEdge 2 3).2

theorem pruned_is_kept :
    listings.Appends ∧ pruned.Made ∧ Digraph.ofGraph pruned = pruned ∧
      (∃ store, listings.exportTo pruned = .ok store ∧ listings.nodes store = [0, 1, 2, 3] ∧
        (2, 0) ∈ listings.edges store) ∧
      ∃ copy, copyThrough (Adjacency.ofEdges 9 [(4, 1)]) = .ok copy ∧ size copy = 9 ∧
        successors copy 4 = successors (Adjacency.ofEdges 9 [(4, 1)]) 4 := by
  have hrun : [.add 2 0, .add 2 3, .remove 2 3].foldlM Digraph.Edit.make Digraph.empty =
      .ok pruned := rfl
  have hmade : pruned.Made := Digraph.Made.empty.edits hrun
  obtain ⟨hkept, hcopy, -⟩ := (copying_keeps_all listings listings_appends).1 pruned hmade
  obtain ⟨store, hstore, hnodes, hedges, -⟩ := hkept.exists_export
  obtain ⟨copy, hthrough, -, hagree⟩ :=
    ((copying_keeps_all listings listings_appends).2 9 [(4, 1)]).1.exists_copy
  have hsize : size (Adjacency.ofEdges 9 [(4, 1)]) = 9 :=
    Adjacency.size_ofEdges_of_lt (by decide)
  refine ⟨listings_appends, hmade, hcopy, ⟨store, hstore, hnodes, (hedges (2, 0)).mpr ?_⟩, copy,
    hthrough, hagree.size_eq.trans hsize, hagree.successors_eq 4⟩
  show 0 ∈ successors pruned 2
  decide

end Graph

end MethodFlow
