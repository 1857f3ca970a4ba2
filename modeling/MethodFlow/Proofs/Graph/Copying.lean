import MethodFlow.Proofs.Graph.Agreement
/-!
# Copies of graphs and of rows

A graph is copied edge by edge, and the row of a node cell by cell into a buffer. The copy of a graph
has its edges and its nodes; the copy of a row is the same whatever the order in which the numbers of
the row come, and leaves the rest of the buffer alone:

* `HasEdges.ofGraph`, `size_ofGraph`: a copied graph has the edges and the nodes of the original;
* `Made.exists_hasEdges`: every graph that is edited or copied holds its edges in both tables;
* `writeCells_eq`: what has been written cell by cell stands in front of what was there;
* `copySet_eq_fill`: numbers in any order are copied as the row that they form;
* `copies_agree`: what is copied is what the graph answers.
-/

namespace MethodFlow

/-! ## Copied graphs -/

namespace Digraph

variable {γ : Type} [Graph γ] {original : γ} {g g' : Digraph} {e : Edit} {set : Set (Nat × Nat)}
  {edges : List (Nat × Nat)} {n : Nat}

theorem size_grow (g : Digraph) (size : Nat) : (g.grow size).size = max g.size size := by
  simp only [Digraph.size, grow, Array.size_append, Array.size_replicate]
  omega

theorem HasEdges.grow (h : HasEdges g set) (size : Nat) : HasEdges (g.grow size) set where
  size_predecessors := by
    have hsize := h.size_predecessors
    simp only [Digraph.size, Digraph.grow, Array.size_append, Array.size_replicate] at *
    omega
  successors := by
    have hrows : Graph.successors (g.grow size) = Graph.successors g :=
      funext fun node => Graph.row_append_replicate g.successors _ node
    rw [hrows]
    exact h.successors
  predecessors := by
    have hrows : Graph.predecessors (g.grow size) = Graph.predecessors g :=
      funext fun node => Graph.row_append_replicate g.predecessors _ node
    rw [hrows]
    exact h.predecessors

def addEdges (g : Digraph) (edges : List (Nat × Nat)) : Digraph :=
  edges.foldl (fun g edge => g.addEdge edge.1 edge.2) g

theorem addEdges_append (g : Digraph) (edges more : List (Nat × Nat)) :
    g.addEdges (edges ++ more) = (g.addEdges edges).addEdges more :=
  List.foldl_append

theorem HasEdges.addEdges (h : HasEdges g set) (edges : List (Nat × Nat)) :
    HasEdges (g.addEdges edges) {edge | edge ∈ edges ∨ edge ∈ set} := by
  induction edges generalizing g set with
  | nil => simpa [Digraph.addEdges] using h
  | cons edge edges ih =>
    have hset : {e | e ∈ edge :: edges ∨ e ∈ set} =
        {e | e ∈ edges ∨ e ∈ insert (edge.1, edge.2) set} := by
      ext e
      rw [Set.mem_ofPred_eq, Set.mem_ofPred_eq, List.mem_cons, Set.mem_insert_iff, or_left_comm,
        or_assoc]
    rw [hset]
    exact ih (h.addEdge edge.1 edge.2)

theorem size_addEdges_le_iff :
    (g.addEdges edges).size ≤ n ↔ g.size ≤ n ∧ ∀ edge ∈ edges, max edge.1 edge.2 < n := by
  induction edges generalizing g with
  | nil => simp [addEdges]
  | cons edge edges ih =>
    rw [addEdges, List.foldl_cons, ← addEdges, ih, size_addEdge, List.forall_mem_cons, Nat.max_le,
      Nat.succ_le_iff, and_assoc]

theorem ofGraph_eq (original : γ) :
    ofGraph original = (empty.addEdges (Graph.edges original)).grow (Graph.size original) := rfl

theorem mem_edges_iff (h : Graph.Lists original set) {edge : Nat × Nat} :
    edge ∈ Graph.edges original ↔ edge ∈ set := by
  rw [Graph.mem_edges fun _ => h.successors_eq_nil]
  exact h.successors.mem_iff edge.1 edge.2

theorem HasEdges.ofGraph (h : Graph.Lists original set) : HasEdges (ofGraph original) set := by
  have hset : {edge | edge ∈ Graph.edges original ∨ edge ∈ (∅ : Set (Nat × Nat))} = set := by
    ext edge
    rw [Set.mem_ofPred_eq, or_iff_left (Set.notMem_empty edge), mem_edges_iff h]
  rw [ofGraph_eq, ← hset]
  exact (HasEdges.empty.addEdges _).grow _

theorem size_ofGraph (h : Graph.Lists original set) :
    Graph.size (ofGraph original) = Graph.size original := by
  have hedges : (empty.addEdges (Graph.edges original)).size ≤ Graph.size original := by
    refine size_addEdges_le_iff.mpr ⟨Nat.zero_le _, fun edge hedge => ?_⟩
    exact h.lt_size edge ((mem_edges_iff h).mp hedge)
  calc Graph.size (ofGraph original)
      = max (empty.addEdges (Graph.edges original)).size (Graph.size original) := size_grow _ _
    _ = Graph.size original := Nat.max_eq_right hedges

/-! ## The graphs that there are -/

/-- A graph is edited from the empty one, or starts as a copy. -/
inductive Made : Digraph → Prop where
  | empty : Made empty
  | edit {g g' : Digraph} {e : Edit} : Made g → e.make g = .ok g' → Made g'
  | copy {g : Digraph} : Made g → Made (ofGraph g)
  | copyBuilt (size : Nat) (edges : List (Nat × Nat)) :
    Made (ofGraph (Adjacency.ofEdges size edges))

theorem HasEdges.make (h : HasEdges g set) (he : e.make g = .ok g') :
    ∃ set', HasEdges g' set' := by
  cases e with
  | add source target =>
    change (checkNumber (max source target) >>= fun _ => .ok (g.addEdge source target)) = _ at he
    cases hnumber : checkNumber (max source target) with
    | error v =>
      rw [hnumber] at he
      cases he
    | ok =>
      rw [hnumber] at he
      cases he
      exact ⟨_, h.addEdge source target⟩
  | remove source target =>
    cases he
    exact ⟨_, h.removeEdge source target⟩

theorem Made.exists_hasEdges (hg : Made g) : ∃ set, HasEdges g set := by
  induction hg with
  | empty => exact ⟨∅, .empty⟩
  | edit _ he ih =>
    obtain ⟨set, h⟩ := ih
    exact h.make he
  | copy _ ih =>
    obtain ⟨set, h⟩ := ih
    exact ⟨set, .ofGraph h.lists⟩
  | copyBuilt size edges => exact ⟨_, .ofGraph (Adjacency.lists_ofEdges size edges)⟩

/-- A series of edits makes a graph. -/
theorem Made.edits (hg : Made g) {edits : List Edit} (h : edits.foldlM Edit.make g = .ok g') :
    Made g' := by
  induction edits generalizing g with
  | nil =>
    cases h
    exact hg
  | cons e edits ih =>
    rw [List.foldlM_cons] at h
    cases hnext : e.make g with
    | error v =>
      rw [hnext] at h
      cases h
    | ok next =>
      rw [hnext] at h
      exact ih (hg.edit hnext) h

end Digraph

/-! ## Copied rows -/

namespace Graph

variable {γ : Type} [Graph γ] {g : γ} {row order buffer : List Nat} {node : Nat}

/-- Writes numbers into the cells of a buffer from the cell `index` on; tells where it stopped. -/
def writeCells (buffer : List Nat) (index : Nat) : List Nat → Except Violation (Nat × List Nat)
  | [] => .ok (index, buffer)
  | n :: rest =>
    if index < buffer.length then writeCells (buffer.set index n) (index + 1) rest
    else .error .shortBuffer

/-- Copies a set whose numbers come in some order, and sorts the cells that were written. -/
def copySet (order buffer : List Nat) : Except Violation (Nat × List Nat) := do
  let (count, cells) ← writeCells buffer 0 order
  return (count, (cells.take count).mergeSort (· ≤ ·) ++ cells.drop count)

/-- What has been written stands in front of the cells that were not reached. -/
theorem writeCells_eq (written rest order : List Nat) :
    writeCells (written ++ rest) written.length order =
      if order.length ≤ rest.length then
        .ok (written.length + order.length, written ++ order ++ rest.drop order.length)
      else .error .shortBuffer := by
  induction order generalizing written rest with
  | nil => simp [writeCells]
  | cons n order ih =>
    unfold writeCells
    cases rest with
    | nil => simp
    | cons cell rest =>
      have hcell : (written ++ cell :: rest).set written.length n = written ++ [n] ++ rest := by
        rw [List.set_append_right _ _ (Nat.le_refl _), Nat.sub_self, List.set_cons_zero,
          List.append_assoc, List.singleton_append]
      have hwritten : written.length + 1 = (written ++ [n]).length := by
        rw [List.length_append, List.length_singleton]
      rw [if_pos (by simp), hcell, hwritten, ih]
      simp [Nat.add_assoc, Nat.add_comm 1]

/-- Ascending numbers are what any order of them is sorted to. -/
theorem mergeSort_eq_of_perm (hrow : row.Pairwise (· < ·)) (horder : order.Perm row) :
    order.mergeSort (· ≤ ·) = row := by
  have hperm : (order.mergeSort (· ≤ ·)).Perm row := (List.mergeSort_perm order _).trans horder
  apply hperm.eq_of_pairwise (fun a b _ _ => Nat.le_antisymm)
  · exact Ascending.pairwise_mergeSort order
  · exact hrow.imp Nat.le_of_lt

theorem copySet_eq_fill (hrow : row.Pairwise (· < ·)) (horder : order.Perm row) :
    copySet order buffer = fill buffer row := by
  have hwrite := writeCells_eq [] buffer order
  rw [List.nil_append, List.nil_append, List.length_nil, Nat.zero_add, horder.length_eq] at hwrite
  unfold copySet fill
  rw [hwrite]
  split
  · rw [ok_bind]
    dsimp only
    rw [← horder.length_eq, List.take_left, List.drop_left, mergeSort_eq_of_perm hrow horder]
    rfl
  · rfl

/-- A call puts an ascending row of `count` numbers into the front of a buffer and leaves the cells
behind it alone, or breaks off if the buffer is too short. -/
structure Copies (count : Nat) (row buffer : List Nat) (result : Except Violation (Nat × List Nat)) :
    Prop where
  length_row : row.length = count
  ascending : row.Pairwise (· < ·)
  of_le : count ≤ buffer.length → ∃ cells, result = .ok (count, cells) ∧
    cells.length = buffer.length ∧ cells.take count = row ∧ cells.drop count = buffer.drop count
  of_lt : buffer.length < count → result = .error .shortBuffer

theorem copies_fill (hrow : row.Pairwise (· < ·)) (buffer : List Nat) :
    Copies row.length row buffer (fill buffer row) where
  length_row := rfl
  ascending := hrow
  of_le hle := by
    refine ⟨_, if_pos hle, ?_, List.take_left, List.drop_left⟩
    rw [List.length_append, List.length_drop]
    omega
  of_lt hlt := if_neg (Nat.not_le.mpr hlt)

structure CopiesRows (g : γ) (node : Nat) (buffer : List Nat) : Prop where
  successors :
    Copies (outDegree g node) (successors g node) buffer (copySuccessors g node buffer)
  predecessors :
    Copies (inDegree g node) (predecessors g node) buffer (copyPredecessors g node buffer)

theorem Lists.copiesRows {edges : Set (Nat × Nat)} (hg : Lists g edges) (node : Nat)
    (buffer : List Nat) : CopiesRows g node buffer where
  successors := copies_fill (hg.successors.ascending node) buffer
  predecessors := copies_fill (hg.predecessors.ascending node) buffer

/-! ## Rows that are kept as sets -/

/-- The numbers with the property come in some order, each once. -/
structure Enumerates (order : List Nat) (p : Nat → Prop) : Prop where
  nodup : order.Nodup
  mem_iff : ∀ n, n ∈ order ↔ p n

/-- A row that is kept as a set answers as the row does, in whatever order its numbers come. -/
structure AnswersAs (order row buffer : List Nat) : Prop where
  length_eq : order.length = row.length
  sort_eq : order.mergeSort (· ≤ ·) = row
  copy_eq : copySet order buffer = fill buffer row

theorem Enumerates.answersAs {r : Nat → Nat → Prop} {rows : Nat → List Nat}
    (horder : Enumerates order (r node)) (hrows : Digraph.Rows rows r) (buffer : List Nat) :
    AnswersAs order (rows node) buffer := by
  have hperm : order.Perm (rows node) := by
    apply (List.perm_ext_iff_of_nodup horder.nodup _).mpr
    · intro n
      rw [horder.mem_iff, hrows.mem_iff]
    · exact (hrows.ascending node).imp Nat.ne_of_lt
  exact ⟨hperm.length_eq, mergeSort_eq_of_perm (hrows.ascending node) hperm,
    copySet_eq_fill (hrows.ascending node) hperm⟩

/-- The rows of a graph are copied as the graph tells them, for every node and every buffer. An
edited graph may keep its rows as sets, which are copied in any order and then sorted. -/
theorem copies_agree (node : Nat) (buffer : List Nat) :
    (∀ g : Digraph, g.Made →
      CopiesRows g node buffer ∧
      (∀ order, Enumerates order (fun target => g.hasEdge node target = true) →
        AnswersAs order (successors g node) buffer) ∧
      ∀ order, Enumerates order (fun source => g.hasEdge source node = true) →
        AnswersAs order (predecessors g node) buffer) ∧
    ∀ size edges, CopiesRows (Adjacency.ofEdges size edges) node buffer := by
  refine ⟨fun g hg => ?_, fun size edges =>
    (Adjacency.lists_ofEdges size edges).copiesRows node buffer⟩
  obtain ⟨set, h⟩ := hg.exists_hasEdges
  refine ⟨h.lists.copiesRows node buffer, fun order horder => ?_, fun order horder => ?_⟩
  · simp only [h.hasEdge_iff] at horder
    exact horder.answersAs (r := fun u v => (u, v) ∈ set) h.successors buffer
  · simp only [h.hasEdge_iff] at horder
    exact horder.answersAs (r := fun v u => (u, v) ∈ set) h.predecessors buffer

/-- A node with two targets, which a set may give in either order. -/
def fork : Digraph := (Digraph.empty.addEdge 2 0).addEdge 2 3

theorem enumerates_fork : Enumerates [3, 0] fun target => fork.hasEdge 2 target = true where
  nodup := by decide
  mem_iff target := by
    have hrow : successors fork 2 = [0, 3] := by decide
    rw [Digraph.hasEdge, hrow]
    simp [or_comm]

theorem fork_copies_agree :
    fork.Made ∧ Enumerates [3, 0] (fun target => fork.hasEdge 2 target = true) ∧
      copySuccessors fork 2 [7, 7, 7, 7] = .ok (2, [0, 3, 7, 7]) ∧
      copySet [3, 0] [7, 7, 7, 7] = .ok (2, [0, 3, 7, 7]) ∧
      copySuccessors fork 2 [7] = .error .shortBuffer ∧
      copySuccessors (Adjacency.ofEdges 9 [(4, 1), (2, 1)]) 40 [7] = .ok (0, [7]) := by
  have hrun : [.add 2 0, .add 2 3].foldlM Digraph.Edit.make Digraph.empty = .ok fork := rfl
  have hmade : fork.Made := Digraph.Made.empty.edits hrun
  have hcopy : copySuccessors fork 2 [7, 7, 7, 7] = .ok (2, [0, 3, 7, 7]) := by decide
  obtain ⟨-, hset, -⟩ := (copies_agree 2 [7, 7, 7, 7]).1 fork hmade
  obtain ⟨hshort, -, -⟩ := (copies_agree 2 [7]).1 fork hmade
  have hbuilt := (copies_agree 40 [7]).2 9 [(4, 1), (2, 1)]
  have hsize : size (Adjacency.ofEdges 9 [(4, 1), (2, 1)]) = 9 :=
    Adjacency.size_ofEdges_of_lt (by decide)
  have hdegree : outDegree (Adjacency.ofEdges 9 [(4, 1), (2, 1)]) 40 = 0 := by
    rw [outDegree, Adjacency.successors_eq_nil (by omega), List.length_nil]
  obtain ⟨cells, hcells, -, -, hrest⟩ := hbuilt.successors.of_le (hdegree ▸ Nat.zero_le _)
  rw [hdegree] at hcells hrest
  rw [List.drop_zero, List.drop_zero] at hrest
  refine ⟨hmade, enumerates_fork, hcopy, ?_, hshort.successors.of_lt (by decide), ?_⟩
  · rw [(hset [3, 0] enumerates_fork).copy_eq]
    exact hcopy
  · rw [hcells, hrest]

end Graph

end MethodFlow
