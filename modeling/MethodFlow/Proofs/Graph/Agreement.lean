import MethodFlow.Proofs.Graph.Digraph
import MethodFlow.Proofs.Loops
/-!
# Built and edited graphs agree

A graph is built at once from a list of edges, or it is edited edge by edge. What it answers depends
on its nodes and edges alone, and not on the way that it was made:

* `Lists.sameEdges`: graphs of any kind that list the same edges give the same answers about them;
* `lists_ofEdges`, `exists_additions`: either way a graph comes to list the edges that it was given;
* `ofEdgesChecked_eq`: building breaks off only if a table would not fit the address space;
* `ofEdges_agrees`: both ways lead to graphs that agree, whatever the order and the repetitions.
-/

namespace MethodFlow

/-! ## Graphs that agree -/

namespace Graph

variable {γ δ : Type} [Graph γ] [Graph δ] {g : γ} {h : δ} {edges : Set (Nat × Nat)} {n : Nat}

structure SameEdges (g : γ) (h : δ) : Prop where
  successors_eq : ∀ node, successors g node = successors h node
  predecessors_eq : ∀ node, predecessors g node = predecessors h node
  outDegree_eq : ∀ node, outDegree g node = outDegree h node
  inDegree_eq : ∀ node, inDegree g node = inDegree h node
  copySuccessors_eq : ∀ node buffer, copySuccessors g node buffer = copySuccessors h node buffer
  copyPredecessors_eq :
    ∀ node buffer, copyPredecessors g node buffer = copyPredecessors h node buffer
  edgeCount_eq : edgeCount g = edgeCount h

structure Agree (g : γ) (h : δ) : Prop extends SameEdges g h where
  size_eq : size g = size h

structure Lists (g : γ) (edges : Set (Nat × Nat)) : Prop where
  successors : Digraph.Rows (Graph.successors g) fun u v => (u, v) ∈ edges
  predecessors : Digraph.Rows (Graph.predecessors g) fun v u => (u, v) ∈ edges
  lt_size : ∀ edge ∈ edges, max edge.1 edge.2 < size g

namespace Lists

theorem successors_eq_nil (hg : Lists g edges) (hn : size g ≤ n) : Graph.successors g n = [] := by
  refine List.eq_nil_iff_forall_not_mem.mpr fun v hv => ?_
  have := hg.lt_size _ ((hg.successors.mem_iff n v).mp hv)
  omega

theorem edgeCount_eq (hg : Lists g edges) : edgeCount g = edges.ncard :=
  (ncard_eq_edgeCount (fun _ => hg.successors_eq_nil)
    (fun u => (hg.successors.ascending u).imp Nat.ne_of_lt)
    fun edge => (hg.successors.mem_iff edge.1 edge.2).symm).symm

theorem sameEdges (hg : Lists g edges) (hh : Lists h edges) : SameEdges g h := by
  have hsuccessors := hg.successors.unique hh.successors
  have hpredecessors := hg.predecessors.unique hh.predecessors
  refine ⟨hsuccessors, hpredecessors, fun node => ?_, fun node => ?_, fun node buffer => ?_,
    fun node buffer => ?_, hg.edgeCount_eq.trans hh.edgeCount_eq.symm⟩
  · rw [outDegree, outDegree, hsuccessors]
  · rw [inDegree, inDegree, hpredecessors]
  · rw [copySuccessors, copySuccessors, hsuccessors]
  · rw [copyPredecessors, copyPredecessors, hpredecessors]

/-- An edge is found at its target exactly if it is found at its source. -/
theorem mem_predecessors_iff (hg : Lists g edges) (u v : Nat) :
    u ∈ Graph.predecessors g v ↔ v ∈ Graph.successors g u := by
  rw [hg.predecessors.mem_iff, hg.successors.mem_iff]

end Lists

end Graph

/-! ## Edited graphs -/

namespace Digraph

variable {g : Digraph} {edges : List (Nat × Nat)} {set : Set (Nat × Nat)} {n : Nat}

theorem HasEdges.lists (h : HasEdges g set) : Graph.Lists g set where
  successors := h.successors
  predecessors := h.predecessors
  lt_size edge hedge := by
    have hsource : edge.1 < g.size :=
      Nat.lt_of_not_le fun hle => (h.not_mem_of_size_le hle edge.2).1 hedge
    have htarget : edge.2 < g.size :=
      Nat.lt_of_not_le fun hle => (h.not_mem_of_size_le hle edge.1).2 hedge
    exact Nat.max_lt.mpr ⟨hsource, htarget⟩

def additions (edges : List (Nat × Nat)) : List Edit := edges.map fun edge => .add edge.1 edge.2

theorem standing_additions (edges : List (Nat × Nat)) :
    standing (additions edges) = {edge | edge ∈ edges} := by
  ext edge
  have hadd : Edit.add edge.1 edge.2 ∈ additions edges ↔ edge ∈ edges := by
    simp [additions]
  have hremove : Edit.remove edge.1 edge.2 ∉ additions edges := by
    simp [additions]
  rw [Set.mem_ofPred_eq, ← hadd]
  constructor
  · rintro ⟨before, after, heq, -⟩
    exact heq ▸ List.mem_append_right _ List.mem_cons_self
  · intro hmem
    obtain ⟨before, after, heq⟩ := List.append_of_mem hmem
    refine ⟨before, after, heq, fun hafter => hremove ?_⟩
    exact heq ▸ List.mem_append_right _ (List.mem_cons_of_mem _ hafter)

theorem need_additions_le_iff {size : Nat} :
    (additions edges).foldl (fun size e => max size e.need) size ≤ n ↔
      size ≤ n ∧ ∀ edge ∈ edges, max edge.1 edge.2 < n := by
  induction edges generalizing size with
  | nil => simp [additions]
  | cons edge edges ih =>
    rw [additions, List.map_cons, List.foldl_cons, ← additions, ih, List.forall_mem_cons,
      Nat.max_le, and_assoc, Edit.need, Nat.succ_le_iff]

/-- Edges that are added to the empty graph are the edges of the result. -/
theorem exists_additions
    (hfits : ∀ edge ∈ edges, edge.1 + 1 < wordLimit ∧ edge.2 + 1 < wordLimit) :
    ∃ g, edges.foldlM (fun g edge => g.addChecked edge.1 edge.2) empty = .ok g ∧
      Graph.Lists g {edge | edge ∈ edges} ∧
      ∀ n, Graph.size g ≤ n ↔ ∀ edge ∈ edges, max edge.1 edge.2 < n := by
  have hedits : ∀ e ∈ additions edges, e.Fits := List.forall_mem_map.mpr hfits
  have hempty : HasEdges empty (standing []) := standing_nil ▸ .empty
  obtain ⟨g, hg, hedges, hsize⟩ := hempty.exists_run hedits
  rw [List.nil_append, standing_additions] at hedges
  rw [additions, List.foldlM_map] at hg
  refine ⟨g, hg, hedges.lists, fun n => ?_⟩
  have hgraph : Graph.size g = g.size := rfl
  rw [hgraph, hsize, need_additions_le_iff]
  exact and_iff_right (Nat.zero_le n)

end Digraph

/-! ## Built graphs -/

namespace Adjacency

variable {edges : List (Nat × Nat)} {n : Nat}

theorem size_ofEdges_le_iff {size : Nat} :
    Graph.size (ofEdges size edges) ≤ n ↔ size ≤ n ∧ ∀ edge ∈ edges, max edge.1 edge.2 < n := by
  have hsize : (Builder.ofSize size).targets.size = size := Array.size_replicate
  rw [ofEdges_eq_build, Builder.size_build, Builder.size_addEdges_le_iff, hsize]

theorem lists_ofEdges (size : Nat) (edges : List (Nat × Nat)) :
    Graph.Lists (ofEdges size edges) {edge | edge ∈ edges} where
  successors := ⟨pairwise_successors_ofEdges size edges, fun _ _ => edge_ofEdges⟩
  predecessors := ⟨pairwise_predecessors_ofEdges size edges, fun _ _ => mem_predecessors_ofEdges⟩
  lt_size := (size_ofEdges_le_iff.mp (Nat.le_refl _)).2

/-- Of numbers that are words, those that leave no room for a table are refused. -/
theorem checkEdges_eq
    (hfits : ∀ edge ∈ edges, edge.1 + 1 < wordLimit ∧ edge.2 + 1 < wordLimit) :
    (edges.forM fun (source, target) => do
        checkNumber (max source target)
        checkSize (max source target)) =
      if ∀ edge ∈ edges, max edge.1 edge.2 < tableLimit then .ok () else .error .tableTooLarge := by
  induction edges with
  | nil => rfl
  | cons edge edges ih =>
    obtain ⟨⟨hsource, htarget⟩, hrest⟩ := List.forall_mem_cons.mp hfits
    have hnumber : checkNumber (max edge.1 edge.2) = .ok () := if_pos (by omega)
    rw [List.forM]
    dsimp only
    rw [hnumber, ok_bind, ih hrest, checkSize]
    simp only [List.forall_mem_cons]
    by_cases hlt : max edge.1 edge.2 < tableLimit
    · simp only [hlt, if_true, true_and, ok_bind]
    · simp only [hlt, if_false, false_and]
      rfl

theorem ofEdgesChecked_eq (size : Nat)
    (hfits : ∀ edge ∈ edges, edge.1 + 1 < wordLimit ∧ edge.2 + 1 < wordLimit) :
    ofEdgesChecked size edges =
      if size < tableLimit ∧ ∀ edge ∈ edges, max edge.1 edge.2 < tableLimit then
        .ok (ofEdges size edges)
      else .error .tableTooLarge := by
  unfold ofEdgesChecked
  rw [checkEdges_eq hfits, checkSize]
  split
  · next hsize =>
    rw [ok_bind]
    simp only [hsize, true_and]
    split <;> rfl
  · next hsize =>
    simp only [hsize, false_and, if_false]
    rfl

/-- Edges that are built into a graph and edges that are added to the empty one, one by one, make
graphs that agree. A graph that is built with nodes of its own has these besides, and of a list of
edges it only matters which occur. -/
theorem ofEdges_agrees
    (hfits : ∀ edge ∈ edges, edge.1 + 1 < wordLimit ∧ edge.2 + 1 < wordLimit) :
    ∃ g, edges.foldlM (fun g edge => g.addChecked edge.1 edge.2) Digraph.empty = .ok g ∧
      Graph.Agree (ofEdges 0 edges) g ∧
      ∀ size,
        Graph.SameEdges (ofEdges size edges) g ∧
        Graph.size (ofEdges size edges) = max size (Graph.size g) ∧
        (∀ edges', (∀ edge, edge ∈ edges' ↔ edge ∈ edges) →
          ofEdges size edges' = ofEdges size edges) ∧
        (∀ node, (Graph.successors (ofEdges size edges) node).Pairwise (· < ·) ∧
          (Graph.predecessors (ofEdges size edges) node).Pairwise (· < ·)) ∧
        (∀ u v, u ∈ Graph.predecessors (ofEdges size edges) v ↔
          v ∈ Graph.successors (ofEdges size edges) u) ∧
        ofEdgesChecked size edges =
          if size < tableLimit ∧ ∀ edge ∈ edges, max edge.1 edge.2 < tableLimit then
            .ok (ofEdges size edges)
          else .error .tableTooLarge := by
  obtain ⟨g, hg, hlists, hsize⟩ := Digraph.exists_additions hfits
  have hsame : ∀ size, Graph.SameEdges (ofEdges size edges) g :=
    fun size => (lists_ofEdges size edges).sameEdges hlists
  have hnodes : ∀ size, Graph.size (ofEdges size edges) = max size (Graph.size g) :=
    fun size => eq_of_forall_ge_iff fun n => by
      rw [size_ofEdges_le_iff, Nat.max_le, hsize]
  refine ⟨g, hg, ⟨hsame 0, (hnodes 0).trans (Nat.zero_max _)⟩, fun size => ?_⟩
  have hbuilt := lists_ofEdges size edges
  exact ⟨hsame size, hnodes size, fun edges' hedges' => ofEdges_congr hedges',
    fun node => ⟨hbuilt.successors.ascending node, hbuilt.predecessors.ascending node⟩,
    hbuilt.mem_predecessors_iff, ofEdgesChecked_eq size hfits⟩

/-- Edges in no order, one of them twice and one from a node to itself. -/
def scattered : List (Nat × Nat) := [(5, 1), (0, 4), (2, 2), (5, 1), (0, 1)]

theorem scattered_agrees :
    (∀ edge ∈ scattered, edge.1 + 1 < wordLimit ∧ edge.2 + 1 < wordLimit) ∧
      ∃ g, scattered.foldlM (fun g edge => g.addChecked edge.1 edge.2) Digraph.empty = .ok g ∧
        Graph.Agree (ofEdges 0 scattered) g ∧
        Graph.size (ofEdges 0 scattered) = 6 ∧ Graph.predecessors (ofEdges 0 scattered) 1 = [0, 5] ∧
        Graph.edgeCount (ofEdges 0 scattered) = 4 ∧ Graph.size (ofEdges 8 scattered) = 8 ∧
        ofEdgesChecked 8 scattered = .ok (ofEdges 8 scattered.reverse) := by
  have hfits : ∀ edge ∈ scattered, edge.1 + 1 < wordLimit ∧ edge.2 + 1 < wordLimit := by
    simp [scattered, wordLimit]
  have htable : 8 < tableLimit ∧ ∀ edge ∈ scattered, max edge.1 edge.2 < tableLimit := by
    simp [scattered, tableLimit]
  obtain ⟨g, hg, hagree, hsized⟩ := ofEdges_agrees hfits
  obtain ⟨-, hsize, hcongr, -, -, hchecked⟩ := hsized 8
  have hnodes : Graph.size g = 6 := by
    cases hg
    rfl
  rw [if_pos htable, ← hcongr scattered.reverse fun edge => List.mem_reverse] at hchecked
  refine ⟨hfits, g, hg, hagree, hagree.size_eq.trans hnodes, ?_, ?_, ?_, hchecked⟩
  · rw [hagree.predecessors_eq]
    cases hg
    rfl
  · rw [hagree.edgeCount_eq]
    cases hg
    rfl
  · rw [hsize, hnodes]
    rfl

end Adjacency

end MethodFlow
