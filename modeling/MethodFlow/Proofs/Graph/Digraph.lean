import MethodFlow.Graph.Digraph
import MethodFlow.Proofs.Graph.Adjacency
/-!
# The edges of an edited graph

A graph that is edited has the edges that were added and not removed since, in two tables that
mirror each other:

* `Rows.insert`, `Rows.erase`: what one change does to either table;
* `HasEdges.addEdge`, `HasEdges.removeEdge`: what one edit does to the set of edges;
* `edits_stand`: what the graph answers after any series of edits.
-/

namespace MethodFlow

/-! ## Ascending lists that change -/

namespace Ascending

variable {l : List Nat} {m n : Nat}

theorem mem_insert : m ∈ insert n l ↔ m = n ∨ m ∈ l := by
  induction l with
  | nil => simp [insert]
  | cons k l ih =>
    unfold insert
    split
    · exact List.mem_cons
    · split
      · next heq =>
        subst heq
        simp
      · rw [List.mem_cons, List.mem_cons, ih, or_left_comm]

theorem pairwise_insert (h : l.Pairwise (· < ·)) (n : Nat) : (insert n l).Pairwise (· < ·) := by
  induction l with
  | nil => exact List.pairwise_singleton _ _
  | cons k l ih =>
    obtain ⟨hk, hl⟩ := List.pairwise_cons.mp h
    unfold insert
    split
    · next hlt =>
      refine List.pairwise_cons.mpr ⟨fun m hm => ?_, h⟩
      rcases List.mem_cons.mp hm with rfl | hm
      · exact hlt
      · exact hlt.trans (hk m hm)
    · split
      · exact h
      · refine List.pairwise_cons.mpr ⟨fun m hm => ?_, ih hl⟩
        rcases mem_insert.mp hm with rfl | hm
        · omega
        · exact hk m hm

theorem mem_erase (h : l.Pairwise (· < ·)) : m ∈ l.erase n ↔ m ≠ n ∧ m ∈ l :=
  List.Nodup.mem_erase_iff (h.imp Nat.ne_of_lt)

end Ascending

namespace Digraph

variable {g : Digraph} {edges : Set (Nat × Nat)} {source target u v n : Nat}

/-! ## One edit -/

theorem size_addEdge (g : Digraph) (source target : Nat) :
    (g.addEdge source target).size = max g.size (max source target + 1) := by
  simp only [size, addEdge, grow, Array.size_modify, Array.size_append, Array.size_replicate]
  omega

theorem size_removeEdge (g : Digraph) (source target : Nat) :
    (g.removeEdge source target).2.size = g.size := by
  simp [size, removeEdge]

theorem successors_addEdge (g : Digraph) (source target u : Nat) :
    Graph.successors (g.addEdge source target) u =
      if source = u then Ascending.insert target (Graph.successors g u)
      else Graph.successors g u :=
  Graph.row_grow_modify (by omega) _ u

theorem predecessors_addEdge (g : Digraph) (source target v : Nat) :
    Graph.predecessors (g.addEdge source target) v =
      if target = v then Ascending.insert source (Graph.predecessors g v)
      else Graph.predecessors g v :=
  Graph.row_grow_modify (by omega) _ v

theorem successors_removeEdge (g : Digraph) (source target u : Nat) :
    Graph.successors (g.removeEdge source target).2 u =
      if source = u then (Graph.successors g u).erase target else Graph.successors g u :=
  Graph.row_modify (.inr rfl) u

theorem predecessors_removeEdge (g : Digraph) (source target v : Nat) :
    Graph.predecessors (g.removeEdge source target).2 v =
      if target = v then (Graph.predecessors g v).erase source else Graph.predecessors g v :=
  Graph.row_modify (.inr rfl) v

theorem successors_eq_nil (hn : g.size ≤ n) : Graph.successors g n = [] := by
  show g.successors[n]?.getD [] = []
  rw [Array.getElem?_eq_none hn, Option.getD_none]

/-! ## The edges of a table -/

structure Rows (row : Nat → List Nat) (r : Nat → Nat → Prop) : Prop where
  ascending : ∀ u, (row u).Pairwise (· < ·)
  mem_iff : ∀ u v, v ∈ row u ↔ r u v

namespace Rows

variable {row row' : Nat → List Nat} {r r' : Nat → Nat → Prop} (h : Rows row r)

include h

/-- Ascending rows are told by what is in them. -/
theorem unique (h' : Rows row' r) (u : Nat) : row u = row' u :=
  (h.ascending u).eq_of_mem_iff (h'.ascending u) fun v => by rw [h.mem_iff, h'.mem_iff]

theorem insert (hrow : ∀ w, row' w = if u = w then Ascending.insert v (row w) else row w)
    (hr : ∀ w x, r' w x ↔ w = u ∧ x = v ∨ r w x) : Rows row' r' where
  ascending w := by
    rw [hrow]
    split
    · exact Ascending.pairwise_insert (h.ascending w) v
    · exact h.ascending w
  mem_iff w x := by
    rw [hrow, hr]
    split
    · next heq => rw [Ascending.mem_insert, h.mem_iff, and_iff_right heq.symm]
    · next hne => rw [h.mem_iff, or_iff_right fun heq => hne heq.1.symm]

theorem erase (hrow : ∀ w, row' w = if u = w then (row w).erase v else row w)
    (hr : ∀ w x, r' w x ↔ r w x ∧ ¬(w = u ∧ x = v)) : Rows row' r' where
  ascending w := by
    rw [hrow]
    split
    · exact (h.ascending w).sublist List.erase_sublist
    · exact h.ascending w
  mem_iff w x := by
    rw [hrow, hr]
    split
    · next heq =>
      rw [Ascending.mem_erase (h.ascending w), h.mem_iff, and_comm, and_iff_right heq.symm]
    · next hne => rw [h.mem_iff, and_iff_left fun heq => hne heq.1.symm]

end Rows

structure HasEdges (g : Digraph) (edges : Set (Nat × Nat)) : Prop where
  size_predecessors : g.predecessors.size = g.size
  successors : Rows (Graph.successors g) fun u v => (u, v) ∈ edges
  predecessors : Rows (Graph.predecessors g) fun v u => (u, v) ∈ edges

namespace HasEdges

theorem empty : HasEdges empty ∅ where
  size_predecessors := rfl
  successors := ⟨fun _ => .nil, fun _ _ => by simp [Digraph.empty, Graph.successors]⟩
  predecessors := ⟨fun _ => .nil, fun _ _ => by simp [Digraph.empty, Graph.predecessors]⟩

theorem addEdge (h : HasEdges g edges) (source target : Nat) :
    HasEdges (g.addEdge source target) (insert (source, target) edges) where
  size_predecessors := by
    have := h.size_predecessors
    simp only [size, Digraph.addEdge, grow, Array.size_modify, Array.size_append,
      Array.size_replicate] at *
    omega
  successors := h.successors.insert (successors_addEdge g source target) fun u v => by
    rw [Set.mem_insert_iff, Prod.mk.injEq]
  predecessors := h.predecessors.insert (predecessors_addEdge g source target) fun v u => by
    rw [Set.mem_insert_iff, Prod.mk.injEq, and_comm]

theorem removeEdge (h : HasEdges g edges) (source target : Nat) :
    HasEdges (g.removeEdge source target).2 (edges \ {(source, target)}) where
  size_predecessors := by
    rw [size_removeEdge, ← h.size_predecessors]
    simp [Digraph.removeEdge]
  successors := h.successors.erase (successors_removeEdge g source target) fun u v => by
    rw [Set.mem_sdiff, Set.mem_singleton_iff, Prod.mk.injEq]
  predecessors := h.predecessors.erase (predecessors_removeEdge g source target) fun v u => by
    rw [Set.mem_sdiff, Set.mem_singleton_iff, Prod.mk.injEq, and_comm (a := u = source)]

theorem hasEdge_iff (h : HasEdges g edges) (u v : Nat) :
    g.hasEdge u v = true ↔ (u, v) ∈ edges := by
  unfold hasEdge
  rw [List.contains_iff_mem, h.successors.mem_iff]

theorem ncard_eq (h : HasEdges g edges) : edges.ncard = Graph.edgeCount g :=
  Graph.ncard_eq_edgeCount (fun _ => successors_eq_nil)
    (fun u => (h.successors.ascending u).imp Nat.ne_of_lt)
    fun edge => (h.successors.mem_iff edge.1 edge.2).symm

theorem predecessors_eq_nil (h : HasEdges g edges) (hn : g.size ≤ n) :
    Graph.predecessors g n = [] := by
  show g.predecessors[n]?.getD [] = []
  rw [Array.getElem?_eq_none (h.size_predecessors.trans_le hn), Option.getD_none]

/-- A node outside the table has no edges. -/
theorem not_mem_of_size_le (h : HasEdges g edges) (hn : g.size ≤ n) (m : Nat) :
    (n, m) ∉ edges ∧ (m, n) ∉ edges := by
  rw [← h.successors.mem_iff, ← h.predecessors.mem_iff, successors_eq_nil hn, h.predecessors_eq_nil hn]
  exact ⟨List.not_mem_nil, List.not_mem_nil⟩

end HasEdges

/-! ## Series of edits -/

inductive Edit where
  | add (source target : Nat)
  | remove (source target : Nat)
deriving DecidableEq

namespace Edit

def make (g : Digraph) : Edit → Except Violation Digraph
  | .add source target => g.addChecked source target
  | .remove source target => .ok (g.removeEdge source target).2

/-- Numbers of nodes are words whose successors are words. -/
def Fits : Edit → Prop
  | .add source target => source + 1 < wordLimit ∧ target + 1 < wordLimit
  | .remove source target => source + 1 < wordLimit ∧ target + 1 < wordLimit

/-- How many nodes there must be after the edit. -/
def need : Edit → Nat
  | .add source target => max source target + 1
  | .remove _ _ => 0

end Edit

variable {edits before : List Edit} {e : Edit}

/-- The edges that were added and not removed since. -/
def standing (edits : List Edit) : Set (Nat × Nat) :=
  {edge | ∃ before after, edits = before ++ .add edge.1 edge.2 :: after ∧
    .remove edge.1 edge.2 ∉ after}

theorem mem_standing_append {edge : Nat × Nat} : edge ∈ standing (edits ++ [e]) ↔
    e = .add edge.1 edge.2 ∨ edge ∈ standing edits ∧ e ≠ .remove edge.1 edge.2 := by
  constructor
  · rintro ⟨before, after, heq, hafter⟩
    rcases List.eq_nil_or_concat after with rfl | ⟨later, last, rfl⟩
    · exact .inl (List.singleton_inj.mp (List.append_inj' heq rfl).2)
    · rw [List.concat_eq_append] at heq hafter
      rw [← List.cons_append, ← List.append_assoc] at heq
      obtain ⟨hedits, hlast⟩ := List.append_inj' heq rfl
      cases List.singleton_inj.mp hlast
      rw [List.mem_append, List.mem_singleton, not_or] at hafter
      exact .inr ⟨⟨before, later, hedits, hafter.1⟩, Ne.symm hafter.2⟩
  · rintro (rfl | ⟨⟨before, after, rfl, hafter⟩, hne⟩)
    · exact ⟨edits, [], rfl, List.not_mem_nil⟩
    · refine ⟨before, after ++ [e], by simp, ?_⟩
      rw [List.mem_append, List.mem_singleton, not_or]
      exact ⟨hafter, Ne.symm hne⟩

theorem standing_nil : standing [] = ∅ := by
  ext edge
  simp [standing]

theorem standing_append_add (edits : List Edit) (source target : Nat) :
    standing (edits ++ [.add source target]) = insert (source, target) (standing edits) := by
  ext edge
  rw [mem_standing_append, Set.mem_insert_iff, Edit.add.injEq, Prod.ext_iff]
  simp [eq_comm]

theorem standing_append_remove (edits : List Edit) (source target : Nat) :
    standing (edits ++ [.remove source target]) = standing edits \ {(source, target)} := by
  ext edge
  rw [mem_standing_append, Set.mem_sdiff, Set.mem_singleton_iff, Prod.ext_iff]
  simp [eq_comm]

/-- An edit is made, and changes the set of edges as it says. -/
theorem HasEdges.exists_make (h : HasEdges g (standing edits)) (he : e.Fits) :
    ∃ g', e.make g = .ok g' ∧ HasEdges g' (standing (edits ++ [e])) ∧
      g'.size = max g.size e.need := by
  cases e with
  | add source target =>
    have hnumber : max source target + 1 < wordLimit := by
      have := he.1
      have := he.2
      omega
    have hmake : Edit.make g (.add source target) = .ok (g.addEdge source target) := by
      show g.addChecked source target = _
      unfold addChecked checkNumber
      rw [if_pos hnumber]
      rfl
    rw [standing_append_add]
    exact ⟨_, hmake, h.addEdge source target, size_addEdge g source target⟩
  | remove source target =>
    rw [standing_append_remove]
    exact ⟨_, rfl, h.removeEdge source target,
      (size_removeEdge g source target).trans (Nat.max_zero _).symm⟩

theorem HasEdges.exists_run (h : HasEdges g (standing before)) (hfits : ∀ e ∈ edits, e.Fits) :
    ∃ g', edits.foldlM Edit.make g = .ok g' ∧ HasEdges g' (standing (before ++ edits)) ∧
      g'.size = edits.foldl (fun size e => max size e.need) g.size := by
  induction edits generalizing before g with
  | nil =>
    rw [List.append_nil]
    exact ⟨g, rfl, h, rfl⟩
  | cons e edits ih =>
    obtain ⟨next, hnext, hedges, hsize⟩ := h.exists_make (hfits e List.mem_cons_self)
    obtain ⟨g', hg', hedges', hsize'⟩ := ih hedges fun d hd => hfits d (List.mem_cons_of_mem _ hd)
    rw [List.append_assoc] at hedges'
    refine ⟨g', ?_, hedges', ?_⟩
    · rw [List.foldlM_cons, hnext]
      exact hg'
    · rw [hsize', hsize]
      rfl

/-- A graph after any series of edits. -/
theorem edits_stand (edits : List Edit) (hfits : ∀ e ∈ edits, e.Fits) :
    ∃ g, edits.foldlM Edit.make empty = .ok g ∧
      g.size = edits.foldl (fun size e => max size e.need) 0 ∧
      (∀ u v, g.hasEdge u v = true ↔ (u, v) ∈ standing edits) ∧
      (∀ u, (Graph.successors g u).Pairwise (· < ·) ∧
        ∀ v, v ∈ Graph.successors g u ↔ (u, v) ∈ standing edits) ∧
      (∀ v, (Graph.predecessors g v).Pairwise (· < ·) ∧
        ∀ u, u ∈ Graph.predecessors g v ↔ (u, v) ∈ standing edits) ∧
      (∀ n, Graph.outDegree g n = (Graph.successors g n).length ∧
        Graph.inDegree g n = (Graph.predecessors g n).length) ∧
      Graph.edgeCount g = (standing edits).ncard ∧
      (∀ u v, (g.removeEdge u v).1 = true ↔ (u, v) ∈ standing edits) ∧
      ∀ n, g.size ≤ n → Graph.successors g n = [] ∧ Graph.predecessors g n = [] ∧
        ∀ m, g.hasEdge n m = false ∧ g.hasEdge m n = false := by
  have hempty : HasEdges empty (standing []) := standing_nil ▸ .empty
  obtain ⟨g, hg, h, hsize⟩ := hempty.exists_run hfits
  rw [List.nil_append] at h
  refine ⟨g, hg, hsize, h.hasEdge_iff, fun u => ⟨h.successors.ascending u, h.successors.mem_iff u⟩,
    fun v => ⟨h.predecessors.ascending v, h.predecessors.mem_iff v⟩,
    fun n => ⟨rfl, rfl⟩, h.ncard_eq.symm, h.hasEdge_iff, fun n hn =>
    ⟨successors_eq_nil hn, h.predecessors_eq_nil hn, fun m => ?_⟩⟩
  rw [← Bool.not_eq_true, ← Bool.not_eq_true, h.hasEdge_iff, h.hasEdge_iff]
  exact h.not_mem_of_size_le hn m

/-- An edge of two that stays, one that is removed, and one that never was. -/
def mended : List Edit := [.add 5 1, .add 0 1, .remove 0 1, .add 5 1, .remove 9 9]

theorem mended_stand :
    (∀ e ∈ mended, e.Fits) ∧ ∃ g, mended.foldlM Edit.make empty = .ok g ∧ g.size = 6 ∧
      Graph.predecessors g 1 = [5] ∧ Graph.edgeCount g = 1 ∧ (standing mended).ncard = 1 := by
  have hfits : ∀ e ∈ mended, e.Fits := by simp [mended, Edit.Fits, wordLimit]
  obtain ⟨g, hg, hsize, -, -, -, -, hcount, -⟩ := edits_stand mended hfits
  have hone : Graph.edgeCount g = 1 := by
    cases hg
    rfl
  refine ⟨hfits, g, hg, hsize, ?_, hone, hcount.symm.trans hone⟩
  cases hg
  rfl

end Digraph

end MethodFlow
