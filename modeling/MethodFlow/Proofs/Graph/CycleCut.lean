import MethodFlow.Proofs.Strict.Graph
import Mathlib.Data.List.Cycle
/-!
# Back edges and cycles

An edge that leads back into the path being explored closes a cycle, and every cycle has one:

* `wellFounded_unflagged`: edges to unflagged nodes lead down in the order in which nodes are
  finished;
* `exists_marked_of_chain`: a cycle cannot consist of such edges alone;
* `back_edges_cut`: what the search does to a graph that has been built.
-/

namespace MethodFlow.Graph

open Relation

variable {γ : Type} [Graph γ] {g : γ} {before after : Array Bool} {c : Cycle Nat} {u v : Nat}

theorem wellFounded_unflagged (hg : Closed g)
    (hacc : ∀ u, u < size g → Acc (Unflagged g after) u) : WellFounded (Unflagged g after) :=
  ⟨fun u => .intro u fun v hv => hacc v (hg hv.1)⟩

/-- Whatever a well-founded relation leads down from does not come round. -/
theorem exists_marked_of_chain (hwf : WellFounded (Unflagged g after)) (hc : c.Chain (Edge g))
    (hne : c ≠ .nil) : ∃ u ∈ c, Marked after u := by
  by_contra hnone
  push Not at hnone
  have hdown : c.Chain fun u v => TransGen (Function.swap (Unflagged g after)) u v := by
    induction c with
    | nil => trivial
    | cons a l =>
      rw [Cycle.chain_coe_cons] at hc ⊢
      refine hc.imp_of_mem_imp fun u v _ hv hedge => .single ⟨hedge, hnone v ?_⟩
      simpa [or_comm] using hv
  have hirrefl : Std.Irrefl (TransGen (Function.swap (Unflagged g after))) := by
    refine ⟨fun u hu => ?_⟩
    rw [transGen_swap] at hu
    exact not_rel_self_of_acc (hwf.apply u).transGen hu
  exact hne hdown.eq_nil_of_irrefl

theorem exists_cycle_of_transGen (h : TransGen (Edge g) u u) :
    ∃ c : Cycle Nat, u ∈ c ∧ c.Chain (Edge g) := by
  obtain ⟨v, hv, hedge⟩ := TransGen.tail'_iff.mp h
  obtain ⟨l, hchain, hlast⟩ := List.exists_isChain_cons_of_relationReflTransGen hv
  refine ⟨(u :: l : List Nat), by simp, ?_⟩
  rw [Cycle.chain_coe_cons, ← List.cons_append, List.isChain_append]
  refine ⟨hchain, List.isChain_singleton u, fun last hlast' target htarget => ?_⟩
  rw [List.getLast?_eq_some_getLast (List.cons_ne_nil u l), hlast] at hlast'
  cases hlast'
  cases htarget
  exact hedge

/-- The search finishes every node, having given each a frame once.  It takes no flag back, sets
flags on cycles only and on every cycle, and counts the flags that it has set. -/
theorem back_edges_cut {g : Adjacency} {size count : Nat} {edges : List (Nat × Nat)}
    (hbuilt : g = .ofEdges size edges) (hsize : before.size = Graph.size g)
    (hmark : markCycles g before = (after, count)) :
    (∃ n last, EndsAfter (Search.pass? g) n (.start g before) last ∧
      last.flags = (after, count) ∧
      (∀ u, u < Graph.size g → last.visits[u]? = some Visit.done) ∧
      last.pushed.Perm (List.range (Graph.size g))) ∧
    Strict.markCycles g before = .ok (after, count) ∧
    after.size = before.size ∧
    (∀ u, Marked before u → Marked after u) ∧
    (∀ u, Marked after u → Marked before u ∨ ∃ c : Cycle Nat, u ∈ c ∧ c.Chain (Edge g)) ∧
    (∀ c : Cycle Nat, c ≠ .nil → c.Chain (Edge g) → ∃ u ∈ c, Marked after u) ∧
    count = {u : Nat | before[u]? = some false ∧ after[u]? = some true}.ncard := by
  have hg : Closed g := hbuilt ▸ Adjacency.closed_ofEdges size edges
  have hspec := markCycles_spec hg hsize
  have hstrict := Strict.markCycles_eq_ok hg hsize
  obtain ⟨n, last, hends, hflags, hsearching, hdone⟩ := exists_search hg hsize
  have hnoted := hsearching.noted
  have hcount := hnoted.count_eq
  rw [hmark] at hspec hstrict hflags
  rw [hflags] at hcount
  obtain ⟨hcut, hacc⟩ := hspec
  refine ⟨⟨n, last, hends, hflags, hdone, ?_⟩, hstrict, hcut.size_eq, hcut.mono,
    fun u hu => (hcut.sound u hu).imp_right exists_cycle_of_transGen,
    fun c hne hc => exists_marked_of_chain (wellFounded_unflagged hg hacc) hc hne, ?_⟩
  · apply (List.perm_ext_iff_of_nodup hnoted.nodup_pushed List.nodup_range).mpr
    intro u
    rw [hnoted.mem_pushed_iff, hsearching.exploring.size_visits, List.mem_range]
    apply and_iff_left_of_imp
    intro hu
    rw [hdone u hu]
    exact fun heq => by cases heq
  · rw [show count = (raised before after).ncard from hcount]
    congr 1
    ext u
    apply and_congr_left
    intro hraised
    have hlt : u < before.size := hcut.size_eq ▸ Marked.lt_size hraised
    rw [Marked, Array.getElem?_eq_getElem hlt]
    simp

/-- A cycle that no root leads to, a loop, and a node that has been flagged before. -/
def looping : Adjacency := .ofEdges 5 [(1, 2), (2, 1), (3, 3), (0, 4)]

theorem looping_cut :
    looping = .ofEdges 5 [(1, 2), (2, 1), (3, 3), (0, 4)] ∧
      #[true, false, false, false, false].size = size looping ∧
      markCycles looping #[true, false, false, false, false] =
        (#[true, true, false, true, false], 2) ∧
      (∃ n last, EndsAfter (Search.pass? looping) n
        (.start looping #[true, false, false, false, false]) last ∧
        last.pushed.Perm (List.range (size looping))) ∧
      (∃ u ∈ (↑[2, 1] : Cycle Nat), Marked #[true, true, false, true, false] u) ∧
      {u : Nat | #[true, false, false, false, false][u]? = some false ∧
        #[true, true, false, true, false][u]? = some true}.ncard = 2 := by
  have hbuilt : looping = .ofEdges 5 [(1, 2), (2, 1), (3, 3), (0, 4)] := rfl
  have hsize : #[true, false, false, false, false].size = size looping := by cbv
  have hmark : markCycles looping #[true, false, false, false, false] =
      (#[true, true, false, true, false], 2) := by cbv
  have hchain : (↑[2, 1] : Cycle Nat).Chain (Edge looping) := by
    have hedge : ∀ u v, (u, v) ∈ [(1, 2), (2, 1), (3, 3), (0, 4)] → Edge looping u v :=
      fun u v h => Adjacency.edge_ofEdges.mpr h
    rw [Cycle.chain_coe_cons]
    exact .cons_cons (hedge 2 1 (by decide)) (.cons_cons (hedge 1 2 (by decide)) (.singleton 2))
  obtain ⟨⟨n, last, hends, -, -, hpushed⟩, -, -, -, -, hcut, hcount⟩ :=
    back_edges_cut hbuilt hsize hmark
  exact ⟨hbuilt, hsize, hmark, ⟨n, last, hends, hpushed⟩, hcut _ (by decide) hchain, hcount.symm⟩

end MethodFlow.Graph
