import MethodFlow.Graph.Reach
import MethodFlow.Proofs.Graph.Adjacency
import Mathlib.Logic.Relation
/-!
# What can be reached

Spreading marks along edges marks exactly the nodes at the end of a path:

* `spread_sound`: a new mark is at the end of a path from the worklist;
* `spread_closed`: when the worklist is empty, marks have reached the end of every edge.
-/

namespace MethodFlow.Graph

open Relation

variable {γ : Type} [Graph γ] {g : γ} {marks : Array Bool} {u v node : Nat}

/-- The entry is in the table and set. -/
def Marked (marks : Array Bool) (entry : Nat) : Prop := marks[entry]? = some true

theorem Marked.lt_size (h : Marked marks v) : v < marks.size :=
  (Array.getElem?_eq_some_iff.mp h).1

theorem marked_setIfInBounds :
    Marked (marks.setIfInBounds node true) v ↔ (v = node ∧ node < marks.size) ∨ Marked marks v := by
  unfold Marked
  rw [Array.getElem?_setIfInBounds]
  by_cases hnode : node = v
  · subst hnode
    rw [if_pos rfl]
    split
    · next hlt => simp [hlt]
    · next hlt => simp [hlt]
  · rw [if_neg hnode]
    simp [Ne.symm hnode]

theorem not_marked_replicate (n : Nat) : ¬Marked (.replicate n false) v := by
  unfold Marked
  rw [Array.getElem?_replicate]
  split <;> simp

theorem marked_of_ne_false (hv : v < marks.size) (h : marks[v]? ≠ some false) : Marked marks v := by
  unfold Marked
  rw [Array.getElem?_eq_getElem hv] at h ⊢
  simpa using h

@[simp] theorem size_spread (g : γ) (marks : Array Bool) (work : List Nat) :
    (spread g marks work).size = marks.size := by
  fun_induction spread g marks work with
  | case1 => rfl
  | case2 marks node rest h ih => simpa using ih
  | case3 marks node rest h ih => exact ih

theorem spread_sound {work : List Nat} (h : Marked (spread g marks work) v) :
    Marked marks v ∨ ∃ s ∈ work, s < marks.size ∧ ReflTransGen (Edge g) s v := by
  fun_induction spread g marks work with
  | case1 marks => exact .inl h
  | case2 marks node rest hnode ih =>
    have hlt : node < marks.size := (Array.getElem?_eq_some_iff.mp hnode).1
    rcases ih h with hmark | ⟨s, hs, hlts, hpath⟩
    · rcases marked_setIfInBounds.mp hmark with ⟨rfl, -⟩ | hmark
      · exact .inr ⟨v, List.mem_cons_self, hlt, .refl⟩
      · exact .inl hmark
    · rw [Array.size_setIfInBounds] at hlts
      rcases List.mem_append.mp hs with hs | hs
      · exact .inr ⟨node, List.mem_cons_self, hlt, .head hs hpath⟩
      · exact .inr ⟨s, List.mem_cons_of_mem _ hs, hlts, hpath⟩
  | case3 marks node rest hnode ih =>
    rcases ih h with hmark | ⟨s, hs, hlts, hpath⟩
    · exact .inl hmark
    · exact .inr ⟨s, List.mem_cons_of_mem _ hs, hlts, hpath⟩

theorem spread_mono {work : List Nat} (h : Marked marks v) : Marked (spread g marks work) v := by
  fun_induction spread g marks work with
  | case1 marks => exact h
  | case2 marks node rest hnode ih => exact ih (marked_setIfInBounds.mpr (.inr h))
  | case3 marks node rest hnode ih => exact ih h

theorem spread_work {work : List Nat} (hv : v ∈ work) (hlt : v < marks.size) :
    Marked (spread g marks work) v := by
  fun_induction spread g marks work with
  | case1 marks => simp at hv
  | case2 marks node rest hnode ih =>
    rcases List.mem_cons.mp hv with rfl | hv
    · exact spread_mono (marked_setIfInBounds.mpr (.inl ⟨rfl, hlt⟩))
    · exact ih (List.mem_append_right _ hv) (by simpa using hlt)
  | case3 marks node rest hnode ih =>
    rcases List.mem_cons.mp hv with rfl | hv
    · exact spread_mono (marked_of_ne_false hlt hnode)
    · exact ih hv hlt

/-- Every edge from a marked node ends at a marked node or in the worklist. -/
def Covered (g : γ) (marks : Array Bool) (work : List Nat) : Prop :=
  ∀ u, Marked marks u → ∀ v, Edge g u v → v < marks.size → Marked marks v ∨ v ∈ work

theorem Covered.mark {rest : List Nat} (h : Covered g marks (node :: rest)) :
    Covered g (marks.setIfInBounds node true) (successors g node ++ rest) := by
  intro u hu v huv hv
  rw [Array.size_setIfInBounds] at hv
  rcases marked_setIfInBounds.mp hu with ⟨rfl, -⟩ | hu
  · exact .inr (List.mem_append_left _ huv)
  · rcases h u hu v huv hv with hmark | hmem
    · exact .inl (marked_setIfInBounds.mpr (.inr hmark))
    · rcases List.mem_cons.mp hmem with rfl | hmem
      · exact .inl (marked_setIfInBounds.mpr (.inl ⟨rfl, hv⟩))
      · exact .inr (List.mem_append_right _ hmem)

theorem Covered.skip {rest : List Nat} (h : Covered g marks (node :: rest))
    (hnode : marks[node]? ≠ some false) : Covered g marks rest := by
  intro u hu v huv hv
  rcases h u hu v huv hv with hmark | hmem
  · exact .inl hmark
  · rcases List.mem_cons.mp hmem with rfl | hmem
    · exact .inl (marked_of_ne_false hv hnode)
    · exact .inr hmem

theorem spread_closed {work : List Nat} (h : Covered g marks work) :
    Covered g (spread g marks work) [] := by
  fun_induction spread g marks work with
  | case1 marks => exact h
  | case2 marks node rest hnode ih => exact ih h.mark
  | case3 marks node rest hnode ih => exact ih (h.skip hnode)

/-- What is reachable is the end of a path from a start. -/
theorem marked_reachable_iff (hg : Closed g) (starts : List Nat) :
    Marked (reachable g starts) v ↔
      ∃ s ∈ starts, s < size g ∧ ReflTransGen (Edge g) s v := by
  constructor
  · intro h
    rcases spread_sound h with hmark | ⟨s, hs, hlt, hpath⟩
    · exact absurd hmark (not_marked_replicate _)
    · exact ⟨s, hs, by simpa using hlt, hpath⟩
  · rintro ⟨s, hs, hlt, hpath⟩
    have hcovered : Covered g (reachable g starts) [] :=
      spread_closed fun u hu => absurd hu (not_marked_replicate _)
    induction hpath with
    | refl => exact spread_work hs (by simpa using hlt)
    | tail _ hedge ih =>
      have hsize : (reachable g starts).size = size g := by simp [reachable]
      simpa using hcovered _ ih _ hedge (by rw [hsize]; exact hg hedge)

@[simp] theorem size_reachable (g : γ) (starts : List Nat) :
    (reachable g starts).size = size g := by
  simp [reachable]

end MethodFlow.Graph
