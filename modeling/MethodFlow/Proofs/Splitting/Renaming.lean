import MethodFlow.Proofs.ControlFlow
import MethodFlow.Proofs.Instruction.Renaming
import MethodFlow.Splitting
import Mathlib.Data.List.Nodup
/-!
# Turning references to copies

The references of a block are renamed by a table of nodes and copies:

* `redirect_cases`: a label is kept, or is a node and turned to a copy of it;
* `redirect_redirect`: renaming again changes nothing, as no copy is a node.
-/

namespace MethodFlow

theorem Block.targets?_mapLabels (f : Label → Label) (b : Block) :
    (b.mapLabels f).targets? = b.targets?.map (List.map f) := by
  unfold targets? last? mapLabels
  rw [List.getLast?_map]
  cases b.instructions.getLast? with
  | none => rfl
  | some i => exact i.targets?_mapLabels f

/-! ## The table of copies -/

namespace Program

variable {pairs : List (Label × Label)} {bound : Nat} {l node copy : Label}

/-- The nodes are below a bound that the copies are not below. -/
def Apart (pairs : List (Label × Label)) (bound : Nat) : Prop :=
  ∀ pair ∈ pairs, pair.1.index < bound ∧ bound ≤ pair.2.index

theorem mem_of_copyOf? (h : copyOf? pairs l = some copy) : (l, copy) ∈ pairs := by
  obtain ⟨⟨node, found⟩, hfind, hcopy⟩ := Option.map_eq_some_iff.mp h
  have hnode : node = l := by simpa using List.find?_some hfind
  have hmem := List.mem_reverse.mp (List.mem_of_find?_eq_some hfind)
  rw [hnode] at hmem
  exact hcopy ▸ hmem

theorem copyOf?_eq_none (h : ∀ pair ∈ pairs, pair.1 ≠ l) : copyOf? pairs l = none := by
  unfold copyOf?
  rw [Option.map_eq_none_iff, List.find?_eq_none]
  intro pair hpair heq
  exact h pair (List.mem_reverse.mp hpair) (by simpa using heq)

theorem exists_copyOf? (h : (node, copy) ∈ pairs) : ∃ found, copyOf? pairs node = some found := by
  rw [← Option.isSome_iff_exists, copyOf?, Option.isSome_map, List.find?_isSome]
  exact ⟨(node, copy), List.mem_reverse.mpr h, by simp⟩

theorem redirect_of_forall_ne (h : ∀ pair ∈ pairs, pair.1 ≠ l) : redirect pairs l = l := by
  unfold redirect
  rw [copyOf?_eq_none h, Option.getD_none]

theorem redirect_mem (h : (node, copy) ∈ pairs) : (node, redirect pairs node) ∈ pairs := by
  obtain ⟨found, hfound⟩ := exists_copyOf? h
  unfold redirect
  rw [hfound, Option.getD_some]
  exact mem_of_copyOf? hfound

/-- A label is kept, or is a node and turned to a copy of it. -/
theorem redirect_cases (pairs : List (Label × Label)) (l : Label) :
    redirect pairs l = l ∧ (∀ pair ∈ pairs, pair.1 ≠ l) ∨ (l, redirect pairs l) ∈ pairs := by
  by_cases h : ∀ pair ∈ pairs, pair.1 ≠ l
  · exact .inl ⟨redirect_of_forall_ne h, h⟩
  · simp only [not_forall, Decidable.not_not] at h
    obtain ⟨⟨node, copy⟩, hpair, rfl⟩ := h
    exact .inr (redirect_mem hpair)

theorem redirect_eq_of_mem (hnodup : (pairs.map (·.1)).Nodup) (h : (node, copy) ∈ pairs) :
    redirect pairs node = copy :=
  congrArg Prod.snd (List.inj_on_of_nodup_map hnodup (redirect_mem h) h rfl)

theorem Apart.redirect_of_le (h : Apart pairs bound) (hl : bound ≤ l.index) :
    redirect pairs l = l := by
  refine redirect_of_forall_ne fun pair hpair heq => ?_
  have hlt := (h pair hpair).1
  rw [heq] at hlt
  omega

theorem Apart.redirect_redirect (h : Apart pairs bound) :
    redirect pairs ∘ redirect pairs = redirect pairs := by
  funext l
  rcases redirect_cases pairs l with ⟨heq, -⟩ | hmem
  · rw [Function.comp_apply, heq, heq]
  · exact h.redirect_of_le (h _ hmem).2

end Program

end MethodFlow
