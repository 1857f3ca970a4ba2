import MethodFlow.Proofs.Escape.ObjectFlow
/-!
# The flow of objects between classes

Variables that copies connect form a class, and the fields lead from class to class.  Nothing is
lost when variables are replaced by their classes:

* `exposed_iff_classes`: a variable is exposed exactly if its class can be reached, along fields,
  from the class of a slot or of a released variable, or from a class on a cycle of fields.
-/

namespace MethodFlow.ObjectFlow

open Relation

variable {F : ObjectFlow} {inside slot : Variable → Prop} {number : Variable → Nat}
  {u v : Variable} {c d : Nat}

/-- The variables inside are numbered by their classes, and objects flow between them only. -/
structure Classifies (F : ObjectFlow) (inside : Variable → Prop) (number : Variable → Nat) :
    Prop where
  number_eq_iff : ∀ {u v}, inside u → inside v → (number u = number v ↔ EqvGen F.Copies u v)
  copies_inside : ∀ {u v}, F.Copies u v → inside u ∧ inside v
  holds_inside : ∀ {u v}, F.Holds u v → inside u ∧ inside v

/-- A field leads from one class to the other. -/
def ClassEdge (F : ObjectFlow) (number : Variable → Nat) (c d : Nat) : Prop :=
  ∃ u v, F.Holds u v ∧ number u = c ∧ number v = d

/-! ## Copies stay in a class -/

theorem link_of_copies (h : SymmGen F.Copies u v) : F.Link u v := by
  rcases h with h | h
  · exact .inl h
  · exact .inr (.inl h)

theorem path_of_eqvGen (h : EqvGen F.Copies u v) : ReflTransGen F.Link u v := by
  rw [← EqvGen.reflTransGen_symmGen] at h
  exact ReflTransGen.mono (fun _ _ => link_of_copies) _ _ h

namespace Classifies

variable (h : F.Classifies inside number)

include h

theorem link_inside (huv : F.Link u v) : inside u ∧ inside v := by
  rcases huv with hcopy | hcopy | hfield
  · exact h.copies_inside hcopy
  · exact (h.copies_inside hcopy).symm
  · exact h.holds_inside hfield

theorem number_eq_of_copies (huv : F.Copies u v) : number u = number v := by
  obtain ⟨hu, hv⟩ := h.copies_inside huv
  exact (h.number_eq_iff hu hv).mpr (.rel u v huv)

theorem path_of_number_eq (hu : inside u) (hv : inside v) (heq : number u = number v) :
    ReflTransGen F.Link u v :=
  path_of_eqvGen ((h.number_eq_iff hu hv).mp heq)

/-! ## From variables to classes -/

theorem classPath_of_path (hpath : ReflTransGen F.Link u v) :
    ReflTransGen (F.ClassEdge number) (number u) (number v) := by
  induction hpath with
  | refl => exact .refl
  | tail _ hlink ih =>
    rcases hlink with hcopy | hcopy | hfield
    · rwa [← h.number_eq_of_copies hcopy]
    · rwa [h.number_eq_of_copies hcopy]
    · exact ih.tail ⟨_, _, hfield, rfl, rfl⟩

theorem classCycle_of_onCycle (hv : F.OnCycle v) :
    TransGen (F.ClassEdge number) (number v) (number v) := by
  obtain ⟨a, b, hva, hab, hbv⟩ := hv
  have hedge : F.ClassEdge number (number a) (number b) := ⟨a, b, hab, rfl, rfl⟩
  exact (TransGen.tail' (h.classPath_of_path hva) hedge).trans_left (h.classPath_of_path hbv)

/-! ## From classes to variables -/

theorem path_of_classPath (hpath : ReflTransGen (F.ClassEdge number) c d) (hu : inside u)
    (hv : inside v) (huc : number u = c) (hvd : number v = d) : ReflTransGen F.Link u v := by
  induction hpath generalizing v with
  | refl => exact h.path_of_number_eq hu hv (huc.trans hvd.symm)
  | tail _ hedge ih =>
    obtain ⟨a, b, hab, ha, hb⟩ := hedge
    obtain ⟨hina, hinb⟩ := h.holds_inside hab
    have htail : ReflTransGen F.Link b v := h.path_of_number_eq hinb hv (hb.trans hvd.symm)
    exact ((ih hina ha).tail (.inr (.inr hab))).trans htail

/-- Some variable of a class on a cycle lies on a cycle itself. -/
theorem exists_onCycle_of_classCycle (hcycle : TransGen (F.ClassEdge number) c c) :
    ∃ a, inside a ∧ number a = c ∧ F.OnCycle a := by
  obtain ⟨e, ⟨a, b, hab, ha, hb⟩, hback⟩ := TransGen.head'_iff.mp hcycle
  obtain ⟨hina, hinb⟩ := h.holds_inside hab
  exact ⟨a, hina, ha, a, b, .refl, hab, h.path_of_classPath hback hinb hina hb ha⟩

/-- What exposes a class by itself: a slot or a released variable in it, or a cycle through it. -/
theorem exposed_iff_classes (hv : inside v) :
    F.Exposed slot v ↔
      ∃ c, ((∃ u, inside u ∧ (slot u ∨ F.Released u) ∧ number u = c) ∨
          TransGen (F.ClassEdge number) c c) ∧
        ReflTransGen (F.ClassEdge number) c (number v) := by
  constructor
  · intro hexposed
    induction hexposed with
    | slot hslot => exact ⟨_, .inl ⟨_, hv, .inl hslot, rfl⟩, .refl⟩
    | released hreleased => exact ⟨_, .inl ⟨_, hv, .inr hreleased, rfl⟩, .refl⟩
    | cyclic hcycle => exact ⟨_, .inr (h.classCycle_of_onCycle hcycle), .refl⟩
    | link _ hlink ih =>
      obtain ⟨c, hstart, hpath⟩ := ih (h.link_inside hlink).1
      exact ⟨c, hstart, hpath.trans (h.classPath_of_path (.single hlink))⟩
  · rintro ⟨c, ⟨u, hu, hstart, huc⟩ | hcycle, hpath⟩
    · refine exposed_of_path F ?_ (h.path_of_classPath hpath hu hv huc rfl)
      rcases hstart with hslot | hreleased
      · exact .slot hslot
      · exact .released hreleased
    · obtain ⟨a, ha, hac, hon⟩ := h.exists_onCycle_of_classCycle hcycle
      exact exposed_of_path F (.cyclic hon) (h.path_of_classPath hpath ha hv hac rfl)

end Classifies

end MethodFlow.ObjectFlow
