import MethodFlow.Proofs.Escape.Exactness
import MethodFlow.Proofs.NullCheck.Insertion
/-!
# Null checks do not change the escape facts

A check gives its variable the object that the call was made on, and the call then releases the
variable in place of the object.  Both are in one class, so that nothing is lost:

* `Extends.classNumber_eq`: the classes keep their numbers, and a variable that is added joins the
  class of the object that it checks;
* `Extends.escaping_eq`: the same classes escape;
* `analyze_insertNullChecks`: every answer about the program stays what it was.
-/

namespace MethodFlow

open Relation

/-! ## Facts -/

namespace Fact

/-- What is said after some released objects are each released through a variable that is added. -/
structure Rerouted (facts facts' : List Fact) (checks : Checks) : Prop where
  fieldEdges_eq : fieldEdges facts' = fieldEdges facts
  allocations_eq : allocations facts' = allocations facts
  copies_iff : ∀ u v, (flow facts').Copies u v ↔ (flow facts).Copies u v ∨ (u, v) ∈ checks
  released_after : ∀ v, (flow facts').Released v →
    (flow facts).Released v ∨ ∃ object, (v, object) ∈ checks
  released_before : ∀ v, (flow facts).Released v →
    (flow facts').Released v ∨ ∃ checked, (checked, v) ∈ checks
  released_check : ∀ w v, (w, v) ∈ checks → (flow facts').Released w ∧ (flow facts).Released v

namespace Rerouted

variable {facts facts' more more' : List Fact} {checks checks' all : Checks}

theorem refl (facts : List Fact) : Rerouted facts facts [] where
  fieldEdges_eq := rfl
  allocations_eq := rfl
  copies_iff u v := by simp
  released_after v hv := .inl hv
  released_before v hv := .inl hv
  released_check w v hmem := by cases hmem

theorem append (h : Rerouted facts facts' checks) (h' : Rerouted more more' checks')
    (hall : ∀ c, c ∈ all ↔ c ∈ checks ∨ c ∈ checks') :
    Rerouted (facts ++ more) (facts' ++ more') all where
  fieldEdges_eq := by
    simp only [fieldEdges, List.filterMap_append]
    exact congrArg₂ _ h.fieldEdges_eq h'.fieldEdges_eq
  allocations_eq := by
    simp only [allocations, List.filterMap_append]
    exact congrArg₂ _ h.allocations_eq h'.allocations_eq
  copies_iff u v := by
    show .copy u v ∈ facts' ++ more' ↔ .copy u v ∈ facts ++ more ∨ (u, v) ∈ all
    rw [List.mem_append, List.mem_append, hall, or_or_or_comm]
    exact or_congr (h.copies_iff u v) (h'.copies_iff u v)
  released_after v hv := by
    rcases List.mem_append.mp hv with hv | hv
    · rcases h.released_after v hv with hold | ⟨object, hmem⟩
      · exact .inl (List.mem_append_left _ hold)
      · exact .inr ⟨object, (hall _).mpr (.inl hmem)⟩
    · rcases h'.released_after v hv with hold | ⟨object, hmem⟩
      · exact .inl (List.mem_append_right _ hold)
      · exact .inr ⟨object, (hall _).mpr (.inr hmem)⟩
  released_before v hv := by
    rcases List.mem_append.mp hv with hv | hv
    · rcases h.released_before v hv with hnew | ⟨checked, hmem⟩
      · exact .inl (List.mem_append_left _ hnew)
      · exact .inr ⟨checked, (hall _).mpr (.inl hmem)⟩
    · rcases h'.released_before v hv with hnew | ⟨checked, hmem⟩
      · exact .inl (List.mem_append_right _ hnew)
      · exact .inr ⟨checked, (hall _).mpr (.inr hmem)⟩
  released_check w v hmem := by
    rcases (hall _).mp hmem with hmem | hmem
    · obtain ⟨hw, hv⟩ := h.released_check w v hmem
      exact ⟨List.mem_append_left _ hw, List.mem_append_left _ hv⟩
    · obtain ⟨hw, hv⟩ := h'.released_check w v hmem
      exact ⟨List.mem_append_right _ hw, List.mem_append_right _ hv⟩

/-- A released object is copied first, and the copy released. -/
theorem check (checked object : Variable) :
    Rerouted [.escapes object] [.copy checked object, .escapes checked] [(checked, object)] where
  fieldEdges_eq := rfl
  allocations_eq := rfl
  copies_iff u v := by simp [flow]
  released_after v hv := by
    have heq : v = checked := by simpa [flow] using hv
    exact .inr ⟨object, heq ▸ List.mem_singleton.mpr rfl⟩
  released_before v hv := by
    have heq : v = object := by simpa [flow] using hv
    exact .inr ⟨checked, heq ▸ List.mem_singleton.mpr rfl⟩
  released_check w v hmem := by
    cases List.mem_singleton.mp hmem
    simp [flow]

end Rerouted

end Fact

theorem Guards.rerouted {kinds : List Dispatch} {is js : List Instruction} {checks : Checks}
    (h : Guards kinds is js checks) :
    Fact.Rerouted (is.flatMap Instruction.facts) (js.flatMap Instruction.facts) checks := by
  induction h with
  | nil => exact .refl _
  | @keep i is js checks _ _ ih =>
    rw [List.flatMap_cons, List.flatMap_cons]
    exact (Fact.Rerouted.refl i.facts).append ih (by simp)
  | @check call checked object is js checks _ hobject _ ih =>
    let others := (call.arguments ++ call.dest.toList).map Fact.escapes
    have hcall : ∀ v, Fact.call (some v) call.arguments call.dest = [.escapes v] ++ others :=
      fun v => by simp [Fact.call, others]
    have hold : (Instruction.invoke call).facts = [.escapes object] ++ others := by
      rw [Instruction.facts, hobject, hcall]
    have hnew : (Instruction.nullCheck checked object).facts ++
        (Instruction.invoke { call with object := some checked }).facts =
          [.copy checked object, .escapes checked] ++ others := by
      rw [Instruction.facts, Instruction.facts, hcall]
      rfl
    have hfirst : Fact.Rerouted ([.escapes object] ++ others)
        ([.copy checked object, .escapes checked] ++ others) [(checked, object)] :=
      (Fact.Rerouted.check checked object).append (.refl others) (by simp)
    rw [List.flatMap_cons, List.flatMap_cons, List.flatMap_cons, ← List.append_assoc, hold, hnew]
    exact hfirst.append ih fun c => List.mem_append.trans or_comm

theorem Block.Guards.rerouted {kinds : List Dispatch} {b b' : Block} {checks : Checks}
    (h : b.Guards kinds b' checks) : Fact.Rerouted b.facts b'.facts checks := by
  rw [facts, facts, h.phis_eq]
  exact (Fact.Rerouted.refl _).append h.instructions.rerouted (by simp)

theorem GuardsBlocks.rerouted {kinds : List Dispatch} {bs bs' : List Block} {checks : Checks}
    (h : GuardsBlocks kinds bs bs' checks) :
    Fact.Rerouted (bs.flatMap Block.facts) (bs'.flatMap Block.facts) checks := by
  induction h with
  | nil => exact .refl _
  | cons hb _ ih =>
    rw [List.flatMap_cons, List.flatMap_cons]
    exact hb.rerouted.append ih fun c => List.mem_append

theorem Program.Inserts.rerouted {p q : Program} {kinds : List Dispatch} {checks : Checks}
    (h : p.Inserts kinds q checks) : Fact.Rerouted p.facts q.facts checks :=
  h.blocks.rerouted

/-! ## Classes -/

namespace EscapeFacts

/-- The facts of a program in range, before and after numbered checks have been added. -/
structure Extends (n : Nat) (facts facts' : List Fact) (checks : Checks) : Prop
    extends Fact.Rerouted facts facts' checks where
  inside : Inside n facts
  allocated : ∀ v ∈ Fact.allocations facts, v.index < n
  numbered : checks.Numbered n
  le_limit : n + checks.length ≤ indexLimit

namespace Extends

variable {n : Nat} {facts facts' : List Fact} {checks : Checks} {u v w : Variable} {x y : Nat}
  {slots slots' : List Nat} (h : Extends n facts facts' checks)

include h

theorem index_lt_of_check (hmem : (w, v) ∈ checks) : v.index < n :=
  h.inside.2.2 v (h.released_check w v hmem).2

theorem inside_after : Inside (n + checks.length) facts' := by
  refine ⟨fun u v huv => ?_, fun u v huv => ?_, fun v hv => ?_⟩
  · rcases (h.copies_iff u v).mp huv with hold | hmem
    · have := h.inside.1 u v hold
      omega
    · have := h.index_lt_of_check hmem
      have := h.numbered.index_bounds hmem
      omega
  · have hedge : (u, v) ∈ Fact.fieldEdges facts := h.fieldEdges_eq ▸ Fact.mem_fieldEdges.mpr huv
    have := h.inside.2.1 u v (Fact.mem_fieldEdges.mp hedge)
    omega
  · rcases h.released_after v hv with hold | ⟨object, hmem⟩
    · have := h.inside.2.2 v hold
      omega
    · exact (h.numbered.index_bounds hmem).2

/-- What is copied into each other comes from variables that were before. -/
theorem eqvGen_origin (huv : EqvGen (Fact.flow facts').Copies u v) :
    EqvGen (Fact.flow facts).Copies (checks.origin u) (checks.origin v) := by
  induction huv with
  | rel u v huv =>
    rcases (h.copies_iff u v).mp huv with hold | hmem
    · obtain ⟨hu, hv⟩ := h.inside.1 u v hold
      rw [h.numbered.origin_of_lt hu, h.numbered.origin_of_lt hv]
      exact .rel u v hold
    · rw [h.numbered.origin_of_mem hmem, h.numbered.origin_of_lt (h.index_lt_of_check hmem)]
      exact .refl v
  | refl u => exact .refl _
  | symm u v _ ih => exact .symm _ _ ih
  | trans u v w _ _ ih₁ ih₂ => exact .trans _ _ _ ih₁ ih₂

theorem eqvGen_copies_iff (hu : u.index < n) (hv : v.index < n) :
    EqvGen (Fact.flow facts').Copies u v ↔ EqvGen (Fact.flow facts).Copies u v := by
  constructor
  · intro huv
    have horigin := h.eqvGen_origin huv
    rwa [h.numbered.origin_of_lt hu, h.numbered.origin_of_lt hv] at horigin
  · exact EqvGen.mono (fun u v huv => (h.copies_iff u v).mpr (.inl huv)) u v

theorem root_check (m : Nat) (hmem : (w, v) ∈ checks) :
    (classes m facts').root w.index = (classes m facts').root v.index :=
  (root_classes_eq_iff m facts' w v).mpr (.rel w v ((h.copies_iff w v).mpr (.inr hmem)))

theorem root_eq_iff (m : Nat) (hx : x < n) (hy : y < n) :
    (classes m facts').root x = (classes m facts').root y ↔
      (classes n facts).root x = (classes n facts).root y := by
  have hlimit := h.le_limit
  let u : Variable := ⟨x, by omega⟩
  let v : Variable := ⟨y, by omega⟩
  exact (root_classes_eq_iff m facts' u v).trans
    ((h.eqvGen_copies_iff hx hy).trans (root_classes_eq_iff n facts u v).symm)

/-- A variable that is added has a number, and checks a variable that was before. -/
theorem exists_check (hx : n ≤ x) (hlt : x < n + checks.length) :
    ∃ w v, (w, v) ∈ checks ∧ w.index = x ∧ v.index < n := by
  have hlimit := h.le_limit
  obtain ⟨v, hmem⟩ := h.numbered.exists_mem (w := ⟨x, by omega⟩) hx hlt
  exact ⟨_, v, hmem, rfl, h.index_lt_of_check hmem⟩

/-- The roots of the variables that are added have appeared before. -/
theorem appearing_roots :
    DisjointSet.appearing ((classes (n + checks.length) facts').roots (n + checks.length)) =
      DisjointSet.appearing ((List.range n).map (classes (n + checks.length) facts').root) := by
  rw [DisjointSet.roots, List.range_add, List.map_append]
  refine DisjointSet.appearing_append_of_subset fun key hkey => ?_
  rw [List.map_map] at hkey
  obtain ⟨i, hi, rfl⟩ := List.mem_map.mp hkey
  have hlt := List.mem_range.mp hi
  obtain ⟨w, v, hmem, hw, hv⟩ :=
    h.exists_check (x := n + i) (Nat.le_add_right _ _) (by omega)
  refine List.mem_map.mpr ⟨v.index, List.mem_range.mpr hv, ?_⟩
  rw [Function.comp_apply, ← hw, h.root_check _ hmem]

theorem classNumber_eq (hx : x < n) :
    classNumber (n + checks.length) facts' x = classNumber n facts x := by
  have hkeys : ∀ x y, x < n → y < n → _ := fun _ _ => h.root_eq_iff (n + checks.length)
  rw [classNumber, h.appearing_roots]
  exact DisjointSet.idxOf_appearing_congr hkeys (fun _ => List.mem_range.mp) hx

theorem classTotal_eq : classTotal (n + checks.length) facts' = classTotal n facts := by
  have hkeys : ∀ x y, x < n → y < n → _ := fun _ _ => h.root_eq_iff (n + checks.length)
  rw [classTotal_eq_length, classTotal_eq_length, h.appearing_roots]
  exact DisjointSet.length_appearing_congr hkeys fun _ => List.mem_range.mp

theorem classNumber_check (hmem : (w, v) ∈ checks) :
    classNumber (n + checks.length) facts' w.index = classNumber n facts v.index := by
  rw [← h.classNumber_eq (h.index_lt_of_check hmem)]
  exact (classNumber_eq_iff (h.numbered.index_bounds hmem).2).mpr (h.root_check _ hmem)

theorem fieldGraph_eq : fieldGraph (n + checks.length) facts' = fieldGraph n facts := by
  unfold fieldGraph classGraph
  rw [h.classTotal_eq, h.fieldEdges_eq]
  congr 1
  refine List.filterMap_congr fun edge hedge => ?_
  obtain ⟨hu, hv⟩ := h.inside.2.1 edge.1 edge.2 (Fact.mem_fieldEdges.mp hedge)
  simp only [getElem?_classOf, if_pos hu, if_pos hv, if_pos (Nat.lt_add_right checks.length hu),
    if_pos (Nat.lt_add_right checks.length hv), h.classNumber_eq hu, h.classNumber_eq hv]

/-- The same classes are escaping by themselves: a check is in the class of a released object. -/
theorem mem_seeds_iff (hslots : ∀ x, x < n → (x ∈ slots' ↔ x ∈ slots)) {c : Nat} :
    ((∃ x ∈ slots', x < n + checks.length ∧ classNumber (n + checks.length) facts' x = c) ∨
        ∃ v, (Fact.flow facts').Released v ∧ v.index < n + checks.length ∧
          classNumber (n + checks.length) facts' v.index = c) ↔
      (∃ x ∈ slots, x < n ∧ classNumber n facts x = c) ∨
        ∃ v, (Fact.flow facts).Released v ∧ v.index < n ∧ classNumber n facts v.index = c := by
  constructor
  · rintro (⟨x, hx, hlt, rfl⟩ | ⟨v, hv, hlt, rfl⟩)
    · by_cases hold : x < n
      · exact .inl ⟨x, (hslots x hold).mp hx, hold, (h.classNumber_eq hold).symm⟩
      · obtain ⟨w, v, hmem, rfl, hv⟩ :=
          h.exists_check (Nat.le_of_not_lt hold) hlt
        exact .inr ⟨v, (h.released_check w v hmem).2, hv,
          (h.classNumber_check hmem).symm⟩
    · rcases h.released_after v hv with hold | ⟨object, hmem⟩
      · have hlt := h.inside.2.2 v hold
        exact .inr ⟨v, hold, hlt, (h.classNumber_eq hlt).symm⟩
      · exact .inr ⟨object, (h.released_check v object hmem).2,
          h.index_lt_of_check hmem,
          (h.classNumber_check hmem).symm⟩
  · rintro (⟨x, hx, hlt, rfl⟩ | ⟨v, hv, hlt, rfl⟩)
    · exact .inl ⟨x, (hslots x hlt).mpr hx, Nat.lt_add_right _ hlt,
        h.classNumber_eq hlt⟩
    · rcases h.released_before v hv with hnew | ⟨w, hmem⟩
      · exact .inr ⟨v, hnew, Nat.lt_add_right _ hlt, h.classNumber_eq hlt⟩
      · exact .inr ⟨w, (h.released_check w v hmem).1, (h.numbered.index_bounds hmem).2,
          h.classNumber_check hmem⟩

theorem escaping_eq (hslots : ∀ x, x < n → (x ∈ slots' ↔ x ∈ slots)) :
    (ofFacts (n + checks.length) slots' facts').escaping = (ofFacts n slots facts).escaping := by
  rw [escaping_eq_close, escaping_eq_close, h.fieldGraph_eq,
    h.classTotal_eq]
  refine congrArg _ (marksOf_congr fun c => ?_)
  rw [mem_seeds, mem_seeds]
  exact h.mem_seeds_iff hslots

end Extends

/-! ## Answers -/

/-- What an analysis says of a variable: its class, whether it escapes and whether it is given a
new object. -/
def Says (f : EscapeFacts) (v : Variable) (c : Nat) (escaping constructed : Bool) : Prop :=
  f.class? v = some c ∧ f.escapes v = .ok escaping ∧ f.isConstructed v = .ok constructed

/-- Every variable of the table has an answer. -/
theorem says_ofFacts {n : Nat} (slots : List Nat) (facts : List Fact) {v : Variable}
    (hv : v.index < n) : (ofFacts n slots facts).Says v
    (classNumber n facts v.index)
    ((ofFacts n slots facts).escaping[classNumber n facts v.index]?.getD true)
    (decide (v ∈ Fact.allocations facts)) := by
  refine ⟨class?_ofFacts hv, ?_, isConstructed_ofFacts hv⟩
  simp only [escapes, escapes?, class?_ofFacts hv, Option.map_some]

namespace Extends

variable {n : Nat} {facts facts' : List Fact} {checks : Checks} {v w : Variable}
  {slots slots' : List Nat} (h : Extends n facts facts' checks)
  (hslots : ∀ x, x < n → (x ∈ slots' ↔ x ∈ slots))

include h hslots

/-- The answers for the variables that were before stay the same. -/
theorem says_before (hv : v.index < n) : ∃ c escaping constructed,
    (ofFacts n slots facts).Says v c escaping constructed ∧
      (ofFacts (n + checks.length) slots' facts').Says v c escaping constructed := by
  have hafter := says_ofFacts slots' facts' (Nat.lt_add_right checks.length hv)
  rw [h.classNumber_eq hv, h.escaping_eq hslots, h.allocations_eq] at hafter
  exact ⟨_, _, _, says_ofFacts slots facts hv, hafter⟩

/-- A variable that is added has the class of the object that it checks, and escapes. -/
theorem says_check (hmem : (w, v) ∈ checks) : ∃ c,
    (ofFacts n slots facts).class? v = some c ∧
      (ofFacts (n + checks.length) slots' facts').class? v = some c ∧
      (ofFacts (n + checks.length) slots' facts').Says w c true false := by
  have hv := h.index_lt_of_check hmem
  obtain ⟨hle, hlt⟩ := h.numbered.index_bounds hmem
  obtain ⟨c, escaping, constructed, ⟨hclass, -⟩, ⟨hclass', -⟩⟩ := h.says_before hslots hv
  have hsays := says_ofFacts slots' facts' hlt
  have hc : classNumber (n + checks.length) facts' w.index = c := by
    rw [h.classNumber_check hmem]
    exact Option.some.inj ((says_ofFacts slots facts hv).1.symm.trans hclass)
  have hescapes : (ofFacts (n + checks.length) slots' facts').escapes w = .ok true := by
    obtain ⟨b, hb, hexposed⟩ : ∃ b, (ofFacts (n + checks.length) slots' facts').escapes w = .ok b ∧
        (b = true ↔ _) := exists_escapes_ofFacts h.inside_after hlt
    rw [hb, hexposed.mpr (.released (h.released_check w v hmem).1)]
  have hallocated : w ∉ Fact.allocations facts := fun hw => by
    have := h.allocated w hw
    omega
  rw [h.allocations_eq, decide_eq_false hallocated] at hsays
  exact ⟨c, hclass, hclass', hc ▸ hsays.1, hescapes, hsays.2.2⟩

theorem candidates_eq : (ofFacts (n + checks.length) slots' facts').candidates =
    (ofFacts n slots facts).candidates := by
  simp only [candidates, constructedVariables, variableCount_ofFacts, List.filter_filter]
  have hadded : ((List.range checks.length).map (n + ·)).filter (fun x =>
      !(ofFacts (n + checks.length) slots' facts').escapesAt x &&
        (ofFacts (n + checks.length) slots' facts').constructed[x]?.getD false) = [] := by
    refine List.filter_eq_nil_iff.mpr fun x hx => ?_
    obtain ⟨i, -, rfl⟩ := List.mem_map.mp hx
    rw [getD_constructed, h.allocations_eq, decide_eq_false, Bool.and_false]
    · exact Bool.false_ne_true
    · rintro ⟨⟨v, hv, heq⟩, -⟩
      have := h.allocated v hv
      omega
  rw [List.range_add, List.filter_append, hadded, List.append_nil]
  refine List.filter_congr fun x hx => ?_
  have hlt := List.mem_range.mp hx
  have hclass : (ofFacts (n + checks.length) slots' facts').classOf[x]? =
      (ofFacts n slots facts).classOf[x]? := by
    show ((classes (n + checks.length) facts').pack (n + checks.length)).1[x]? =
      ((classes n facts).pack n).1[x]?
    rw [getElem?_classOf, getElem?_classOf, if_pos hlt, if_pos (Nat.lt_add_right _ hlt),
      h.classNumber_eq hlt]
  rw [escapesAt, escapesAt, hclass, h.escaping_eq hslots, getD_constructed, getD_constructed,
    h.allocations_eq]
  simp only [hlt, Nat.lt_add_right checks.length hlt, and_true]

end Extends

end EscapeFacts

/-! ## Programs -/

namespace Program

variable {p q : Program} {kinds : List Dispatch} {checks : Checks}

theorem InRange.allocated (h : p.InRange) : ∀ v ∈ Fact.allocations p.facts,
    v.index < p.variableCount :=
  fun v hv => h.fact_lt (Fact.mem_allocations.mp hv) v (List.mem_singleton.mpr rfl)

theorem Inserts.extends_facts (h : p.Inserts kinds q checks) (hin : p.InRange)
    (hlimit : p.variableCount + checks.length ≤ indexLimit) :
    EscapeFacts.Extends p.variableCount p.facts q.facts checks where
  toRerouted := h.rerouted
  inside := hin.inside_facts
  allocated := hin.allocated
  numbered := h.numbered
  le_limit := hlimit

theorem InRange.grow (h : p.InRange) (count : Nat) : (p.grow count).InRange := by
  rw [inRange_iff_blocks] at h ⊢
  intro b hb
  obtain ⟨hvars, hlabels⟩ := h b hb
  refine ⟨fun v hv => ?_, hlabels⟩
  rw [variableCount_grow]
  exact Nat.lt_add_right _ (hvars v hv)

/-- The program checks the object of the second variable and gives it to the first. -/
def HasCheck (p : Program) (w v : Variable) : Prop :=
  ∃ b ∈ p.blocks, .nullCheck w v ∈ b.instructions

theorem Inserts.hasCheck_iff (h : p.Inserts kinds q checks) (hin : p.InRange) {w v : Variable}
    (hw : p.variableCount ≤ w.index) : q.HasCheck w v ↔ (w, v) ∈ checks := by
  constructor
  · rintro ⟨b, hb, hcheck⟩
    have hcopy : (Fact.flow q.facts).Copies w v := by
      rw [Fact.flow_facts]
      exact .instruction hb hcheck (.nullCheck w v)
    rcases (h.rerouted.copies_iff w v).mp hcopy with hold | hmem
    · have := (hin.inside_facts.1 w v hold).1
      omega
    · exact hmem
  · intro hmem
    obtain ⟨b, hb, hcheck⟩ := h.blocks.nullCheck_mem hmem
    exact ⟨b, Array.mem_toList_iff.mp hb, hcheck⟩

theorem mem_parameterSlots_add (n m parameterCount : Nat) (markReceiver : Bool) (x : Nat)
    (hx : x < n) :
    x ∈ EscapeFacts.parameterSlots (n + m) parameterCount markReceiver ↔
      x ∈ EscapeFacts.parameterSlots n parameterCount markReceiver := by
  simp only [EscapeFacts.parameterSlots, List.mem_filter, List.mem_range, hx,
    Nat.lt_add_right m hx]

/-- Guarding calls keeps every answer about the variables of the program, the counts and the
candidates; a variable that is added is in the class of the one object that it checks. -/
theorem analyze_insertNullChecks (p : Program) (kinds : List Dispatch) (parameterCount : Nat)
    (enabled markReceiver : Bool) (hpass : p.verifyOperands = .ok ())
    (hroom : p.variableCount + p.guardCount kinds ≤ indexLimit) :
    ∃ q before after,
      p.insertNullChecks kinds = .ok (p.guardCount kinds, q) ∧
      q.variableCount = p.variableCount + p.guardCount kinds ∧
      EscapeFacts.analyze p parameterCount ⟨enabled, false, markReceiver⟩ = .ok before ∧
      EscapeFacts.analyze q parameterCount ⟨enabled, false, markReceiver⟩ = .ok after ∧
      (∀ v : Variable, v.index < p.variableCount → ∃ c escaping constructed,
        before.Says v c escaping constructed ∧ after.Says v c escaping constructed) ∧
      after.classCount = before.classCount ∧
      after.edgeCount = before.edgeCount ∧
      after.candidates = before.candidates ∧
      ∀ w : Variable, p.variableCount ≤ w.index → w.index < q.variableCount →
        ∃ v c, v.index < p.variableCount ∧ (∀ u, q.HasCheck w u ↔ u = v) ∧
          before.class? v = some c ∧ after.class? v = some c ∧ after.Says w c true false := by
  have hin : p.InRange := verifyOperands_eq_ok_iff.mp hpass
  obtain ⟨q, checks, hinsert, h, hlength⟩ := exists_insertNullChecks (.inr hroom)
  have hext := h.extends_facts hin (hlength ▸ hroom)
  have hcount := h.variableCount_eq
  have hpasses : p.Passes ⟨enabled, false, markReceiver⟩ := hpass
  have hpasses' : q.Passes ⟨enabled, false, markReceiver⟩ :=
    verifyOperands_eq_ok_iff.mpr (h.inRange_iff.mpr (hin.grow _))
  have hslots := mem_parameterSlots_add p.variableCount checks.length parameterCount markReceiver
  have hbefore := analyze_eq_of_passes hpasses parameterCount
  have hafter := analyze_eq_of_passes hpasses' parameterCount
  rw [hcount] at hafter
  refine ⟨q, _, _, hinsert, hlength ▸ hcount, hbefore, hafter,
    fun v hv => hext.says_before hslots hv, congrArg Array.size (hext.escaping_eq hslots),
    congrArg Graph.edgeCount hext.fieldGraph_eq, hext.candidates_eq hslots, fun w hle hlt => ?_⟩
  obtain ⟨v, hmem⟩ := h.numbered.exists_mem hle (hcount ▸ hlt)
  obtain ⟨c, hbefore, hafter, hsays⟩ := hext.says_check hslots hmem
  refine ⟨v, c, hext.index_lt_of_check hmem, fun u => ?_, hbefore, hafter, hsays⟩
  rw [h.hasCheck_iff hin hle]
  constructor
  · intro hu
    rw [← h.numbered.origin_of_mem hu, h.numbered.origin_of_mem hmem]
  · rintro rfl
    exact hmem

/-- A new object on which a method is called. -/
def dispatching : Program :=
  ⟨#[⟨0, [], [
      .construct 1 "Box",
      .invoke ⟨.virtual, ⟨"Box", "close", [], "V"⟩, some 1, [], none⟩,
      .exit none]⟩], .replicate 2 ⟨none⟩⟩

theorem dispatching_guarded :
    dispatching.verifyOperands = .ok () ∧
      dispatching.variableCount + dispatching.guardCount [.virtual] ≤ indexLimit ∧
      ∃ q before after, dispatching.insertNullChecks [.virtual] = .ok (1, q) ∧
        EscapeFacts.analyze dispatching 0 ⟨true, false, false⟩ = .ok before ∧
        EscapeFacts.analyze q 0 ⟨true, false, false⟩ = .ok after ∧
        after.candidates = before.candidates ∧
        ∃ v c, q.HasCheck 2 v ∧ before.class? v = some c ∧ after.Says 2 c true false := by
  have hpass : dispatching.verifyOperands = .ok () := rfl
  have hroom : dispatching.variableCount + dispatching.guardCount [.virtual] ≤ indexLimit := by
    decide
  obtain ⟨q, before, after, hinsert, hcount, hbefore, hafter, -, -, -, hcandidates, hadded⟩ :=
    analyze_insertNullChecks dispatching [.virtual] 0 true false hpass hroom
  obtain ⟨v, c, -, hcheck, hclass, -, hsays⟩ := hadded 2 (by decide) (by rw [hcount]; decide)
  exact ⟨hpass, hroom, q, before, after, hinsert, hbefore, hafter, hcandidates, v, c,
    (hcheck v).mpr rfl, hclass, hsays⟩

end Program

end MethodFlow
