import MethodFlow.Proofs.Escape.FactOrder
import Mathlib.Data.List.Permutation
/-!
# The classes of variables

Assignments, casts of references, null checks and phis connect variables; conversions of numbers
and whatever is done to arrays and fields do not:

* `exists_classOf_eq`: no class is empty;
* `class_eq_iff_connected`: two variables have one class exactly if copies connect them, and the
  classes are numbered in the order of their first variables.
-/

namespace MethodFlow

open Relation

/-! ## Numbers of classes -/

namespace EscapeFacts

/-- The place is the first one in the class. -/
def IsFirst (f : EscapeFacts) (c x : Nat) : Prop := IsLeast {y | f.classOf[y]? = some c} x

variable {n c : Nat} {slots : List Nat} {facts : List Fact}

theorem exists_classOf_eq (hc : c < classTotal n facts) :
    ∃ x < n, ((classes n facts).pack n).1[x]? = some c := by
  rw [classTotal_eq_length] at hc
  obtain ⟨root, hroot, hidx⟩ := DisjointSet.exists_idxOf_appearing_eq hc
  obtain ⟨x, hx, rfl⟩ := List.mem_map.mp hroot
  have hlt : x < n := List.mem_range.mp hx
  refine ⟨x, hlt, ?_⟩
  rw [getElem?_classOf, if_pos hlt, classNumber, hidx]

theorem lt_classTotal_iff : c < classTotal n facts ↔
    ∃ x < n, ((classes n facts).pack n).1[x]? = some c := by
  constructor
  · exact exists_classOf_eq
  · rintro ⟨x, hx, hc⟩
    rw [getElem?_classOf, if_pos hx, Option.some_inj] at hc
    rw [← hc]
    exact classNumber_lt hx

theorem classCount_ofFacts : (ofFacts n slots facts).classCount = classTotal n facts :=
  size_escaping n slots facts

end EscapeFacts

/-! ## Programs -/

namespace Program

/-- Two variables have one class exactly if copies connect them.  The classes are numbered in the
order of their first variables, and whatever else the program does leaves them as they are. -/
theorem class_eq_iff_connected (p : Program) (parameterCount : Nat) (config : EscapeConfig)
    (h : p.Passes config) :
    ∃ facts, EscapeFacts.analyze p parameterCount config = .ok facts ∧
      (∀ u v : Variable, u.index < p.variableCount → v.index < p.variableCount →
        (facts.class? u = facts.class? v ↔ EqvGen p.Copies u v)) ∧
      (∀ v : Variable, v.index < p.variableCount →
        ∃ c < facts.classCount, facts.class? v = some c) ∧
      (∀ c, c < facts.classCount ↔ ∃ x < p.variableCount, facts.classOf[x]? = some c) ∧
      (∀ c d x y, facts.IsFirst c x → facts.IsFirst d y → (c < d ↔ x < y)) ∧
      ∀ q parameterCount' config', q.Passes config' → q.variableCount = p.variableCount →
        (∀ u v, EqvGen q.Copies u v ↔ EqvGen p.Copies u v) →
        ∃ facts', EscapeFacts.analyze q parameterCount' config' = .ok facts' ∧
          facts'.classOf = facts.classOf := by
  have hcopies : ∀ r : Program, (Fact.flow r.facts).Copies = r.Copies := by
    intro r
    rw [Fact.flow_facts]
    rfl
  refine ⟨_, analyze_eq_of_passes h parameterCount, fun u v hu hv => ?_, fun v hv => ?_,
    fun c => ?_, fun c d x y hx hy => ?_, fun q parameterCount' config' hq hcount hsame => ?_⟩
  · rw [← hcopies p]
    exact EscapeFacts.class?_ofFacts_eq_iff hu hv
  · refine ⟨_, ?_, EscapeFacts.class?_ofFacts hv⟩
    rw [EscapeFacts.classCount_ofFacts]
    exact EscapeFacts.classNumber_lt hv
  · rw [EscapeFacts.classCount_ofFacts]
    exact EscapeFacts.lt_classTotal_iff
  · have horder := DisjointSet.inOrder_pack
      (EscapeFacts.forest_classes p.variableCount p.facts) p.variableCount
    exact horder.lt_iff_lt hx hy
  · refine ⟨_, analyze_eq_of_passes hq parameterCount', ?_⟩
    rw [hcount]
    apply EscapeFacts.classOf_congr
    intro u v
    rw [hcopies q, hcopies p]
    exact hsame u v

/-- A copy that goes round a loop, among a conversion, a cloned array and a field access. -/
def looping : Program :=
  ⟨#[⟨0, [], [.castNumber 1 0 .int .long, .assign 4 0, .jump 1]⟩,
    ⟨1, [⟨2, [⟨0, 4⟩, ⟨1, 5⟩]⟩], [.cast 5 2 "LBox;", .cloneArray 3 2,
      .putField (some 2) 3 ⟨"Box", "item"⟩ "LBox;", .jump 1]⟩],
    .replicate 6 ⟨none⟩⟩

theorem looping_classes :
    looping.Passes ⟨true, true, false⟩ ∧
      ∃ facts, EscapeFacts.analyze looping 0 ⟨true, true, false⟩ = .ok facts ∧
        facts.classOf = #[0, 1, 0, 2, 0, 0] ∧
        EqvGen looping.Copies 0 5 ∧ ¬ EqvGen looping.Copies 2 3 := by
  have hpass : looping.Passes ⟨true, true, false⟩ := by cbv
  obtain ⟨facts, hfacts, hclass, -⟩ := class_eq_iff_connected looping 0 ⟨true, true, false⟩ hpass
  have hclasses : facts.classOf = #[0, 1, 0, 2, 0, 0] := by
    have hresult : (EscapeFacts.analyze looping 0 ⟨true, true, false⟩).map (·.classOf) =
        .ok #[0, 1, 0, 2, 0, 0] := by cbv
    rw [hfacts] at hresult
    exact Except.ok.inj hresult
  refine ⟨hpass, facts, hfacts, hclasses, ?_, ?_⟩
  · rw [← hclass 0 5 (by decide) (by decide), EscapeFacts.class?, EscapeFacts.class?, hclasses]
    rfl
  · rw [← hclass 2 3 (by decide) (by decide), EscapeFacts.class?, EscapeFacts.class?, hclasses]
    decide

end Program

end MethodFlow
