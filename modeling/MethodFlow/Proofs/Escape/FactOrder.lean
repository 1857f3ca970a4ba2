import MethodFlow.Proofs.Escape.Exactness
/-!
# The order of facts does not matter

Joining in another order gives other roots and ranks, and the edges of the class graph come in
another order.  None of this is left in the result:

* `classOf_congr`, `fieldGraph_congr`: classes are numbered by the variables in them, and the graph
  between them depends only on which edges occur;
* `ofFacts_congr`: the result depends only on which facts occur;
* `analyze_eq_of_sameStatements`: so that programs with the same statements, spread over any blocks
  in any order, get the same result.
-/

namespace MethodFlow

open Relation

/-! ## Facts -/

namespace EscapeFacts

theorem ofFacts_eq (n : Nat) (slots : List Nat) (facts : List Fact) :
    ofFacts n slots facts = {
      classOf := ((classes n facts).pack n).1
      escaping := close (fieldGraph n facts) (marksOf (classTotal n facts)
        ((slots ++ (Fact.escapees facts).map (·.index)).filterMap
          fun v => ((classes n facts).pack n).1[v]?))
      constructed := marksOf n ((Fact.allocations facts).map (·.index))
      edgeCount := Graph.edgeCount (fieldGraph n facts) } := rfl

section Congr

variable {facts facts' : List Fact}

section Copies

variable
  (hcopies : ∀ u v,
    EqvGen (Fact.flow facts).Copies u v ↔ EqvGen (Fact.flow facts').Copies u v)
  (n : Nat)

include hcopies

/-- Numbers that are no variable's are alone whatever is copied. -/
theorem root_classes_congr (x y : Nat) :
    (classes n facts).root x = (classes n facts).root y ↔
      (classes n facts').root x = (classes n facts').root y := by
  have halone : ∀ {facts x y}, indexLimit ≤ y →
      ((classes n facts).root x = (classes n facts).root y ↔ x = y) :=
    fun hy => ⟨eq_of_root_classes_eq hy, fun heq => congrArg _ heq⟩
  rcases Nat.lt_or_ge y indexLimit with hy | hy
  · rcases Nat.lt_or_ge x indexLimit with hx | hx
    · exact (root_classes_eq_iff n facts ⟨x, hx⟩ ⟨y, hy⟩).trans
        ((hcopies _ _).trans (root_classes_eq_iff n facts' ⟨x, hx⟩ ⟨y, hy⟩).symm)
    · exact (eq_comm.trans (halone hx)).trans (eq_comm.trans (halone hx)).symm
  · exact (halone hy).trans (halone hy).symm

/-- Classes are numbered by the variables that copies connect. -/
theorem classOf_congr : ((classes n facts).pack n).1 = ((classes n facts').pack n).1 :=
  DisjointSet.pack_congr (forest_classes n facts) (forest_classes n facts')
    fun x y _ _ => root_classes_congr hcopies n x y

end Copies

variable (h : ∀ fact, fact ∈ facts ↔ fact ∈ facts') (n : Nat)

include h

theorem eqvGen_copies_congr (u v : Variable) :
    EqvGen (Fact.flow facts).Copies u v ↔ EqvGen (Fact.flow facts').Copies u v := by
  have hcopies : (Fact.flow facts).Copies = (Fact.flow facts').Copies := by
    funext u v
    exact propext (h (.copy u v))
  rw [hcopies]

theorem mem_filterMap_congr {α : Type} (select : Fact → Option α) (a : α) :
    a ∈ facts.filterMap select ↔ a ∈ facts'.filterMap select := by
  simp only [List.mem_filterMap, h]

theorem fieldGraph_congr : fieldGraph n facts = fieldGraph n facts' := by
  unfold fieldGraph classGraph classTotal
  rw [classOf_congr (eqvGen_copies_congr h)]
  refine Adjacency.ofEdges_congr fun edge => ?_
  have hedges : ∀ edge, edge ∈ Fact.fieldEdges facts ↔ edge ∈ Fact.fieldEdges facts' :=
    mem_filterMap_congr h _
  simp only [List.mem_filterMap, hedges]

/-- The result depends only on which facts occur. -/
theorem ofFacts_congr (slots : List Nat) : ofFacts n slots facts = ofFacts n slots facts' := by
  have hescapees : ∀ v, v ∈ Fact.escapees facts ↔ v ∈ Fact.escapees facts' :=
    mem_filterMap_congr h _
  have hallocations : ∀ v, v ∈ Fact.allocations facts ↔ v ∈ Fact.allocations facts' :=
    mem_filterMap_congr h _
  have hseeds : ∀ c,
      c ∈ (slots ++ (Fact.escapees facts).map (·.index)).filterMap
          (fun v => ((classes n facts').pack n).1[v]?) ↔
        c ∈ (slots ++ (Fact.escapees facts').map (·.index)).filterMap
          (fun v => ((classes n facts').pack n).1[v]?) := by
    simp only [List.mem_filterMap, List.mem_append, List.mem_map, hescapees, implies_true]
  have hconstructed : ∀ x, x ∈ (Fact.allocations facts).map (·.index) ↔
      x ∈ (Fact.allocations facts').map (·.index) := by
    simp only [List.mem_map, hallocations, implies_true]
  rw [ofFacts_eq, ofFacts_eq, classTotal, classTotal, classOf_congr (eqvGen_copies_congr h),
    fieldGraph_congr h, marksOf_congr hseeds, marksOf_congr hconstructed]

end Congr

end EscapeFacts

/-! ## Programs -/

/-- The instruction with the blocks that it names left out. -/
def Instruction.withoutLabels (i : Instruction) : Instruction := i.mapLabels fun _ => 0

theorem Instruction.facts_withoutLabels (i : Instruction) : i.withoutLabels.facts = i.facts := by
  cases i <;> rfl

namespace Program

variable {p q : Program}

/-- The value flows into a phi of the program that gives it to the variable. -/
def FlowsInto (p : Program) (value dest : Variable) : Prop :=
  ∃ b ∈ p.blocks, ∃ phi ∈ b.phis, ∃ i ∈ phi.incomings, phi.dest = dest ∧ i.value = value

/-- The instruction occurs in the program, whatever blocks it names. -/
def Performs (p : Program) (i : Instruction) : Prop :=
  ∃ b ∈ p.blocks, ∃ j ∈ b.instructions, j.withoutLabels = i

/-- The programs have the same variables, the same values flow into the same variables at phis, and
the same instructions occur. -/
structure SameStatements (p q : Program) : Prop where
  variableCount_eq : q.variableCount = p.variableCount
  flowsInto_iff : ∀ value dest, q.FlowsInto value dest ↔ p.FlowsInto value dest
  performs_iff : ∀ i, q.Performs i ↔ p.Performs i

theorem mem_facts_iff {fact : Fact} : fact ∈ p.facts ↔
    (∃ value dest, p.FlowsInto value dest ∧ .copy dest value = fact) ∨
      ∃ i, p.Performs i ∧ fact ∈ i.facts := by
  rw [Fact.mem_facts]
  constructor
  · rintro ⟨b, hb, ⟨phi, hphi, hfact⟩ | ⟨i, hi, hfact⟩⟩
    · obtain ⟨i, hi, heq⟩ := Fact.mem_phi_facts.mp hfact
      exact .inl ⟨i.value, phi.dest, ⟨b, hb, phi, hphi, i, hi, rfl, rfl⟩, heq⟩
    · exact .inr ⟨_, ⟨b, hb, i, hi, rfl⟩, i.facts_withoutLabels ▸ hfact⟩
  · rintro (⟨value, dest, ⟨b, hb, phi, hphi, i, hi, rfl, rfl⟩, heq⟩ |
      ⟨i, ⟨b, hb, j, hj, rfl⟩, hfact⟩)
    · exact ⟨b, hb, .inl ⟨phi, hphi, Fact.mem_phi_facts.mpr ⟨i, hi, heq⟩⟩⟩
    · exact ⟨b, hb, .inr ⟨j, hj, j.facts_withoutLabels ▸ hfact⟩⟩

theorem SameStatements.mem_facts_iff (h : p.SameStatements q) (fact : Fact) :
    fact ∈ p.facts ↔ fact ∈ q.facts := by
  simp only [Program.mem_facts_iff, h.flowsInto_iff, h.performs_iff]

/-- Programs with the same statements have the same escape facts. -/
theorem analyze_eq_of_sameStatements (p q : Program) (parameterCount : Nat)
    (config : EscapeConfig) (hp : p.Passes config) (hq : q.Passes config)
    (h : p.SameStatements q) :
    ∃ facts, EscapeFacts.analyze p parameterCount config = .ok facts ∧
      EscapeFacts.analyze q parameterCount config = .ok facts := by
  refine ⟨_, analyze_eq_of_passes hp parameterCount, ?_⟩
  rw [analyze_eq_of_passes hq parameterCount, h.variableCount_eq,
    EscapeFacts.ofFacts_congr h.mem_facts_iff]

/-- A new object is stored in one block and handed out in the next. -/
def forwards : Program :=
  ⟨#[⟨0, [], [.construct 1 "Box", .putField (some 0) 2 ⟨"Box", "next"⟩ "LBox;", .jump 1]⟩,
    ⟨1, [⟨2, [⟨0, 1⟩]⟩], [.exit (some 2)]⟩], .replicate 3 ⟨none⟩⟩

/-- The same statements in three blocks, and some of them twice. -/
def backwards : Program :=
  ⟨#[⟨0, [⟨2, [⟨2, 1⟩, ⟨1, 1⟩]⟩], [.exit (some 2)]⟩,
    ⟨1, [], [.putField (some 0) 2 ⟨"Box", "next"⟩ "LBox;", .jump 2]⟩,
    ⟨2, [], [.construct 1 "Box", .exit (some 2), .construct 1 "Box", .jump 0]⟩],
    .replicate 3 ⟨none⟩⟩

theorem forwards_sameStatements : forwards.SameStatements backwards where
  variableCount_eq := rfl
  flowsInto_iff value dest := by
    simp [FlowsInto, forwards, backwards]
  performs_iff i := by
    simp only [Performs, forwards, backwards, List.mem_toArray, List.mem_cons, List.not_mem_nil,
      or_false, exists_eq_or_imp, exists_eq_left, Instruction.withoutLabels, Instruction.mapLabels]
    grind

theorem forwards_backwards_agree :
    forwards.Passes ⟨true, false, true⟩ ∧ backwards.Passes ⟨true, false, true⟩ ∧
      forwards.SameStatements backwards ∧
      ∃ facts, EscapeFacts.analyze forwards 1 ⟨true, false, true⟩ = .ok facts ∧
        EscapeFacts.analyze backwards 1 ⟨true, false, true⟩ = .ok facts :=
  ⟨rfl, rfl, forwards_sameStatements,
    analyze_eq_of_sameStatements forwards backwards 1 ⟨true, false, true⟩ rfl rfl
      forwards_sameStatements⟩

end Program

end MethodFlow
