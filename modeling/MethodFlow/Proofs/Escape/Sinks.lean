import MethodFlow.Escape.Sink
import MethodFlow.Proofs.Escape.FactOrder
import MethodFlow.Proofs.Instruction.Renaming
/-!
# What the sinks read

* `mem_sinks_iff`: an instruction lets go of what it reads if it is of one of eleven kinds, and of
  nothing otherwise;
* `SameStatements.sinkFlags_eq`: which variables a sink reads depends only on which statements
  occur;
* `sinkFlags_exact`: of a program in range, exactly the variables that a sink reads are flagged, in
  whatever order its blocks and instructions come.
-/

namespace MethodFlow

/-! ## Instructions -/

namespace Instruction

def sinkKinds : List String :=
  ["branch", "binary-branch", "switch", "exit", "raise", "put-field", "put-element", "invoke",
    "invoke-dynamic", "monitor-enter", "monitor-exit"]

theorem mem_sinks_iff {i : Instruction} {v : Variable} :
    v ∈ i.sinks ↔ i.kind ∈ sinkKinds ∧ v ∈ i.uses := by
  cases i with
  | invoke call | invokeDynamic call => simp [sinks, kind, sinkKinds, uses, or_comm]
  | _ => simp [sinks, kind, sinkKinds, uses]

theorem withoutLabels_mapLabels (f : Label → Label) (i : Instruction) :
    (i.mapLabels f).withoutLabels = i.withoutLabels := by
  unfold withoutLabels
  rw [mapLabels_mapLabels]
  rfl

theorem sinks_withoutLabels (i : Instruction) : i.withoutLabels.sinks = i.sinks := by
  cases i <;> rfl

end Instruction

namespace Program

variable {p q : Program} {f : Label → Label}

/-! ## Statements -/

def phis (p : Program) : List Phi := p.blocks.toList.flatMap (·.phis)

def instructions (p : Program) : List Instruction := p.blocks.toList.flatMap (·.instructions)

theorem mem_phis {phi : Phi} : phi ∈ p.phis ↔ ∃ b ∈ p.blocks, phi ∈ b.phis := by
  simp [phis]

theorem mem_instructions {i : Instruction} :
    i ∈ p.instructions ↔ ∃ b ∈ p.blocks, i ∈ b.instructions := by
  simp [instructions]

theorem flowsInto_iff {value dest : Variable} : p.FlowsInto value dest ↔
    ∃ phi ∈ p.phis, ∃ i ∈ phi.incomings, phi.dest = dest ∧ i.value = value := by
  simp only [FlowsInto, mem_phis]
  grind

theorem performs_iff {i : Instruction} :
    p.Performs i ↔ ∃ j ∈ p.instructions, j.withoutLabels = i := by
  simp only [Performs, mem_instructions]
  grind

theorem inRange_iff_statements : p.InRange ↔
    (∀ phi ∈ p.phis, phi.dest.index < p.variableCount ∧
      ∀ i ∈ phi.incomings, i.value.index < p.variableCount ∧ i.source.index < p.blockCount) ∧
    ∀ i ∈ p.instructions, (∀ v ∈ i.vars, v.index < p.variableCount) ∧
      ∀ l ∈ i.targets, l.index < p.blockCount := by
  simp only [mem_phis, mem_instructions]
  constructor
  · intro h
    constructor
    · rintro phi ⟨b, hb, hphi⟩
      exact ⟨h.phi_dest b hb phi hphi, fun i hi =>
        ⟨h.phi_value b hb phi hphi i hi, h.phi_source b hb phi hphi i hi⟩⟩
    · rintro i ⟨b, hb, hi⟩
      exact ⟨h.variable_lt b hb i hi, h.target_lt b hb i hi⟩
  · rintro ⟨hphis, hinstructions⟩
    exact
      { phi_dest := fun b hb phi hphi => (hphis phi ⟨b, hb, hphi⟩).1
        phi_value := fun b hb phi hphi i hi => ((hphis phi ⟨b, hb, hphi⟩).2 i hi).1
        phi_source := fun b hb phi hphi i hi => ((hphis phi ⟨b, hb, hphi⟩).2 i hi).2
        variable_lt := fun b hb i hi => (hinstructions i ⟨b, hb, hi⟩).1
        target_lt := fun b hb i hi => (hinstructions i ⟨b, hb, hi⟩).2 }

/-! ## Rearranging -/

/-- The second program has the phis and instructions of the first, in any order and spread over any
blocks. The labels may be renamed, as long as those of blocks stay such. -/
structure RearrangedBy (f : Label → Label) (p q : Program) : Prop where
  variableCount_eq : q.variableCount = p.variableCount
  label_lt : ∀ l : Label, l.index < p.blockCount → (f l).index < q.blockCount
  phis : q.phis.Perm (p.phis.map (·.mapLabels f))
  instructions : q.instructions.Perm (p.instructions.map (·.mapLabels f))

namespace RearrangedBy

variable (h : p.RearrangedBy f q)

include h

theorem mem_phis_iff {phi : Phi} : phi ∈ q.phis ↔ ∃ phi' ∈ p.phis, phi'.mapLabels f = phi :=
  h.phis.mem_iff.trans List.mem_map

theorem mem_instructions_iff {i : Instruction} :
    i ∈ q.instructions ↔ ∃ j ∈ p.instructions, j.mapLabels f = i :=
  h.instructions.mem_iff.trans List.mem_map

theorem sameStatements : p.SameStatements q where
  variableCount_eq := h.variableCount_eq
  flowsInto_iff value dest := by
    simp only [flowsInto_iff, h.mem_phis_iff]
    constructor
    · rintro ⟨_, ⟨phi, hphi, rfl⟩, _, hrenamed, hdest, hvalue⟩
      obtain ⟨i, hi, rfl⟩ := List.mem_map.mp hrenamed
      exact ⟨phi, hphi, i, hi, hdest, hvalue⟩
    · rintro ⟨phi, hphi, i, hi, hdest, hvalue⟩
      exact ⟨_, ⟨phi, hphi, rfl⟩, _, List.mem_map.mpr ⟨i, hi, rfl⟩, hdest, hvalue⟩
  performs_iff i := by
    simp only [performs_iff, h.mem_instructions_iff]
    constructor
    · rintro ⟨_, ⟨j, hj, rfl⟩, heq⟩
      exact ⟨j, hj, (j.withoutLabels_mapLabels f).symm.trans heq⟩
    · rintro ⟨j, hj, heq⟩
      exact ⟨_, ⟨j, hj, rfl⟩, (j.withoutLabels_mapLabels f).trans heq⟩

theorem inRange (hin : p.InRange) : q.InRange := by
  obtain ⟨hphis, hinstructions⟩ := inRange_iff_statements.mp hin
  rw [inRange_iff_statements, h.variableCount_eq]
  refine ⟨fun _ hrenamed => ?_, fun _ hrenamed => ?_⟩
  · obtain ⟨phi, hphi, rfl⟩ := h.mem_phis_iff.mp hrenamed
    obtain ⟨hdest, hincomings⟩ := hphis phi hphi
    refine ⟨hdest, fun _ hincoming => ?_⟩
    obtain ⟨i, hi, rfl⟩ := List.mem_map.mp hincoming
    obtain ⟨hvalue, hsource⟩ := hincomings i hi
    exact ⟨hvalue, h.label_lt _ hsource⟩
  · obtain ⟨i, hi, rfl⟩ := h.mem_instructions_iff.mp hrenamed
    obtain ⟨hvars, htargets⟩ := hinstructions i hi
    rw [Instruction.vars_mapLabels, Instruction.targets_mapLabels]
    refine ⟨hvars, fun _ htarget => ?_⟩
    obtain ⟨l, hl, rfl⟩ := List.mem_map.mp htarget
    exact h.label_lt l (htargets l hl)

theorem verifyOperands (hp : p.verifyOperands = .ok ()) : q.verifyOperands = .ok () :=
  verifyOperands_eq_ok_iff.mpr (h.inRange (verifyOperands_eq_ok_iff.mp hp))

end RearrangedBy

/-! ## Flags -/

theorem mem_sinks_iff {v : Variable} :
    v ∈ p.blocks.toList.flatMap (fun b => b.instructions.flatMap Instruction.sinks) ↔
      ∃ i, p.Performs i ∧ v ∈ i.sinks := by
  simp only [List.mem_flatMap, Array.mem_toList_iff]
  constructor
  · rintro ⟨b, hb, i, hi, hv⟩
    exact ⟨_, ⟨b, hb, i, hi, rfl⟩, i.sinks_withoutLabels ▸ hv⟩
  · rintro ⟨i, ⟨b, hb, j, hj, rfl⟩, hv⟩
    exact ⟨b, hb, j, hj, j.sinks_withoutLabels ▸ hv⟩

theorem sinkFlags_of_verifyOperands (h : p.verifyOperands = .ok ()) :
    p.sinkFlags = .ok (EscapeFacts.marksOf p.variableCount
      ((p.blocks.toList.flatMap fun b => b.instructions.flatMap Instruction.sinks).map
        (·.index))) := by
  unfold sinkFlags
  rw [h]
  rfl

/-- The same variables are read by sinks if the same statements occur. -/
theorem SameStatements.sinkFlags_eq (h : p.SameStatements q) (hp : p.verifyOperands = .ok ())
    (hq : q.verifyOperands = .ok ()) : q.sinkFlags = p.sinkFlags := by
  rw [sinkFlags_of_verifyOperands hp, sinkFlags_of_verifyOperands hq, h.variableCount_eq]
  refine congrArg Except.ok (EscapeFacts.marksOf_congr fun x => ?_)
  simp only [List.mem_map, mem_sinks_iff, h.performs_iff]

/-- A program in range gets a flag for each variable, and those of the variables that a sink reads
are set. However it is rearranged, it gets the same. -/
theorem sinkFlags_exact (p : Program) (h : p.verifyOperands = .ok ()) :
    ∃ flags, p.sinkFlags = .ok flags ∧ flags.size = p.variableCount ∧
      (∀ x, flags[x]? = some true ↔ ∃ b ∈ p.blocks, ∃ i ∈ b.instructions,
        i.kind ∈ Instruction.sinkKinds ∧ ∃ v ∈ i.uses, v.index = x) ∧
      ∀ f q, p.RearrangedBy f q → q.sinkFlags = .ok flags := by
  have hin := verifyOperands_eq_ok_iff.mp h
  have hflags := sinkFlags_of_verifyOperands h
  refine ⟨_, hflags, EscapeFacts.size_marksOf _ _, fun x => ?_, fun f q hq => ?_⟩
  · refine EscapeFacts.marked_marksOf.trans ?_
    simp only [List.mem_map, List.mem_flatMap, Array.mem_toList_iff, Instruction.mem_sinks_iff]
    constructor
    · rintro ⟨⟨v, ⟨b, hb, i, hi, hkind, huse⟩, rfl⟩, -⟩
      exact ⟨b, hb, i, hi, hkind, v, huse, rfl⟩
    · rintro ⟨b, hb, i, hi, hkind, v, huse, rfl⟩
      have hvar : v ∈ i.vars := List.mem_append_right _ huse
      exact ⟨⟨v, ⟨b, hb, i, hi, hkind, huse⟩, rfl⟩, hin.variable_lt b hb i hi v hvar⟩
  · exact (hq.sameStatements.sinkFlags_eq h (hq.verifyOperands h)).trans hflags

/-- A call is handed two variables, and its result is copied at a phi and returned. -/
def returning : Program :=
  ⟨#[⟨0, [], [.intConstant 0 1, .invoke ⟨.virtual, ⟨"A", "f", ["I"], "I"⟩, some 2, [1], some 3⟩,
      .jump 1]⟩,
    ⟨1, [⟨4, [⟨0, 3⟩]⟩], [.exit (some 4)]⟩], .replicate 5 ⟨none⟩⟩

/-- The two blocks changed over, and one turned round. -/
def returningFirst : Program :=
  ⟨#[⟨0, [⟨4, [⟨1, 3⟩]⟩], [.exit (some 4)]⟩,
    ⟨1, [], [.jump 0, .invoke ⟨.virtual, ⟨"A", "f", ["I"], "I"⟩, some 2, [1], some 3⟩,
      .intConstant 0 1]⟩], .replicate 5 ⟨none⟩⟩

theorem returning_rearranged : returning.RearrangedBy (fun l => if l = 0 then 1 else 0)
    returningFirst where
  variableCount_eq := rfl
  label_lt l _ := by
    by_cases hl : l = 0
    · rw [if_pos hl]; decide
    · rw [if_neg hl]; decide
  phis := by decide
  instructions := by decide

/-- The result of the call is not flagged, although a phi reads it. -/
theorem returning_flagged :
    returning.verifyOperands = .ok () ∧
      returning.sinkFlags = .ok #[false, true, true, false, true] ∧
      returningFirst.sinkFlags = .ok #[false, true, true, false, true] := by
  have hrange : returning.verifyOperands = .ok () := rfl
  have hflagged : returning.sinkFlags = .ok #[false, true, true, false, true] := rfl
  obtain ⟨flags, hflags, -, -, hsame⟩ := sinkFlags_exact returning hrange
  have heq : flags = #[false, true, true, false, true] :=
    Except.ok.inj (hflags.symm.trans hflagged)
  exact ⟨hrange, hflagged, heq ▸ hsame _ _ returning_rearranged⟩

end Program

end MethodFlow
