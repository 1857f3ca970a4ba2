import MethodFlow.Verification
/-!
# What the check of operands says

A program passes exactly if everything that it refers to is in its tables:

* `verifyOperands_eq_ok_iff`: the check of operands decides `InRange`;
* `verifyOperands_of_verify`: whatever is verified has passed it.
-/

namespace MethodFlow

/-! ## Numerals -/

theorem indexLimit_pos : 0 < indexLimit := by decide

instance (n : Nat) : OfNat Variable n := ⟨⟨n % indexLimit, Nat.mod_lt n indexLimit_pos⟩⟩

instance (n : Nat) : OfNat Label n := ⟨⟨n % indexLimit, Nat.mod_lt n indexLimit_pos⟩⟩

/-! ## Operands in range -/

def Instruction.vars (i : Instruction) : List Variable := i.dest?.toList ++ i.uses

def Instruction.targets (i : Instruction) : List Label := i.targets?.getD []

def Block.vars (b : Block) : List Variable :=
  b.phis.flatMap (fun phi => phi.dest :: phi.uses) ++ b.instructions.flatMap Instruction.vars

def Block.labels (b : Block) : List Label :=
  b.phis.flatMap (fun phi => phi.incomings.map (·.source)) ++
    b.instructions.flatMap Instruction.targets

namespace Program

variable {p : Program}

/-- Whatever the program refers to is in its tables. -/
structure InRange (p : Program) : Prop where
  phi_dest : ∀ b ∈ p.blocks, ∀ phi ∈ b.phis, phi.dest.index < p.variableCount
  phi_value : ∀ b ∈ p.blocks, ∀ phi ∈ b.phis, ∀ i ∈ phi.incomings, i.value.index < p.variableCount
  phi_source : ∀ b ∈ p.blocks, ∀ phi ∈ b.phis, ∀ i ∈ phi.incomings, i.source.index < p.blockCount
  variable_lt : ∀ b ∈ p.blocks, ∀ i ∈ b.instructions, ∀ v ∈ i.vars, v.index < p.variableCount
  target_lt : ∀ b ∈ p.blocks, ∀ i ∈ b.instructions, ∀ l ∈ i.targets, l.index < p.blockCount

theorem dangling_variable_eq_none {v : Variable} {site : Site} :
    p.dangling? (.variable v, site) = none ↔ v.index < p.variableCount := by
  simp only [dangling?, ite_eq_left_iff, reduceCtorEq, imp_false, Decidable.not_not]

theorem dangling_label_eq_none {l : Label} {site : Site} :
    p.dangling? (.label l, site) = none ↔ l.index < p.blockCount := by
  simp only [dangling?, ite_eq_left_iff, reduceCtorEq, imp_false, Decidable.not_not]

theorem verifyOperands_eq_ok_iff_sites :
    p.verifyOperands = .ok () ↔
      ∀ b ∈ p.blocks, ∀ site ∈ b.sites, p.dangling? site = none := by
  have hsites : p.sites.findSome? p.dangling? = none ↔
      ∀ b ∈ p.blocks, ∀ site ∈ b.sites, p.dangling? site = none := by
    simp only [List.findSome?_eq_none_iff, sites, List.mem_flatMap, Array.mem_toList_iff]
    constructor
    · exact fun h b hb site hsite => h site ⟨b, hb, hsite⟩
    · rintro h site ⟨b, hb, hsite⟩
      exact h b hb site hsite
  rw [← hsites, verifyOperands]
  split
  · next e he => simp [he]
  · next he => simp [he]

theorem mem_sites_phi {b : Block} {phi : Phi} (hphi : phi ∈ b.phis) {operand : Operand}
    {site : Site} (hsite : (operand, site) ∈ phi.sites b.label.index) :
    (operand, site) ∈ b.sites :=
  List.mem_append_left _ (List.mem_flatMap.mpr ⟨phi, hphi, hsite⟩)

theorem mem_sites_instruction {b : Block} {i : Instruction} (hi : i ∈ b.instructions)
    {operand : Operand} (hoperand : operand ∈ i.operands) :
    ∃ site, (operand, site) ∈ b.sites := by
  obtain ⟨position, hposition, hget⟩ := List.mem_iff_getElem.mp hi
  have hzip : (i, position) ∈ b.instructions.zipIdx := by
    rw [List.mem_zipIdx_iff_getElem?, List.getElem?_eq_getElem hposition, hget]
  exact ⟨_, List.mem_append_right _
    (List.mem_flatMap.mpr ⟨_, hzip, List.mem_map.mpr ⟨operand, hoperand, rfl⟩⟩)⟩

theorem mem_operands_variable {i : Instruction} {v : Variable} :
    .variable v ∈ i.operands ↔ v ∈ i.vars := by
  simp [Instruction.operands, Instruction.vars]

theorem mem_operands_label {i : Instruction} {l : Label} :
    .label l ∈ i.operands ↔ l ∈ i.targets := by
  simp [Instruction.operands, Instruction.targets]

theorem InRange.dangling_eq_none (h : p.InRange) {b : Block} (hb : b ∈ p.blocks)
    {site : Operand × Site} (hsite : site ∈ b.sites) : p.dangling? site = none := by
  rcases List.mem_append.mp hsite with hsite | hsite
  · obtain ⟨phi, hphi, hsite⟩ := List.mem_flatMap.mp hsite
    simp only [Phi.sites, List.cons_append, List.mem_cons, List.mem_append, List.mem_map] at hsite
    rcases hsite with rfl | ⟨i, hi, rfl⟩ | ⟨i, hi, rfl⟩
    · exact dangling_variable_eq_none.mpr (h.phi_dest b hb phi hphi)
    · exact dangling_variable_eq_none.mpr (h.phi_value b hb phi hphi i hi)
    · exact dangling_label_eq_none.mpr (h.phi_source b hb phi hphi i hi)
  · obtain ⟨⟨i, position⟩, hzip, hsite⟩ := List.mem_flatMap.mp hsite
    obtain ⟨operand, hoperand, rfl⟩ := List.mem_map.mp hsite
    have hi : i ∈ b.instructions := List.mem_of_getElem? (List.mem_zipIdx_iff_getElem?.mp hzip)
    rcases operand with v | l
    · exact dangling_variable_eq_none.mpr
        (h.variable_lt b hb i hi v (mem_operands_variable.mp hoperand))
    · exact dangling_label_eq_none.mpr
        (h.target_lt b hb i hi l (mem_operands_label.mp hoperand))

theorem verifyOperands_eq_ok_iff : p.verifyOperands = .ok () ↔ p.InRange := by
  rw [verifyOperands_eq_ok_iff_sites]
  constructor
  · intro h
    refine ⟨fun b hb phi hphi => ?_, fun b hb phi hphi i hi => ?_, fun b hb phi hphi i hi => ?_,
      fun b hb i hi v hv => ?_, fun b hb i hi l hl => ?_⟩
    · have hsite : (.variable phi.dest, .phiDest b.label.index) ∈ phi.sites b.label.index :=
        List.mem_append_left _ List.mem_cons_self
      exact dangling_variable_eq_none.mp (h b hb _ (mem_sites_phi hphi hsite))
    · have hsite : (.variable i.value, .phiValue b.label.index) ∈ phi.sites b.label.index :=
        List.mem_append_left _ (List.mem_cons_of_mem _ (List.mem_map.mpr ⟨i, hi, rfl⟩))
      exact dangling_variable_eq_none.mp (h b hb _ (mem_sites_phi hphi hsite))
    · have hsite : (.label i.source, .phiSource b.label.index) ∈ phi.sites b.label.index :=
        List.mem_append_right _ (List.mem_map.mpr ⟨i, hi, rfl⟩)
      exact dangling_label_eq_none.mp (h b hb _ (mem_sites_phi hphi hsite))
    · obtain ⟨site, hsite⟩ := mem_sites_instruction hi (mem_operands_variable.mpr hv)
      exact dangling_variable_eq_none.mp (h b hb _ hsite)
    · obtain ⟨site, hsite⟩ := mem_sites_instruction hi (mem_operands_label.mpr hl)
      exact dangling_label_eq_none.mp (h b hb _ hsite)
  · exact fun h b hb site hsite => h.dangling_eq_none hb hsite

/-- Operands are in range block by block. -/
theorem inRange_iff_blocks :
    p.InRange ↔ ∀ b ∈ p.blocks, (∀ v ∈ b.vars, v.index < p.variableCount) ∧
      ∀ l ∈ b.labels, l.index < p.blockCount := by
  constructor
  · intro h b hb
    refine ⟨fun v hv => ?_, fun l hl => ?_⟩
    · rcases List.mem_append.mp hv with hv | hv
      · obtain ⟨phi, hphi, hv⟩ := List.mem_flatMap.mp hv
        rcases List.mem_cons.mp hv with rfl | hv
        · exact h.phi_dest b hb phi hphi
        · obtain ⟨i, hi, rfl⟩ := List.mem_map.mp hv
          exact h.phi_value b hb phi hphi i hi
      · obtain ⟨i, hi, hv⟩ := List.mem_flatMap.mp hv
        exact h.variable_lt b hb i hi v hv
    · rcases List.mem_append.mp hl with hl | hl
      · obtain ⟨phi, hphi, hl⟩ := List.mem_flatMap.mp hl
        obtain ⟨i, hi, rfl⟩ := List.mem_map.mp hl
        exact h.phi_source b hb phi hphi i hi
      · obtain ⟨i, hi, hl⟩ := List.mem_flatMap.mp hl
        exact h.target_lt b hb i hi l hl
  · intro h
    refine ⟨fun b hb phi hphi => ?_, fun b hb phi hphi i hi => ?_, fun b hb phi hphi i hi => ?_,
      fun b hb i hi v hv => ?_, fun b hb i hi l hl => ?_⟩
    · exact (h b hb).1 _ (List.mem_append_left _ (List.mem_flatMap.mpr
        ⟨phi, hphi, List.mem_cons_self⟩))
    · exact (h b hb).1 _ (List.mem_append_left _ (List.mem_flatMap.mpr
        ⟨phi, hphi, List.mem_cons_of_mem _ (List.mem_map.mpr ⟨i, hi, rfl⟩)⟩))
    · exact (h b hb).2 _ (List.mem_append_left _ (List.mem_flatMap.mpr
        ⟨phi, hphi, List.mem_map.mpr ⟨i, hi, rfl⟩⟩))
    · exact (h b hb).1 v (List.mem_append_right _ (List.mem_flatMap.mpr ⟨i, hi, hv⟩))
    · exact (h b hb).2 l (List.mem_append_right _ (List.mem_flatMap.mpr ⟨i, hi, hl⟩))

theorem verifyOperands_of_verify (h : p.verify = .ok ()) : p.verifyOperands = .ok () := by
  unfold verify at h
  cases hoperands : p.verifyOperands with
  | error e =>
    rw [hoperands] at h
    cases h
  | ok => rfl

theorem verify_eq_error {e : MethodError} (h : p.verifyOperands = .error e) :
    p.verify = .error e := by
  unfold verify
  rw [h]
  rfl

end Program

end MethodFlow
