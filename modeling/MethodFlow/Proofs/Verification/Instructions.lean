import MethodFlow.Proofs.ControlFlow.Reachability
/-!
# What the check of instructions says

An instruction passes if it makes sense by itself and ends its block where it transfers control:

* `malformation_eq_none_iff`: what is wrong with an instruction by itself is exactly that it is not
  coherent;
* `findSome_malformed_spec`: the error names the first instruction of the program that does not fit
  its place;
* `verify_eq_ok_iff_stages`: this check is the second of three that verification consists of.
-/

namespace MethodFlow

/-- A search finds the first place where there is something to find. -/
theorem findSome?_eq_some_iff_getElem? {α β : Type} {f : α → Option β} {l : List α} {e : β} :
    l.findSome? f = some e ↔
      ∃ (n : Nat) (a : α), l[n]? = some a ∧ f a = some e ∧
        ∀ m < n, ∀ c, l[m]? = some c → f c = none := by
  rw [List.findSome?_eq_some_iff]
  constructor
  · rintro ⟨before, a, after, rfl, ha, hbefore⟩
    refine ⟨before.length, a, by simp, ha, fun m hm c hc => hbefore c ?_⟩
    rw [List.getElem?_append_left hm] at hc
    exact List.mem_of_getElem? hc
  · rintro ⟨n, a, hn, ha, hbefore⟩
    obtain ⟨hlt, rfl⟩ := List.getElem?_eq_some_iff.mp hn
    refine ⟨l.take n, l[n], l.drop (n + 1), by simp, ha, fun c hc => ?_⟩
    obtain ⟨m, hm, rfl⟩ := List.mem_take_iff_getElem.mp hc
    exact hbefore m (by omega) _ (List.getElem?_eq_getElem (by omega))

/-- There is one first place only. -/
theorem eq_of_first (bad : Nat → Prop) {m n : Nat} (hm : bad m) (hbefore : ∀ k < m, ¬bad k)
    (hn : bad n) (hbefore' : ∀ k < n, ¬bad k) : m = n :=
  Nat.le_antisymm (Nat.le_of_not_lt fun hlt => hbefore n hlt hn)
    (Nat.le_of_not_lt fun hlt => hbefore' m hlt hm)

/-! ## Instructions by themselves -/

/-- A call names an object exactly if its dispatch needs one, a multi-dimensional array has a
dimension, and no two rows of a switch have the same value. -/
def Instruction.Coherent : Instruction → Prop
  | .invoke call => call.dispatch = .static ↔ call.object = none
  | .constructMultiArray _ dimensions _ => dimensions ≠ []
  | .switch _ table _ => (table.map (·.value)).Nodup
  | _ => True

theorem firstRepeated_eq_none_iff {seen values : List Int32} :
    firstRepeated? seen values = none ↔ values.Nodup ∧ ∀ n ∈ values, n ∉ seen := by
  induction values generalizing seen with
  | nil => simp [firstRepeated?]
  | cons n rest ih =>
    unfold firstRepeated?
    split
    · next hn => simp [hn]
    · next hn =>
      rw [ih, List.nodup_cons, List.forall_mem_cons]
      constructor
      · rintro ⟨hnodup, hrest⟩
        refine ⟨⟨fun hmem => hrest n hmem List.mem_cons_self, hnodup⟩, hn, fun m hm hseen => ?_⟩
        exact hrest m hm (List.mem_cons_of_mem _ hseen)
      · rintro ⟨⟨hout, hnodup⟩, -, hrest⟩
        refine ⟨hnodup, fun m hm hmem => ?_⟩
        rcases List.mem_cons.mp hmem with rfl | hseen
        · exact hout hm
        · exact hrest m hm hseen

theorem malformation_invoke_eq_none_iff (call : Invocation) :
    (Instruction.invoke call).malformation? = none ↔
      (call.dispatch = .static ↔ call.object = none) := by
  unfold Instruction.malformation?
  cases hdispatch : call.dispatch <;> cases hobject : call.object <;>
    simp [hdispatch, hobject, Dispatch.needsObject]

theorem malformation_eq_none_iff (i : Instruction) : i.malformation? = none ↔ i.Coherent := by
  cases i with
  | invoke call => exact malformation_invoke_eq_none_iff call
  | constructMultiArray dest dimensions itemType =>
    cases dimensions <;> simp [Instruction.malformation?, Instruction.Coherent]
  | switch subject table otherwise =>
    show (firstRepeated? [] (table.map (·.value))).map _ = none ↔ (table.map (·.value)).Nodup
    rw [Option.map_eq_none_iff, firstRepeated_eq_none_iff]
    simp
  | _ => exact iff_of_true rfl trivial

/-! ## Instructions in their places -/

namespace Block

variable {b : Block} {i : Instruction} {position : Nat} {e : MethodError}

/-- The instruction ends the block if it transfers control, and makes sense by itself. -/
def Fits (b : Block) (position : Nat) (i : Instruction) : Prop :=
  (i.isControlTransfer = true → position + 1 = b.instructions.length) ∧ i.Coherent

def AllFit (b : Block) : Prop :=
  ∀ (position : Nat) (i : Instruction), b.instructions[position]? = some i → b.Fits position i

/-- The first instruction of the block that does not fit stands at this position. -/
def FirstUnfit (b : Block) (position : Nat) : Prop :=
  (∃ i, b.instructions[position]? = some i ∧ ¬b.Fits position i) ∧
    ∀ earlier < position, ∀ i, b.instructions[earlier]? = some i → b.Fits earlier i

def misfit? (b : Block) (i : Instruction) (position : Nat) : Option MethodError :=
  if i.isControlTransfer ∧ position + 1 ≠ b.instructions.length then
    some (.malformedInstruction b.label.index position (.notLast i.kind))
  else i.malformation?.map (.malformedInstruction b.label.index position)

theorem malformed_eq_findSome (b : Block) :
    b.malformed? = b.instructions.zipIdx.findSome? fun place => b.misfit? place.1 place.2 := rfl

theorem misfit_eq_none_iff : b.misfit? i position = none ↔ b.Fits position i := by
  unfold misfit? Fits
  split
  · next hlast => simp [hlast.1, hlast.2]
  · next hlast =>
    have hplace : i.isControlTransfer = true → position + 1 = b.instructions.length :=
      fun htransfer => Decidable.not_not.mp fun hne => hlast ⟨htransfer, hne⟩
    rw [Option.map_eq_none_iff, malformation_eq_none_iff, and_iff_right hplace]

theorem exists_of_misfit (h : b.misfit? i position = some e) :
    ∃ defect, e = .malformedInstruction b.label.index position defect := by
  unfold misfit? at h
  split at h
  · exact ⟨_, (Option.some.inj h).symm⟩
  · obtain ⟨defect, -, rfl⟩ := Option.map_eq_some_iff.mp h
    exact ⟨defect, rfl⟩

theorem malformed_eq_none_iff : b.malformed? = none ↔ b.AllFit := by
  rw [malformed_eq_findSome, List.findSome?_eq_none_iff]
  constructor
  · exact fun h position i hi => misfit_eq_none_iff.mp
      (h (i, position) (List.mem_zipIdx_iff_getElem?.mpr hi))
  · rintro h ⟨i, position⟩ hmem
    exact misfit_eq_none_iff.mpr (h position i (List.mem_zipIdx_iff_getElem?.mp hmem))

/-- What is found in a block is its first instruction that does not fit. -/
theorem malformed_spec (h : b.malformed? = some e) :
    ∃ position defect, e = .malformedInstruction b.label.index position defect ∧
      b.FirstUnfit position := by
  rw [malformed_eq_findSome, findSome?_eq_some_iff_getElem?] at h
  obtain ⟨n, ⟨i, position⟩, hn, hmisfit, hbefore⟩ := h
  rw [List.getElem?_zipIdx, Option.map_eq_some_iff] at hn
  obtain ⟨j, hj, heq⟩ := hn
  cases heq
  rw [Nat.zero_add] at hmisfit
  obtain ⟨defect, rfl⟩ := exists_of_misfit hmisfit
  refine ⟨n, defect, rfl, ⟨i, hj, fun hfits => ?_⟩, fun earlier hearlier c hc => ?_⟩
  · rw [misfit_eq_none_iff.mpr hfits] at hmisfit
    cases hmisfit
  · apply misfit_eq_none_iff.mp
    refine hbefore earlier hearlier (c, earlier) ?_
    rw [List.getElem?_zipIdx, hc, Option.map_some, Nat.zero_add]

theorem FirstUnfit.not_allFit (h : b.FirstUnfit position) : ¬b.AllFit := by
  obtain ⟨⟨i, hi, hunfit⟩, -⟩ := h
  exact fun hall => hunfit (hall position i hi)

theorem FirstUnfit.unique {other : Nat} (h : b.FirstUnfit position) (h' : b.FirstUnfit other) :
    position = other :=
  eq_of_first (fun n => ∃ i, b.instructions[n]? = some i ∧ ¬b.Fits n i)
    h.1 (fun n hn ⟨i, hi, hunfit⟩ => hunfit (h.2 n hn i hi))
    h'.1 (fun n hn ⟨i, hi, hunfit⟩ => hunfit (h'.2 n hn i hi))

end Block

/-! ## Programs -/

namespace Program

variable {p : Program} {block position : Nat} {e : MethodError}

def AllFit (p : Program) : Prop := ∀ b ∈ p.blocks, b.AllFit

/-- The first instruction of the program that does not fit stands in this place. -/
def FirstUnfit (p : Program) (block position : Nat) : Prop :=
  (∃ b, p.blocks[block]? = some b ∧ b.FirstUnfit position) ∧
    ∀ earlier < block, ∀ b, p.blocks[earlier]? = some b → b.AllFit

theorem findSome_malformed_eq_none_iff :
    p.blocks.toList.findSome? Block.malformed? = none ↔ p.AllFit := by
  simp only [List.findSome?_eq_none_iff, Array.mem_toList_iff, Block.malformed_eq_none_iff, AllFit]

theorem findSome_malformed_spec (hlabel : p.Labelled)
    (h : p.blocks.toList.findSome? Block.malformed? = some e) :
    ∃ block position defect, e = .malformedInstruction block position defect ∧
      p.FirstUnfit block position := by
  obtain ⟨n, b, hb, hmalformed, hbefore⟩ := findSome?_eq_some_iff_getElem?.mp h
  rw [Array.getElem?_toList] at hb
  obtain ⟨position, defect, rfl, hfirst⟩ := Block.malformed_spec hmalformed
  refine ⟨n, position, defect, by rw [hlabel n b hb], ⟨b, hb, hfirst⟩, fun m hm c hc => ?_⟩
  refine Block.malformed_eq_none_iff.mp (hbefore m hm c ?_)
  rwa [Array.getElem?_toList]

theorem FirstUnfit.not_allFit (h : p.FirstUnfit block position) : ¬p.AllFit := by
  obtain ⟨⟨b, hb, hfirst⟩, -⟩ := h
  exact fun hall => hfirst.not_allFit (hall b (Array.mem_of_getElem? hb))

theorem FirstUnfit.unique {block' position' : Nat} (h : p.FirstUnfit block position)
    (h' : p.FirstUnfit block' position') : block = block' ∧ position = position' := by
  obtain ⟨⟨b, hb, hfirst⟩, hbefore⟩ := h
  obtain ⟨⟨c, hc, hfirst'⟩, hbefore'⟩ := h'
  have heq : block = block' :=
    eq_of_first (fun n => ∃ b, p.blocks[n]? = some b ∧ ¬b.AllFit)
      ⟨b, hb, hfirst.not_allFit⟩ (fun n hn ⟨d, hd, hunfit⟩ => hunfit (hbefore n hn d hd))
      ⟨c, hc, hfirst'.not_allFit⟩ (fun n hn ⟨d, hd, hunfit⟩ => hunfit (hbefore' n hn d hd))
  subst heq
  rw [hb] at hc
  cases hc
  exact ⟨rfl, hfirst.unique hfirst'⟩

/-- Verification passes exactly if every one of its stages does. -/
theorem verify_eq_ok_iff_stages : p.verify = .ok () ↔
    p.InRange ∧ p.AllFit ∧ ∃ g, p.controlFlow = .ok g ∧
      p.blocks.toList.findSome? (·.invalidPhi? g (p.reachableBlocks g)) = none := by
  rw [← verifyOperands_eq_ok_iff, ← findSome_malformed_eq_none_iff]
  unfold verify
  cases hoperands : p.verifyOperands with
  | error e => simp [bind, Except.bind]
  | ok =>
    simp only [bind, Except.bind, true_and]
    cases hmalformed : p.blocks.toList.findSome? Block.malformed? with
    | some e => simp [throw, throwThe, MonadExceptOf.throw]
    | none =>
      simp only [true_and]
      cases hg : p.controlFlow with
      | error e => simp
      | ok g =>
        simp only [Except.ok.injEq, exists_eq_left']
        cases p.blocks.toList.findSome? (·.invalidPhi? g (p.reachableBlocks g)) <;>
          simp [throw, throwThe, MonadExceptOf.throw, pure, Except.pure]

end Program

end MethodFlow
