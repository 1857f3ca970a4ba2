import MethodFlow.Proofs.Verification.Instructions
import Mathlib.Data.List.Permutation
/-!
# What verification says

A program is verified exactly if it is well-formed, and otherwise the error says which of the
checks fails, and where:

* `verify_eq_ok_iff_wellFormed`: verification decides `WellFormed`;
* `verify_eq_ok_iff`: with that, when each kind of error is given and what place it names.
-/

namespace MethodFlow

open MethodFlow.Graph

/-! ## Phis -/

namespace Phi

variable {phi : Phi} {predecessors seen sources : List Nat} {reachable : Array Bool} {dest : Nat}

theorem sourceDefect_eq_none_iff :
    sourceDefect? dest predecessors seen sources = none ↔
      (∀ s ∈ sources, s ∈ predecessors) ∧ sources.Nodup ∧ ∀ s ∈ sources, s ∉ seen := by
  induction sources generalizing seen with
  | nil => simp [sourceDefect?]
  | cons source rest ih =>
    unfold sourceDefect?
    split
    · next hout => simp [hout]
    · next hin =>
      rw [Decidable.not_not] at hin
      split
      · next hseen => simp [hseen]
      · next hseen =>
        rw [ih, List.forall_mem_cons, List.nodup_cons, List.forall_mem_cons]
        constructor
        · rintro ⟨hrest, hnodup, hnew⟩
          refine ⟨⟨hin, hrest⟩, ⟨fun hmem => hnew source hmem List.mem_cons_self, hnodup⟩, hseen,
            fun s hs hmem => hnew s hs (List.mem_cons_of_mem _ hmem)⟩
        · rintro ⟨⟨-, hrest⟩, ⟨hout, hnodup⟩, -, hnew⟩
          refine ⟨hrest, hnodup, fun s hs hmem => ?_⟩
          rcases List.mem_cons.mp hmem with rfl | hmem
          · exact hout hs
          · exact hnew s hs hmem

theorem defect_eq_none_iff :
    phi.defect? predecessors reachable = none ↔
      (∀ i ∈ phi.incomings, i.source.index ∈ predecessors) ∧
        (phi.incomings.map (·.source.index)).Nodup ∧
        ∀ s ∈ predecessors, Marked reachable s → ∃ i ∈ phi.incomings, i.source.index = s := by
  have hmarked : ∀ s, reachable[s]?.getD false = true ↔ Marked reachable s := by
    intro s
    unfold Marked
    cases reachable[s]? <;> simp
  have hsources :
      sourceDefect? phi.dest.index predecessors [] (phi.incomings.map (·.source.index)) = none ↔
        (∀ i ∈ phi.incomings, i.source.index ∈ predecessors) ∧
        (phi.incomings.map (·.source.index)).Nodup := by
    rw [sourceDefect_eq_none_iff]
    simp
  unfold defect?
  dsimp only
  split
  · next defect hdefect =>
    have hne := mt hsources.mpr (by simp [hdefect])
    simp only [reduceCtorEq, false_iff]
    exact fun h => hne ⟨h.1, h.2.1⟩
  · next hnone =>
    obtain ⟨hmem, hnodup⟩ := hsources.mp hnone
    rw [Option.map_eq_none_iff, List.find?_eq_none, and_iff_right hmem, and_iff_right hnodup]
    refine forall_congr' fun s => imp_congr_right fun _ => ?_
    simp [hmarked]

/-- The sources of a phi are the blocks that control comes to its block from: no others, none
twice, and all of those that control can come to. -/
structure Agrees (phi : Phi) (p : Program) (l : Label) : Prop where
  leads : ∀ i ∈ phi.incomings, p.Leads i.source l
  nodup : (phi.incomings.map (·.source)).Nodup
  complete : ∀ m, p.Leads m l → p.Reached m → ∃ i ∈ phi.incomings, i.source = m

theorem defect_eq_none_iff_agrees {p : Program} {g : Adjacency} (h : p.IsFlowGraph g)
    (phi : Phi) (l : Label) :
    phi.defect? (Graph.predecessors g l.index) (p.reachableBlocks g) = none ↔ phi.Agrees p l := by
  have hnodup : (phi.incomings.map (·.source.index)).Nodup ↔
      (phi.incomings.map (·.source)).Nodup := by
    rw [← List.nodup_map_iff (f := Label.index) (fun _ _ => Label.ext), List.map_map]
    rfl
  rw [defect_eq_none_iff, hnodup]
  simp only [h.mem_predecessors, h.edge_iff_leads]
  constructor
  · rintro ⟨hleads, hnodup, hcomplete⟩
    refine ⟨hleads, hnodup, fun m hlead hreached => ?_⟩
    obtain ⟨i, hi, hsource⟩ := hcomplete m.index (h.edge_iff_leads.mpr hlead)
      ((h.marked_reachableBlocks_iff hlead.lt).mpr hreached)
    exact ⟨i, hi, Label.ext hsource⟩
  · rintro ⟨hleads, hnodup, hcomplete⟩
    refine ⟨hleads, hnodup, fun s hedge hmarked => ?_⟩
    obtain ⟨m, l', hlead, rfl, hl⟩ := (h.edge_iff _ _).mp hedge
    rw [Label.ext hl] at hlead
    obtain ⟨i, hi, rfl⟩ := hcomplete m hlead ((h.marked_reachableBlocks_iff hlead.lt).mp hmarked)
    exact ⟨i, hi, rfl⟩

end Phi

/-! ## Blocks -/

namespace Block

variable {p : Program} {g : Adjacency} {b : Block} {e : MethodError}

/-- If control can come to the block, its phis agree with the control flow. -/
def PhisAgree (p : Program) (b : Block) : Prop :=
  p.Reached b.label → ∀ phi ∈ b.phis, phi.Agrees p b.label

theorem invalidPhi_eq_none_iff (h : p.IsFlowGraph g) (hb : b.label.index < p.blockCount) :
    b.invalidPhi? g (p.reachableBlocks g) = none ↔ b.PhisAgree p := by
  have hmarked : (p.reachableBlocks g)[b.label.index]?.getD false = true ↔ p.Reached b.label := by
    rw [← h.marked_reachableBlocks_iff hb]
    unfold Marked
    cases (p.reachableBlocks g)[b.label.index]? <;> simp
  unfold invalidPhi? PhisAgree
  split
  · next hreached =>
    rw [List.findSome?_eq_none_iff, forall_prop_of_true (hmarked.mp hreached)]
    refine forall_congr' fun phi => imp_congr_right fun _ => ?_
    rw [Option.map_eq_none_iff, Phi.defect_eq_none_iff_agrees h]
  · next hout =>
    exact iff_of_true rfl fun hreached => absurd (hmarked.mpr hreached) hout

theorem exists_of_invalidPhi {reachable : Array Bool} (h : b.invalidPhi? g reachable = some e) :
    ∃ defect, e = .invalidPhi b.label.index defect := by
  unfold invalidPhi? at h
  split at h
  · obtain ⟨phi, -, hphi⟩ := List.exists_of_findSome?_eq_some h
    obtain ⟨defect, -, rfl⟩ := Option.map_eq_some_iff.mp hphi
    exact ⟨defect, rfl⟩
  · cases h

end Block

/-! ## Programs -/

def MethodError.IsDangling : MethodError → Prop
  | .danglingVariable .. | .danglingLabel .. => True
  | _ => False

namespace Program

variable {p : Program} {g : Adjacency} {block position : Nat} {e : MethodError}

/-- The phis of every block that control can come to agree with the control flow. -/
def PhisAgree (p : Program) : Prop := ∀ b ∈ p.blocks, b.PhisAgree p

/-- This is the first block that control can come to and whose phis do not agree. -/
def FirstDisagreeing (p : Program) (block : Nat) : Prop :=
  (∃ b, p.blocks[block]? = some b ∧ ¬b.PhisAgree p) ∧
    ∀ earlier < block, ∀ b, p.blocks[earlier]? = some b → b.PhisAgree p

structure WellFormed (p : Program) : Prop where
  inRange : p.InRange
  allFit : p.AllFit
  phisAgree : p.PhisAgree

theorem FirstDisagreeing.not_phisAgree (h : p.FirstDisagreeing block) : ¬p.PhisAgree := by
  obtain ⟨⟨b, hb, hdisagree⟩, -⟩ := h
  exact fun hall => hdisagree (hall b (Array.mem_of_getElem? hb))

theorem FirstDisagreeing.unique {other : Nat} (h : p.FirstDisagreeing block)
    (h' : p.FirstDisagreeing other) : block = other :=
  eq_of_first (fun n => ∃ b, p.blocks[n]? = some b ∧ ¬b.PhisAgree p)
    h.1 (fun n hn ⟨b, hb, hdisagree⟩ => hdisagree (h.2 n hn b hb))
    h'.1 (fun n hn ⟨b, hb, hdisagree⟩ => hdisagree (h'.2 n hn b hb))

theorem Labelled.lt (hlabel : p.Labelled) {b : Block} (hb : b ∈ p.blocks) :
    b.label.index < p.blockCount :=
  lt_blockCount_of_block (hlabel.getElem?_label hb)

theorem findSome_invalidPhi_eq_none_iff (h : p.IsFlowGraph g) (hlabel : p.Labelled) :
    p.blocks.toList.findSome? (·.invalidPhi? g (p.reachableBlocks g)) = none ↔ p.PhisAgree := by
  rw [List.findSome?_eq_none_iff]
  unfold PhisAgree
  refine forall_congr' fun b => ?_
  rw [Array.mem_toList_iff]
  exact forall_congr' fun hb => Block.invalidPhi_eq_none_iff h (hlabel.lt hb)

theorem findSome_invalidPhi_spec (h : p.IsFlowGraph g) (hlabel : p.Labelled)
    (he : p.blocks.toList.findSome? (·.invalidPhi? g (p.reachableBlocks g)) = some e) :
    ∃ block defect, e = .invalidPhi block defect ∧ p.FirstDisagreeing block := by
  obtain ⟨n, b, hb, hinvalid, hbefore⟩ := findSome?_eq_some_iff_getElem?.mp he
  rw [Array.getElem?_toList] at hb
  obtain ⟨defect, rfl⟩ := Block.exists_of_invalidPhi hinvalid
  refine ⟨n, defect, by rw [hlabel n b hb], ⟨b, hb, fun hagree => ?_⟩, fun m hm c hc => ?_⟩
  · rw [(Block.invalidPhi_eq_none_iff h (hlabel.lt (Array.mem_of_getElem? hb))).mpr hagree]
      at hinvalid
    cases hinvalid
  · apply (Block.invalidPhi_eq_none_iff h (hlabel.lt (Array.mem_of_getElem? hc))).mp
    refine hbefore m hm c ?_
    rwa [Array.getElem?_toList]

/-! ## Verification -/

theorem isDangling_of_verifyOperands (h : p.verifyOperands = .error e) : e.IsDangling := by
  unfold verifyOperands at h
  split at h
  · next found hfound =>
    cases h
    obtain ⟨⟨operand, site⟩, -, hsite⟩ := List.exists_of_findSome?_eq_some hfound
    rcases operand with v | l
    all_goals
      simp only [dangling?, Option.ite_none_left_eq_some, Option.some.injEq] at hsite
      rw [← hsite.2]
      exact trivial
  · cases h

def Verdict (p : Program) : Except MethodError Unit → Prop
  | .ok () => p.WellFormed
  | .error (.malformedInstruction block position _) => p.InRange ∧ p.FirstUnfit block position
  | .error (.invalidPhi block _) => p.InRange ∧ p.AllFit ∧ p.FirstDisagreeing block
  | .error e => e.IsDangling ∧ ¬p.InRange

theorem verdict_verify (hlabel : p.Labelled) : p.Verdict p.verify := by
  cases hoperands : p.verifyOperands with
  | error e =>
    have hout : ¬p.InRange := by
      rw [← verifyOperands_eq_ok_iff, hoperands]
      exact fun h => nomatch h
    have hdangling := isDangling_of_verifyOperands hoperands
    rw [verify_eq_error hoperands]
    cases e with
    | danglingVariable | danglingLabel => exact ⟨hdangling, hout⟩
    | _ => exact hdangling.elim
  | ok =>
    have hin : p.InRange := verifyOperands_eq_ok_iff.mp hoperands
    obtain ⟨g, hg, hflow⟩ := exists_controlFlow hin.targetsKnown hlabel
    unfold verify
    rw [hoperands]
    simp only [bind, Except.bind]
    cases hmalformed : p.blocks.toList.findSome? Block.malformed? with
    | some e =>
      obtain ⟨block, position, defect, rfl, hfirst⟩ := findSome_malformed_spec hlabel hmalformed
      exact ⟨hin, hfirst⟩
    | none =>
      have hfit := findSome_malformed_eq_none_iff.mp hmalformed
      simp only [hg]
      cases hphi : p.blocks.toList.findSome? (·.invalidPhi? g (p.reachableBlocks g)) with
      | some e =>
        obtain ⟨block, defect, rfl, hfirst⟩ := findSome_invalidPhi_spec hflow hlabel hphi
        exact ⟨hin, hfit, hfirst⟩
      | none => exact ⟨hin, hfit, (findSome_invalidPhi_eq_none_iff hflow hlabel).mp hphi⟩

theorem verify_eq_ok_iff_wellFormed (hlabel : p.Labelled) : p.verify = .ok () ↔ p.WellFormed := by
  have hverdict := verdict_verify hlabel
  constructor
  · intro h
    rwa [h] at hverdict
  · intro hwell
    cases hverify : p.verify with
    | ok => rfl
    | error e =>
      rw [hverify] at hverdict
      cases e with
      | malformedInstruction => exact absurd hwell.allFit hverdict.2.not_allFit
      | invalidPhi => exact absurd hwell.phisAgree hverdict.2.2.not_phisAgree
      | _ => exact absurd hwell.inRange hverdict.2

theorem exists_dangling_iff (hlabel : p.Labelled) :
    (∃ e, p.verify = .error e ∧ e.IsDangling) ↔ ¬p.InRange := by
  have hverdict := verdict_verify hlabel
  constructor
  · rintro ⟨e, h, hdangling⟩
    rw [h] at hverdict
    cases e with
    | danglingVariable | danglingLabel => exact hverdict.2
    | _ => exact hdangling.elim
  · intro hout
    cases hverify : p.verify with
    | ok => exact absurd ((verify_eq_ok_iff_wellFormed hlabel).mp hverify).inRange hout
    | error e =>
      rw [hverify] at hverdict
      cases e with
      | malformedInstruction | invalidPhi => exact absurd hverdict.1 hout
      | _ => exact ⟨_, rfl, hverdict.1⟩

theorem exists_malformed (hlabel : p.Labelled) (hin : p.InRange) (hfit : ¬p.AllFit) :
    ∃ block position defect, p.verify = .error (.malformedInstruction block position defect) := by
  have hverdict := verdict_verify hlabel
  cases hverify : p.verify with
  | ok => exact absurd ((verify_eq_ok_iff_wellFormed hlabel).mp hverify).allFit hfit
  | error e =>
    rw [hverify] at hverdict
    cases e with
    | malformedInstruction block position defect => exact ⟨block, position, defect, rfl⟩
    | invalidPhi => exact absurd hverdict.2.1 hfit
    | _ => exact absurd hin hverdict.2

theorem exists_malformed_iff (hlabel : p.Labelled) :
    (∃ defect, p.verify = .error (.malformedInstruction block position defect)) ↔
      p.InRange ∧ p.FirstUnfit block position := by
  constructor
  · rintro ⟨defect, h⟩
    have hverdict := verdict_verify hlabel
    rwa [h] at hverdict
  · rintro ⟨hin, hfirst⟩
    obtain ⟨block', position', defect, h⟩ := exists_malformed hlabel hin hfirst.not_allFit
    have hverdict := verdict_verify hlabel
    rw [h] at hverdict
    obtain ⟨rfl, rfl⟩ := hfirst.unique hverdict.2
    exact ⟨defect, h⟩

theorem exists_invalidPhi (hlabel : p.Labelled) (hin : p.InRange) (hfit : p.AllFit)
    (hphis : ¬p.PhisAgree) : ∃ block defect, p.verify = .error (.invalidPhi block defect) := by
  have hverdict := verdict_verify hlabel
  cases hverify : p.verify with
  | ok => exact absurd ((verify_eq_ok_iff_wellFormed hlabel).mp hverify).phisAgree hphis
  | error e =>
    rw [hverify] at hverdict
    cases e with
    | malformedInstruction => exact absurd hfit hverdict.2.not_allFit
    | invalidPhi block defect => exact ⟨block, defect, rfl⟩
    | _ => exact absurd hin hverdict.2

theorem exists_invalidPhi_iff (hlabel : p.Labelled) :
    (∃ defect, p.verify = .error (.invalidPhi block defect)) ↔
      p.InRange ∧ p.AllFit ∧ p.FirstDisagreeing block := by
  constructor
  · rintro ⟨defect, h⟩
    have hverdict := verdict_verify hlabel
    rwa [h] at hverdict
  · rintro ⟨hin, hfit, hfirst⟩
    obtain ⟨block', defect, h⟩ := exists_invalidPhi hlabel hin hfit hfirst.not_phisAgree
    have hverdict := verdict_verify hlabel
    rw [h] at hverdict
    obtain rfl := hfirst.unique hverdict.2.2
    exact ⟨defect, h⟩

theorem verify_eq_ok_iff (hlabel : p.Labelled) :
    (p.verify = .ok () ↔ p.WellFormed) ∧
    ((∃ e, p.verify = .error e ∧ e.IsDangling) ↔ ¬p.InRange) ∧
    ((∃ block position defect, p.verify = .error (.malformedInstruction block position defect)) ↔
      p.InRange ∧ ¬p.AllFit) ∧
    (∀ block position,
      (∃ defect, p.verify = .error (.malformedInstruction block position defect)) ↔
        p.InRange ∧ p.FirstUnfit block position) ∧
    ((∃ block defect, p.verify = .error (.invalidPhi block defect)) ↔
      p.InRange ∧ p.AllFit ∧ ¬p.PhisAgree) ∧
    ∀ block, (∃ defect, p.verify = .error (.invalidPhi block defect)) ↔
      p.InRange ∧ p.AllFit ∧ p.FirstDisagreeing block := by
  refine ⟨verify_eq_ok_iff_wellFormed hlabel, exists_dangling_iff hlabel, ?_,
    fun block position => exists_malformed_iff hlabel, ?_,
    fun block => exists_invalidPhi_iff hlabel⟩
  · constructor
    · rintro ⟨block, position, h⟩
      obtain ⟨hin, hfirst⟩ := (exists_malformed_iff hlabel).mp h
      exact ⟨hin, hfirst.not_allFit⟩
    · exact fun ⟨hin, hfit⟩ => exists_malformed hlabel hin hfit
  · constructor
    · rintro ⟨block, h⟩
      obtain ⟨hin, hfit, hfirst⟩ := (exists_invalidPhi_iff hlabel).mp h
      exact ⟨hin, hfit, hfirst.not_phisAgree⟩
    · exact fun ⟨hin, hfit, hphis⟩ => exists_invalidPhi hlabel hin hfit hphis

/-- Two ways to the last block, whose phi takes a value from one of them only. -/
def halfMerged : Program :=
  ⟨#[⟨0, [], [.branch .null 0 1 2]⟩,
    ⟨1, [], [.nullConstant 1, .jump 3]⟩,
    ⟨2, [], [.nullConstant 2]⟩,
    ⟨3, [⟨3, [⟨1, 1⟩]⟩], [.exit (some 3)]⟩], .replicate 4 ⟨none⟩⟩

theorem halfMerged_disagrees :
    halfMerged.Labelled ∧
      halfMerged.verify = .error (.invalidPhi 3 (.missingSource 3 2)) ∧
      halfMerged.FirstDisagreeing 3 := by
  have hlabel : halfMerged.Labelled := by decide
  have hverify : halfMerged.verify = .error (.invalidPhi 3 (.missingSource 3 2)) := by
    cbv
  obtain ⟨-, -, -, -, -, hphi⟩ := verify_eq_ok_iff hlabel
  exact ⟨hlabel, hverify, ((hphi 3).mp ⟨_, hverify⟩).2.2⟩

end Program

end MethodFlow
