import MethodFlow.ControlFlow
import MethodFlow.Proofs.Verification.Operands
/-!
# Where control goes next

The successors of a block follow from its last instruction, from its place and from the number of
blocks:

* `successors_of_block`: the targets of the last instruction, or else the block that follows;
* `successors_congr`: nothing else of a program is looked at.
-/

namespace MethodFlow

def Block.targets? (b : Block) : Option (List Label) := b.last?.bind Instruction.targets?

theorem Instruction.isControlTransfer_of_mem_targets {i : Instruction} {m : Label}
    (hm : m ∈ i.targets) : i.isControlTransfer = true := by
  rw [isControlTransfer_eq_isSome_targets?]
  unfold targets at hm
  cases htargets : i.targets? with
  | none =>
    rw [htargets] at hm
    cases hm
  | some => rfl

theorem Block.targets?_eq_some_iff {b : Block} {targets : List Label} :
    b.targets? = some targets ↔
      ∃ i, b.last? = some i ∧ i.isControlTransfer = true ∧ i.targets = targets := by
  unfold Block.targets? Instruction.targets
  rw [Option.bind_eq_some_iff]
  refine exists_congr fun i => and_congr_right fun _ => ?_
  rw [i.isControlTransfer_eq_isSome_targets?]
  cases i.targets? <;> simp

namespace Program

variable {p q : Program} {b : Block} {l m : Label} {targets : List Label}

def following (p : Program) (l : Label) : List Label :=
  if l.index + 1 < p.blockCount then l.next?.toList else []

def targetsAt (p : Program) (l : Label) : List Label :=
  (p.blocks[l.index]?.bind Block.targets?).getD []

theorem lt_blockCount_of_block (hb : p.blocks[l.index]? = some b) : l.index < p.blockCount :=
  (Array.getElem?_eq_some_iff.mp hb).1

theorem exists_block_of_lt (hl : l.index < p.blockCount) : ∃ b, p.blocks[l.index]? = some b :=
  ⟨_, Array.getElem?_eq_getElem hl⟩

theorem successors_of_block (hb : p.blocks[l.index]? = some b) :
    p.successors l = .ok (b.targets?.getD (p.following l)) := by
  have hblock : p.block l = .ok b := by
    unfold block
    rw [hb]
  unfold successors following
  rw [hblock]
  simp only [bind, Except.bind]
  cases htargets : b.targets? with
  | none =>
    unfold Block.targets? at htargets
    simp only [htargets]
    rfl
  | some targets =>
    unfold Block.targets? at htargets
    simp only [htargets]
    rfl

theorem targetsAt_of_block (hb : p.blocks[l.index]? = some b) :
    p.targetsAt l = b.targets?.getD [] := by
  unfold targetsAt
  rw [hb, Option.bind_some]

theorem lt_blockCount_of_successors (h : p.successors l = .ok targets) :
    l.index < p.blockCount := by
  cases hblock : p.blocks[l.index]? with
  | none =>
    unfold successors block at h
    rw [hblock] at h
    cases h
  | some b => exact lt_blockCount_of_block hblock

theorem successors_congr (hcount : q.blockCount = p.blockCount)
    (htargets : q.blocks[l.index]?.map Block.targets? = p.blocks[l.index]?.map Block.targets?) :
    q.successors l = p.successors l := by
  have hfollowing : q.following l = p.following l := by
    unfold following
    rw [hcount]
  cases hp : p.blocks[l.index]? with
  | none =>
    have hq : q.blocks[l.index]? = none := by
      rw [hp] at htargets
      exact Option.map_eq_none_iff.mp htargets
    unfold successors block
    rw [hp, hq, hcount]
  | some b =>
    rw [hp] at htargets
    obtain ⟨c, hq, hc⟩ := Option.map_eq_some_iff.mp htargets
    rw [successors_of_block hq, successors_of_block hp, hc, hfollowing]

/-- Control can go from one block to the other. -/
def Leads (p : Program) (l m : Label) : Prop := ∃ targets, p.successors l = .ok targets ∧ m ∈ targets

/-! ## The block that follows -/

theorem mem_following : m ∈ p.following l ↔ m.index = l.index + 1 ∧ m.index < p.blockCount := by
  unfold following Label.next?
  split
  · next hcount =>
    split
    · next hlimit =>
      rw [Option.toList_some, List.mem_singleton]
      constructor
      · rintro rfl
        exact ⟨rfl, hcount⟩
      · exact fun h => Label.ext h.1
    · next hlimit =>
      have := m.index_lt
      simp only [Option.toList_none, List.not_mem_nil, false_iff]
      omega
  · next hcount =>
    simp only [List.not_mem_nil, false_iff]
    omega

theorem following_eq_nil (h : p.blockCount ≤ l.index + 1) : p.following l = [] := by
  unfold following
  rw [if_neg (by omega)]

theorem following_eq_singleton (hm : m.index = l.index + 1) (hlt : m.index < p.blockCount) :
    p.following l = [m] := by
  have hnext : l.next? = some m := by
    unfold Label.next?
    rw [dif_pos (hm ▸ m.index_lt)]
    exact congrArg some (Label.ext hm.symm)
  unfold following
  rw [if_pos (hm ▸ hlt), hnext, Option.toList_some]

/-! ## Targets of a checked program -/

theorem InRange.lt_of_mem_targets (h : p.InRange) (hb : b ∈ p.blocks)
    (htargets : b.targets? = some targets) (hm : m ∈ targets) : m.index < p.blockCount := by
  obtain ⟨i, hlast, hi⟩ := Option.bind_eq_some_iff.mp htargets
  refine h.target_lt b hb i (List.mem_of_getLast? hlast) m ?_
  unfold Instruction.targets
  rw [hi]
  exact hm

theorem InRange.lt_of_mem_targetsAt (h : p.InRange) (hm : m ∈ p.targetsAt l) :
    m.index < p.blockCount := by
  unfold targetsAt at hm
  cases htargets : p.blocks[l.index]?.bind Block.targets? with
  | none =>
    rw [htargets] at hm
    cases hm
  | some targets =>
    rw [htargets] at hm
    obtain ⟨b, hb, hlast⟩ := Option.bind_eq_some_iff.mp htargets
    exact h.lt_of_mem_targets (Array.mem_of_getElem? hb) hlast hm

end Program

end MethodFlow
