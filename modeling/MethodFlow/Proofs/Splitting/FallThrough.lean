import MethodFlow.Proofs.Splitting.Effect
/-!
# Fall-through and splitting

A split turns the references of instructions.  Where control falls through to depends on places
instead, and copies have other places than their nodes:

* `successors_split_iff`: when exactly the successors of a block are those that redirection
  promises.
-/

namespace MethodFlow.Program

variable {p q : Program} {domain nodes copies : List Label} {l m node copy : Label} {b : Block}
  {f : Label → Label}

def Transfers (p : Program) (l : Label) : Prop :=
  ∃ b targets, p.blocks[l.index]? = some b ∧ b.targets? = some targets

theorem transfers_iff (hb : p.blocks[l.index]? = some b) :
    p.Transfers l ↔ b.targets?.isSome = true := by
  rw [Option.isSome_iff_exists]
  constructor
  · rintro ⟨c, targets, hc, htargets⟩
    rw [hb] at hc
    cases hc
    exact ⟨targets, htargets⟩
  · rintro ⟨targets, htargets⟩
    exact ⟨b, targets, hb, htargets⟩

/-- Renaming keeps the successors of a block that transfers control, so that all depends on where
the others fall through to. -/
theorem successors_iff_following (hb : p.blocks[l.index]? = some b)
    (hq : q.successors m = .ok ((b.targets?.map (List.map f)).getD (q.following m))) :
    q.successors m = (p.successors l).map (List.map f) ↔
      p.Transfers l ∨ q.following m = (p.following l).map f := by
  rw [hq, successors_of_block hb, transfers_iff hb, Except.map]
  cases b.targets? with
  | none => simp
  | some targets => simp

theorem successors_kept_iff (hb : p.blocks[l.index]? = some b)
    (hq : q.successors l = .ok (b.targets?.getD (q.following l))) :
    q.successors l = p.successors l ↔ p.Transfers l ∨ q.following l = p.following l := by
  rw [hq, successors_of_block hb, transfers_iff hb]
  cases b.targets? with
  | none => simp
  | some targets => simp

/-! ## Where control falls through to after a split -/

namespace IsSplit

variable (h : IsSplit p domain nodes copies q)

include h

theorem nil_of_following_eq_nil (hlast : l.index + 1 = p.blockCount) (hq : q.following l = []) :
    nodes = [] := by
  by_contra hnodes
  have hpos : 0 < nodes.length := List.length_pos_iff.mpr hnodes
  obtain ⟨copy, hcopy⟩ := h.fresh.exists_getElem? hpos
  have hindex := h.fresh.index_eq hcopy
  have hmem : copy ∈ q.following l := by
    rw [mem_following, h.blockCount_eq]
    omega
  rw [hq] at hmem
  exact List.not_mem_nil hmem

/-- The last block falls through to the first copy, if there is one. -/
theorem following_eq_nil_iff (hlast : l.index + 1 = p.blockCount) :
    q.following l = [] ↔ nodes = [] := by
  refine ⟨h.nil_of_following_eq_nil hlast, ?_⟩
  rintro rfl
  apply following_eq_nil
  rw [h.blockCount_eq, List.length_nil]
  omega

theorem following_eq_of_lt (hl : l.index + 1 < p.blockCount) : q.following l = p.following l := by
  unfold following
  rw [if_pos hl, if_pos (by rw [h.blockCount_eq]; omega)]

theorem following_domain_iff (hl : l.index < p.blockCount) :
    q.following l = (p.following l).map (redirect (nodes.zip copies)) ↔
      (l.index + 1 < p.blockCount ∧ ∀ node ∈ nodes, node.index ≠ l.index + 1) ∨
        (l.index + 1 = p.blockCount ∧ nodes = []) := by
  by_cases hnext : l.index + 1 < p.blockCount
  · have hfixed : p.following l = (p.following l).map (redirect (nodes.zip copies)) ↔
        ∀ m ∈ p.following l, redirect (nodes.zip copies) m = m := by
      have hmap : (p.following l).map (redirect (nodes.zip copies)) = (p.following l).map id ↔
          ∀ m ∈ p.following l, redirect (nodes.zip copies) m = id m := List.map_inj_left
      rw [List.map_id] at hmap
      exact eq_comm.trans hmap
    rw [h.following_eq_of_lt hnext, hfixed]
    constructor
    · intro hall
      refine .inl ⟨hnext, fun node hnode heq => ?_⟩
      have hmem : node ∈ p.following l := mem_following.mpr ⟨heq, by omega⟩
      exact (h.redirect_eq_self_iff (h.nodes_lt node hnode)).mp (hall node hmem) hnode
    · rintro (⟨-, hout⟩ | ⟨hlast, -⟩) m hm
      · obtain ⟨hindex, hlt⟩ := mem_following.mp hm
        exact (h.redirect_eq_self_iff hlt).mpr fun hmem => hout m hmem hindex
      · omega
  · have hlast : l.index + 1 = p.blockCount := by omega
    rw [following_eq_nil (Nat.le_of_eq hlast.symm), List.map_nil, h.following_eq_nil_iff hlast]
    constructor
    · exact fun hnodes => .inr ⟨hlast, hnodes⟩
    · rintro (⟨hlt, -⟩ | ⟨-, hnodes⟩)
      · omega
      · exact hnodes

theorem following_kept_iff (hl : l.index < p.blockCount) :
    q.following l = p.following l ↔ l.index + 1 < p.blockCount ∨ nodes = [] := by
  by_cases hnext : l.index + 1 < p.blockCount
  · exact iff_of_true (h.following_eq_of_lt hnext) (.inl hnext)
  · have hlast : l.index + 1 = p.blockCount := by omega
    rw [following_eq_nil (Nat.le_of_eq hlast.symm), h.following_eq_nil_iff hlast,
      or_iff_right hnext]

/-- A copy falls through to the next copy. -/
theorem following_copy {i : Nat} (hcopy : copies[i]? = some copy) :
    q.following copy = copies[i + 1]?.toList := by
  have hindex := h.fresh.index_eq hcopy
  by_cases hlast : i + 1 < nodes.length
  · obtain ⟨later, hlater⟩ := h.fresh.exists_getElem? hlast
    have hindex' := h.fresh.index_eq hlater
    rw [hlater, Option.toList_some]
    apply following_eq_singleton (by omega)
    rw [h.blockCount_eq]
    omega
  · have hnone : copies[i + 1]? = none := by
      rw [List.getElem?_eq_none_iff, h.fresh.length_eq]
      omega
    rw [hnone, Option.toList_none]
    apply following_eq_nil
    rw [h.blockCount_eq]
    omega

/-- The only label that is turned to a copy is that of its node. -/
theorem redirect_eq_copy_iff (hnodup : nodes.Nodup) {i : Nat} (hcopy : copies[i]? = some copy)
    (hm : m.index < p.blockCount) :
    redirect (nodes.zip copies) m = copy ↔ nodes[i]? = some m := by
  have hindex := h.fresh.index_eq hcopy
  constructor
  · intro heq
    rcases redirect_cases (nodes.zip copies) m with ⟨hself, -⟩ | hmem
    · rw [hself] at heq
      subst heq
      omega
    · obtain ⟨j, hj⟩ := List.mem_iff_getElem?.mp hmem
      obtain ⟨hnode, hcopy'⟩ := List.getElem?_zip_eq_some.mp hj
      have hindex' : (redirect (nodes.zip copies) m).index = p.blockCount + j :=
        h.fresh.index_eq hcopy'
      rw [heq] at hindex'
      have hij : j = i := by omega
      exact hij ▸ hnode
  · intro hnode
    have hpair := mem_zip_of_getElem? hnode hcopy
    exact h.redirect_copy hnodup hpair

theorem toList_copy_iff (hnodup : nodes.Nodup) (i : Nat) (hm : m.index < p.blockCount) :
    copies[i]?.toList = [redirect (nodes.zip copies) m] ↔ nodes[i]? = some m := by
  cases hcopy : copies[i]? with
  | none =>
    have hnone : nodes[i]? = none := by
      rw [List.getElem?_eq_none_iff, h.fresh.length_eq] at hcopy
      exact List.getElem?_eq_none_iff.mpr hcopy
    simp [hnone]
  | some copy =>
    rw [Option.toList_some, List.singleton_inj, eq_comm, h.redirect_eq_copy_iff hnodup hcopy hm]

/-- The next copy is the copy of the block that the node falls through to only if the nodes come
in the same order as the blocks. -/
theorem following_copy_iff (hnodup : nodes.Nodup) {i : Nat} (hnode : nodes[i]? = some node)
    (hcopy : copies[i]? = some copy) :
    q.following copy = (p.following node).map (redirect (nodes.zip copies)) ↔
      (∃ next, nodes[i + 1]? = some next ∧ next.index = node.index + 1) ∨
        (node.index + 1 = p.blockCount ∧ i + 1 = nodes.length) := by
  have hindex := h.fresh.index_eq hcopy
  have hlimit := copy.index_lt
  have hlt := h.nodes_lt node (List.mem_of_getElem? hnode)
  have hi : i < nodes.length := (List.getElem?_eq_some_iff.mp hnode).1
  rw [h.following_copy hcopy]
  by_cases hnext : node.index + 1 < p.blockCount
  · have hfollowing : p.following node = [⟨node.index + 1, by omega⟩] :=
      following_eq_singleton rfl hnext
    rw [hfollowing, List.map_singleton, h.toList_copy_iff hnodup (i + 1) hnext]
    constructor
    · exact fun hget => .inl ⟨_, hget, rfl⟩
    · rintro (⟨next, hget, hplace⟩ | ⟨hplace, -⟩)
      · rw [hget]
        exact congrArg some (Label.ext hplace)
      · omega
  · have hlast : node.index + 1 = p.blockCount := by omega
    rw [following_eq_nil (Nat.le_of_eq hlast.symm), List.map_nil]
    have hempty : copies[i + 1]?.toList = [] ↔ i + 1 = nodes.length := by
      rw [Option.toList_eq_nil_iff, List.getElem?_eq_none_iff, h.fresh.length_eq]
      omega
    rw [hempty]
    constructor
    · exact fun heq => .inr ⟨hlast, heq⟩
    · rintro (⟨next, hget, hplace⟩ | ⟨-, heq⟩)
      · have := h.nodes_lt next (List.mem_of_getElem? hget)
        omega
      · exact heq

end IsSplit

theorem successors_split_iff (hok : p.verifyOperands = .ok ()) (hnodup : nodes.Nodup)
    (hsplit : p.split domain nodes = .ok (.ok copies, q)) :
    (∀ i node copy, nodes[i]? = some node → copies[i]? = some copy →
      (q.successors copy =
          (p.successors node).map (List.map (redirect (nodes.zip copies))) ↔
        p.Transfers node ∨ (∃ next, nodes[i + 1]? = some next ∧ next.index = node.index + 1) ∨
          (node.index + 1 = p.blockCount ∧ i + 1 = nodes.length))) ∧
    (∀ l ∈ domain,
      (q.successors l = (p.successors l).map (List.map (redirect (nodes.zip copies))) ↔
        p.Transfers l ∨
          (l.index + 1 < p.blockCount ∧ ∀ node ∈ nodes, node.index ≠ l.index + 1) ∨
          (l.index + 1 = p.blockCount ∧ nodes = []))) ∧
    ∀ l : Label, l.index < p.blockCount → l ∉ domain →
      (q.successors l = p.successors l ↔
        p.Transfers l ∨ l.index + 1 < p.blockCount ∨ nodes = []) := by
  have h := isSplit_of_split (verifyOperands_eq_ok_iff.mp hok) hsplit
  refine ⟨fun i node copy hnode hcopy => ?_, fun l hl => ?_, fun l hl hout => ?_⟩
  · obtain ⟨b, hb⟩ := exists_block_of_lt (h.nodes_lt node (List.mem_of_getElem? hnode))
    have hpair : (node, copy) ∈ nodes.zip copies := mem_zip_of_getElem? hnode hcopy
    rw [successors_iff_following hb (h.successors_copy hpair hb),
      h.following_copy_iff hnodup hnode hcopy]
  · have hlt := h.domain_lt l hl
    obtain ⟨b, hb⟩ := exists_block_of_lt hlt
    rw [successors_iff_following hb (h.successors_domain hl hb), h.following_domain_iff hlt]
  · obtain ⟨b, hb⟩ := exists_block_of_lt hl
    rw [successors_kept_iff hb (h.successors_kept hout hb), h.following_kept_iff hl]

/-- A block without instructions, and one that ends the method. -/
def fallingThrough : Program := ⟨#[⟨0, [], []⟩, ⟨1, [], [.exit none]⟩], #[]⟩

def fallingThroughSplit : Program := fallingThrough.append ⟨2, [], [.exit none]⟩

theorem fallingThrough_split :
    fallingThrough.split [0] [1] = .ok (.ok [2], fallingThroughSplit) := by
  cbv

/-- The copy ends the method like its node. -/
theorem fallingThrough_copy :
    fallingThrough.verifyOperands = .ok () ∧ [(1 : Label)].Nodup ∧
      fallingThrough.split [0] [1] = .ok (.ok [2], fallingThroughSplit) ∧
      fallingThroughSplit.successors 2 =
        (fallingThrough.successors 1).map (List.map (redirect [(1, 2)])) := by
  have hok : fallingThrough.verifyOperands = .ok () := rfl
  have hnodup : [(1 : Label)].Nodup := List.nodup_singleton _
  have hall := successors_split_iff hok hnodup fallingThrough_split
  have hcopy := hall.1 0 1 2 rfl rfl
  exact ⟨hok, hnodup, fallingThrough_split, hcopy.mpr (.inl ⟨_, _, rfl, rfl⟩)⟩

/-- The first block falls through to the node as it did before, and not to its copy. -/
theorem fallingThrough_not_redirected :
    fallingThrough.verify = .ok () ∧
      fallingThrough.split [0] [1] = .ok (.ok [2], fallingThroughSplit) ∧
      fallingThrough.successors 0 = .ok [1] ∧ redirect [(1, 2)] 1 = 2 ∧
      fallingThroughSplit.successors 0 = .ok [1] := by
  refine ⟨?_, fallingThrough_split, rfl, rfl, rfl⟩
  cbv

end MethodFlow.Program
