import MethodFlow.Proofs.Splitting.Renaming
/-!
# Copying and redirecting

The first two steps of a split, block by block:

* `copied_of_copyBlocks`: copies are appended in the order of the nodes, and nothing else changes;
* `getElem?_redirectBlocks`: the references of a block are turned once, however often it is named.
-/

namespace MethodFlow.Program

variable {p q : Program} {nodes copies labels : List Label} {pairs : List (Label × Label)}

theorem mem_zip_of_getElem? {i : Nat} {node copy : Label} (hnode : nodes[i]? = some node)
    (hcopy : copies[i]? = some copy) : (node, copy) ∈ nodes.zip copies :=
  List.mem_of_getElem? (List.getElem?_zip_eq_some.mpr ⟨hnode, hcopy⟩)

/-! ## Fresh labels -/

/-- The first labels that the program has no blocks for, in order. -/
def Fresh (p : Program) (count : Nat) (labels : List Label) : Prop :=
  labels.map (·.index) = List.range' p.blockCount count

namespace Fresh

variable {count : Nat} {l : Label} (h : p.Fresh count labels)

include h

theorem length_eq : labels.length = count := by
  have hlength := congrArg List.length h
  rwa [List.length_map, List.length_range'] at hlength

theorem nodup : labels.Nodup := by
  have hnodup : (labels.map (·.index)).Nodup := h ▸ List.nodup_range'
  exact hnodup.of_map _

theorem mem_iff : l ∈ labels ↔ p.blockCount ≤ l.index ∧ l.index < p.blockCount + count := by
  have hindex : l ∈ labels ↔ l.index ∈ labels.map (·.index) := by
    rw [List.mem_map]
    constructor
    · exact fun hl => ⟨l, hl, rfl⟩
    · rintro ⟨m, hm, heq⟩
      exact Label.ext heq ▸ hm
  rw [hindex, h, List.mem_range'_1]

theorem index_eq {i : Nat} (hl : labels[i]? = some l) : l.index = p.blockCount + i := by
  have hindex := congrArg (·[i]?) h
  simp only [List.getElem?_map, hl, Option.map_some] at hindex
  obtain ⟨hlt, heq⟩ := List.getElem?_eq_some_iff.mp hindex.symm
  rw [List.getElem_range', Nat.one_mul] at heq
  exact heq.symm

theorem exists_getElem? {i : Nat} (hi : i < count) : ∃ l, labels[i]? = some l :=
  ⟨_, List.getElem?_eq_getElem (h.length_eq ▸ hi)⟩

theorem exists_copy (hcount : nodes.length = count) {i : Nat} (hnode : nodes[i]? = some l) :
    ∃ copy, labels[i]? = some copy ∧ (l, copy) ∈ nodes.zip labels := by
  obtain ⟨copy, hcopy⟩ := h.exists_getElem? (hcount ▸ (List.getElem?_eq_some_iff.mp hnode).1)
  exact ⟨copy, hcopy, mem_zip_of_getElem? hnode hcopy⟩

theorem exists_pair (hcount : nodes.length = count) (hl : l ∈ nodes) :
    ∃ copy, (l, copy) ∈ nodes.zip labels := by
  obtain ⟨i, hi⟩ := List.mem_iff_getElem?.mp hl
  obtain ⟨copy, -, hpair⟩ := h.exists_copy hcount hi
  exact ⟨copy, hpair⟩

theorem apart (hnodes : ∀ node ∈ nodes, node.index < p.blockCount) :
    Apart (nodes.zip labels) p.blockCount := by
  intro pair hpair
  obtain ⟨hnode, hcopy⟩ := List.of_mem_zip hpair
  exact ⟨hnodes _ hnode, (h.mem_iff.mp hcopy).1⟩

end Fresh

/-! ## Copies -/

def copyOf (p : Program) (pair : Label × Label) : Block :=
  { (p.blocks[pair.1.index]?).getD (.empty pair.1) with label := pair.2 }

def append (p : Program) (b : Block) : Program := { p with blocks := p.blocks.push b }

@[simp] theorem blockCount_append (p : Program) (b : Block) :
    (p.append b).blockCount = p.blockCount + 1 :=
  Array.size_push _

theorem getElem?_append_of_lt (b : Block) {n : Nat} (hn : n < p.blockCount) :
    (p.append b).blocks[n]? = p.blocks[n]? := by
  unfold append
  rw [Array.getElem?_push_lt hn, Array.getElem?_eq_getElem hn]

structure Copied (p : Program) (nodes copies : List Label) (q : Program) : Prop where
  fresh : p.Fresh nodes.length copies
  infos_eq : q.infos = p.infos
  blocks_eq : q.blocks = p.blocks ++ ((nodes.zip copies).map p.copyOf).toArray

def copyBlock (state : List Label × Program) (node : Label) :
    Except Violation (List Label × Program) := do
  let (copy, q) ← state.2.createBlock
  let original := (state.2.blocks[node.index]?).getD (.empty node)
  return (state.1 ++ [copy], q.setBlock copy { original with label := copy })

theorem copyBlocks_eq_foldlM : p.copyBlocks nodes = nodes.foldlM copyBlock ([], p) := rfl

theorem copyBlock_eq_ok_iff {node : Label} {state : List Label × Program} :
    copyBlock (copies, p) node = .ok state ↔
      ∃ copy : Label, copy.index = p.blockCount ∧
        state = (copies ++ [copy], p.append (p.copyOf (node, copy))) := by
  have hset : ∀ (b c : Block), (p.blocks.push b).setIfInBounds p.blockCount c = p.blocks.push c := by
    intro b c
    apply Array.ext_getElem?
    intro n
    rw [Array.getElem?_setIfInBounds, Array.getElem?_push, Array.getElem?_push, Array.size_push]
    unfold blockCount
    split
    · next hn => simp [hn]
    · next hn => simp [Ne.symm hn]
  unfold copyBlock createBlock Label.ofIndex
  constructor
  · intro h
    split at h
    · next hlimit =>
      cases h
      exact ⟨⟨p.blockCount, hlimit⟩, rfl, by simp only [setBlock, hset]; rfl⟩
    · cases h
  · rintro ⟨copy, hcopy, rfl⟩
    have hlimit : p.blockCount < indexLimit := hcopy ▸ copy.index_lt
    have heq : (⟨p.blockCount, hlimit⟩ : Label) = copy := Label.ext hcopy.symm
    rw [dif_pos hlimit, heq]
    show Except.ok (copies ++ [copy], Program.setBlock _ copy _) = _
    simp only [setBlock, hcopy, hset]
    rfl

/-- Every copy is made of a block that was there before. -/
theorem copied_foldlM (hnodes : ∀ node ∈ nodes, node.index < p.blockCount) {earlier : List Label}
    (h : nodes.foldlM copyBlock (earlier, p) = .ok (copies, q)) :
    ∃ later, copies = earlier ++ later ∧ Copied p nodes later q := by
  induction nodes generalizing p earlier with
  | nil =>
    cases h
    exact ⟨[], (List.append_nil _).symm, rfl, rfl, by simp⟩
  | cons node rest ih =>
    rw [List.foldlM_cons] at h
    obtain ⟨state, hstate, h⟩ : ∃ state, copyBlock (earlier, p) node = .ok state ∧
        rest.foldlM copyBlock state = .ok (copies, q) := by
      cases hstate : copyBlock (earlier, p) node with
      | error e =>
        rw [hstate] at h
        cases h
      | ok state =>
        rw [hstate] at h
        exact ⟨state, rfl, h⟩
    obtain ⟨copy, hcopy, rfl⟩ := copyBlock_eq_ok_iff.mp hstate
    have hrest : ∀ node ∈ rest, node.index < p.blockCount :=
      fun node hnode => hnodes node (List.mem_cons_of_mem _ hnode)
    obtain ⟨later, rfl, hlater⟩ := ih
      (fun node hnode => (blockCount_append p _).symm ▸ Nat.lt_succ_of_lt (hrest node hnode)) h
    have hcopyOf : ∀ pair ∈ rest.zip later,
        (p.append (p.copyOf (node, copy))).copyOf pair = p.copyOf pair := by
      intro pair hpair
      unfold copyOf
      rw [getElem?_append_of_lt _ (hrest pair.1 (List.of_mem_zip hpair).1)]
    refine ⟨copy :: later, List.append_assoc _ _ _, ?_, hlater.infos_eq, ?_⟩
    · unfold Fresh
      rw [List.map_cons, hlater.fresh, blockCount_append, hcopy]
      rfl
    · rw [hlater.blocks_eq, List.map_congr_left hcopyOf]
      simp [append]

theorem copied_of_copyBlocks (hnodes : ∀ node ∈ nodes, node.index < p.blockCount)
    (h : p.copyBlocks nodes = .ok (copies, q)) : Copied p nodes copies q := by
  rw [copyBlocks_eq_foldlM] at h
  obtain ⟨later, rfl, hlater⟩ := copied_foldlM hnodes h
  exact hlater

/-- Copying works as long as there are labels for the copies. -/
theorem exists_copyBlocks (hroom : p.blockCount + nodes.length ≤ indexLimit) :
    ∃ copies q, p.copyBlocks nodes = .ok (copies, q) := by
  rw [copyBlocks_eq_foldlM]
  generalize ([] : List Label) = earlier
  induction nodes generalizing p earlier with
  | nil => exact ⟨earlier, p, rfl⟩
  | cons node rest ih =>
    rw [List.length_cons] at hroom
    have hstate := copyBlock_eq_ok_iff.mpr
      ⟨⟨p.blockCount, by omega⟩, rfl, Eq.refl (earlier ++ [_], p.append (p.copyOf (node, _)))⟩
    rw [List.foldlM_cons, hstate]
    exact ih (by rw [blockCount_append]; omega) _

/-- Without them it fails at the first copy that has no label. -/
theorem copyBlocks_eq_error_of_ne_nil (hnodes : nodes ≠ [])
    (hroom : indexLimit < p.blockCount + nodes.length) :
    p.copyBlocks nodes = .error .labelTooLarge := by
  rw [copyBlocks_eq_foldlM]
  generalize ([] : List Label) = earlier
  induction nodes generalizing p earlier with
  | nil => exact absurd rfl hnodes
  | cons node rest ih =>
    rw [List.length_cons] at hroom
    rw [List.foldlM_cons]
    by_cases hlimit : p.blockCount < indexLimit
    · have hstate := copyBlock_eq_ok_iff.mpr
        ⟨⟨p.blockCount, hlimit⟩, rfl, Eq.refl (earlier ++ [_], p.append (p.copyOf (node, _)))⟩
      have hrest : rest ≠ [] := by
        rintro rfl
        rw [List.length_nil] at hroom
        omega
      rw [hstate]
      exact ih hrest (by rw [blockCount_append]; omega) _
    · have hstate : copyBlock (earlier, p) node = .error .labelTooLarge := by
        unfold copyBlock createBlock Label.ofIndex
        rw [dif_neg hlimit]
        rfl
      rw [hstate]
      rfl

namespace Copied

variable (h : Copied p nodes copies q)

include h

theorem blockCount_eq : q.blockCount = p.blockCount + nodes.length := by
  simp [blockCount, h.blocks_eq, h.fresh.length_eq]

theorem getElem?_of_lt {n : Nat} (hn : n < p.blockCount) : q.blocks[n]? = p.blocks[n]? := by
  rw [h.blocks_eq, Array.getElem?_append_left hn]

theorem getElem?_copy {pair : Label × Label} (hpair : pair ∈ nodes.zip copies) :
    q.blocks[pair.2.index]? = some (p.copyOf pair) := by
  obtain ⟨i, hi⟩ := List.mem_iff_getElem?.mp hpair
  have hcopy : copies[i]? = some pair.2 := (List.getElem?_zip_eq_some.mp hi).2
  rw [h.blocks_eq, h.fresh.index_eq hcopy]
  unfold blockCount
  rw [Array.getElem?_append_right (Nat.le_add_right _ _), Nat.add_sub_cancel_left,
    List.getElem?_toArray, List.getElem?_map, hi, Option.map_some]

end Copied

/-! ## Redirecting -/

@[simp] theorem infos_redirectBlocks (p : Program) (pairs : List (Label × Label))
    (labels : List Label) : (p.redirectBlocks pairs labels).infos = p.infos := by
  unfold redirectBlocks
  induction labels generalizing p with
  | nil => rfl
  | cons l rest ih => exact ih _

@[simp] theorem blockCount_redirectBlocks (p : Program) (pairs : List (Label × Label))
    (labels : List Label) : (p.redirectBlocks pairs labels).blockCount = p.blockCount := by
  unfold redirectBlocks
  induction labels generalizing p with
  | nil => rfl
  | cons l rest ih => exact (ih _).trans Array.size_modify

theorem getElem?_redirectBlocks {bound : Nat} (hapart : Apart pairs bound) (n : Nat) :
    (p.redirectBlocks pairs labels).blocks[n]? =
      if n ∈ labels.map (·.index) then p.blocks[n]?.map (·.mapLabels (redirect pairs))
      else p.blocks[n]? := by
  unfold redirectBlocks
  induction labels generalizing p with
  | nil => rfl
  | cons l rest ih =>
    rw [List.foldl_cons, ih, Array.getElem?_modify, List.map_cons]
    by_cases hn : l.index = n
    · rw [if_pos hn, if_pos (List.mem_cons.mpr (.inl hn.symm)), Option.map_map, ite_eq_right_iff]
      intro _
      congr 1
      funext b
      rw [Function.comp_apply, Block.mapLabels_mapLabels, hapart.redirect_redirect]
    · rw [if_neg hn]
      simp only [List.mem_cons, Ne.symm hn, false_or]

end MethodFlow.Program
