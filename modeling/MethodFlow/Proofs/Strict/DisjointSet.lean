import MethodFlow.Proofs.DisjointSet.Classes
import MethodFlow.Proofs.Loops
import MethodFlow.Proofs.Strict.Table
import Mathlib.Order.Interval.Finset.Nat
/-!
# Strict disjoint sets

Finding, joining and numbering with strict tables, and with a class taken away only where there is
one:

* `find_eq_ok`: parents stay in the table, which has been extended to the element;
* `union_eq_ok`: there is a rank for every element, and a class for every root;
* `pack_eq_ok`: roots are numbered in a table with an entry for each element.
-/

namespace MethodFlow.Strict

open MethodFlow.DisjointSet

/-! ## Operations -/

def climb (s : DisjointSet) : (steps : Nat) → (x : Nat) → Except Violation Nat
  | 0, x => .ok x
  | n + 1, x => do
    let next ← read s.parent x
    if next = x then return x else climb s n next

def compress (s : DisjointSet) (root : Nat) : (steps : Nat) → (x : Nat) →
    Except Violation DisjointSet
  | 0, _ => .ok s
  | n + 1, x => do
    let next ← read s.parent x
    if next = root then return s
    else compress { s with parent := ← write s.parent x root } root n next

def find (s : DisjointSet) (x : Nat) : Except Violation (Nat × DisjointSet) := do
  let s := s.ensure (x + 1)
  let root ← climb s s.size x
  return (root, ← compress s root s.size x)

def link (s : DisjointSet) (a b : Nat) : Except Violation (Nat × DisjointSet) := do
  if a = b then return (a, s)
  else
    let rankA ← read s.rank a
    let rankB ← read s.rank b
    if s.classCount = 0 then throw .sizeOverflow
    else
      let classCount := s.classCount - 1
      if rankA < rankB then return (b, { s with parent := ← write s.parent a b, classCount })
      else if rankB < rankA then return (a, { s with parent := ← write s.parent b a, classCount })
      else return (a, {
        parent := ← write s.parent b a
        rank := ← write s.rank a (min (rankA + 1) rankCap)
        classCount })

def union (s : DisjointSet) (a b : Nat) : Except Violation (Nat × DisjointSet) := do
  let (rootA, s) ← find s a
  let (rootB, s) ← find s b
  link s rootA rootB

def assign (n : Numbering) (key : Nat) : Except Violation (Nat × Numbering) := do
  match ← read n.numberOf key with
  | some id => return (id, n)
  | none => return (n.next, ⟨← write n.numberOf key (some n.next), n.next + 1⟩)

def numberKeys (bound : Nat) (keys : Array Nat) : Except Violation (Array Nat) := do
  let done ← keys.toList.foldlM
    (fun done key => do
      let (id, numbering) ← assign done.2 key
      return (done.1.push id, numbering))
    ((#[] : Array Nat), Numbering.mk (.replicate bound none) 0)
  return done.1

def findAll (s : DisjointSet) (count : Nat) : Except Violation (Array Nat × DisjointSet) :=
  (List.range count).foldlM
    (fun done x => do
      let (root, s) ← find done.2 x
      return (done.1.push root, s))
    (#[], s)

def pack (s : DisjointSet) (count : Nat) : Except Violation (Array Nat × DisjointSet) := do
  let (roots, s) ← findAll (s.ensure count) count
  return (← numberKeys s.size roots, s)

/-! ## Finding -/

variable {s : DisjointSet} {x r a b : Nat}

theorem read_parent (hx : x < s.size) : read s.parent x = .ok (s.parentOf x) :=
  read_eq_ok_getD hx x

theorem climb_eq_ok (hs : ∀ y, y < s.size → s.parentOf y < s.size) (n : Nat) (hx : x < s.size) :
    climb s n x = .ok (s.climb n x) := by
  induction n generalizing x with
  | zero => rfl
  | succ n ih =>
    rw [climb, read_parent hx, DisjointSet.climb]
    show (if s.parentOf x = x then _ else _) = _
    split
    · rfl
    · exact ih (hs x hx)

theorem compress_eq_ok (hs : ∀ y, y < s.size → s.parentOf y < s.size) (hr : r < s.size) (n : Nat)
    (hx : x < s.size) : compress s r n x = .ok (s.compress r n x) := by
  induction n generalizing s x with
  | zero => rfl
  | succ n ih =>
    rw [compress, read_parent hx, compress_succ]
    show (if s.parentOf x = r then _ else _) = _
    split
    · rfl
    · rw [write_eq_ok hx]
      have hlt : s.parentOf x < (s.repoint x r).size := size_repoint s x r ▸ hs x hx
      exact ih (parent_lt_repoint hs hx hr) (size_repoint s x r ▸ hr) hlt

theorem find_eq_ok (hs : s.Forest) (x : Nat) : find s x = .ok (s.find x) := by
  have hgrown := hs.ensure (x + 1)
  have hx : x < (s.ensure (x + 1)).size := by
    rw [size_ensure]
    omega
  have hroot : (s.ensure (x + 1)).climb (s.ensure (x + 1)).size x < (s.ensure (x + 1)).size :=
    hgrown.root_lt hx
  unfold find
  dsimp only
  rw [climb_eq_ok hgrown.parent_lt _ hx, ok_bind, compress_eq_ok hgrown.parent_lt hroot _ hx,
    ok_bind]
  rfl

/-! ## Joining -/

def rootSet (s : DisjointSet) : Finset Nat := (Finset.range s.size).filter fun x => s.root x = x

theorem mem_rootSet : x ∈ rootSet s ↔ x < s.size ∧ s.root x = x := by
  rw [rootSet, Finset.mem_filter, Finset.mem_range]

/-- There is a rank for each element, and a class for each root. -/
structure Sound (s : DisjointSet) : Prop where
  forest : s.Forest
  size_rank : s.rank.size = s.size
  card_rootSet_le : (rootSet s).card ≤ s.classCount

theorem rank_compress (s : DisjointSet) (r n x : Nat) : (s.compress r n x).rank = s.rank := by
  induction n generalizing s x with
  | zero => rfl
  | succ n ih =>
    rw [compress_succ]
    split
    · rfl
    · exact ih _ _

theorem classCount_compress (s : DisjointSet) (r n x : Nat) :
    (s.compress r n x).classCount = s.classCount := by
  induction n generalizing s x with
  | zero => rfl
  | succ n ih =>
    rw [compress_succ]
    split
    · rfl
    · exact ih _ _

theorem rank_link (s : DisjointSet) (a b : Nat) : (s.link a b).2.rank.size = s.rank.size := by
  unfold DisjointSet.link
  split
  · rfl
  · split
    · rfl
    · split
      · rfl
      · exact Array.size_setIfInBounds

theorem classCount_link (hne : a ≠ b) : (s.link a b).2.classCount = s.classCount - 1 := by
  unfold DisjointSet.link
  rw [if_neg hne]
  split
  · rfl
  · split <;> rfl

theorem classCount_ensure (s : DisjointSet) (n : Nat) :
    (s.ensure n).classCount = s.classCount + (n - s.size) := by
  unfold DisjointSet.ensure
  dsimp only
  split
  · omega
  · rfl

theorem classCount_find (s : DisjointSet) (x : Nat) :
    (s.find x).2.classCount = s.classCount + (x + 1 - s.size) := by
  rw [← classCount_ensure]
  exact classCount_compress _ _ _ _

/-! ### Roots gained and lost -/

/-- Each element that is added has a class of its own. -/
theorem card_rootSet_ensure (hs : s.Forest) (n : Nat) :
    (rootSet (s.ensure n)).card = (rootSet s).card + (n - s.size) := by
  have hdisjoint : Disjoint (rootSet s) (Finset.Ico s.size (max s.size n)) := by
    rw [Finset.disjoint_left]
    intro x hx hx'
    have := (mem_rootSet.mp hx).1
    have := (Finset.mem_Ico.mp hx').1
    omega
  have hroots : rootSet (s.ensure n) = rootSet s ∪ Finset.Ico s.size (max s.size n) := by
    ext x
    rw [Finset.mem_union, mem_rootSet, mem_rootSet, Finset.mem_Ico, size_ensure, hs.root_ensure]
    by_cases hlt : x < s.size
    · simp only [hlt, true_and]
      omega
    · have hroot : s.root x = x := hs.root_of_parentOf_eq (parentOf_of_size_le (by omega))
      rw [hroot]
      omega
  rw [hroots, Finset.card_union_of_disjoint hdisjoint, Nat.card_Ico]
  omega

theorem card_rootSet_find (hs : s.Forest) (x : Nat) :
    (rootSet (s.find x).2).card = (rootSet s).card + (x + 1 - s.size) := by
  have hspec := hs.find_spec x
  have hroots : rootSet (s.find x).2 = rootSet (s.ensure (x + 1)) := by
    ext y
    rw [mem_rootSet, mem_rootSet, hspec.2.1, hspec.2.2]
  rw [hroots, card_rootSet_ensure hs]

/-- Joining different roots takes one of them away. -/
theorem exists_rootSet_link_eq (hs : s.Forest) (ha : a < s.size) (hb : b < s.size)
    (hra : s.parentOf a = a) (hrb : s.parentOf b = b) (hne : a ≠ b) :
    ∃ lost ∈ rootSet s, rootSet (s.link a b).2 = (rootSet s).erase lost := by
  obtain ⟨-, hsize, hfst, hroot⟩ := hs.link ha hb hra hrb
  have hmemA : a ∈ rootSet s := mem_rootSet.mpr ⟨ha, hs.root_of_parentOf_eq hra⟩
  have hmemB : b ∈ rootSet s := mem_rootSet.mpr ⟨hb, hs.root_of_parentOf_eq hrb⟩
  have hkept : (s.link a b).1 ∈ rootSet s := by
    rcases hfst with hfst | hfst <;> rwa [hfst]
  obtain ⟨lost, hlost, hother, hboth⟩ : ∃ lost ∈ rootSet s, (s.link a b).1 ≠ lost ∧
      ∀ r, r = a ∨ r = b ↔ r = lost ∨ r = (s.link a b).1 := by
    rcases hfst with hfst | hfst
    · exact ⟨b, hmemB, by rwa [hfst], fun r => by rw [hfst, or_comm]⟩
    · exact ⟨a, hmemA, by rw [hfst]; exact hne.symm, fun r => by rw [hfst]⟩
  refine ⟨lost, hlost, ?_⟩
  ext y
  rw [Finset.mem_erase, mem_rootSet, mem_rootSet, hsize, hroot]
  constructor
  · rintro ⟨hy, hyroot⟩
    split at hyroot
    · rw [← hyroot]
      exact ⟨hother, mem_rootSet.mp hkept⟩
    · next hout =>
      refine ⟨fun heq => hout ?_, hy, hyroot⟩
      rw [hyroot]
      exact (hboth y).mpr (.inl heq)
  · rintro ⟨hlost, hy, hyroot⟩
    rw [hyroot]
    refine ⟨hy, ?_⟩
    split
    · next hin => exact (((hboth y).mp hin).resolve_left hlost).symm
    · rfl

namespace Sound

theorem ofSize (n : Nat) : Sound (DisjointSet.ofSize n) where
  forest := forest_ofSize n
  size_rank := by simp [DisjointSet.ofSize, size]
  card_rootSet_le := by
    refine (Finset.card_filter_le _ _).trans_eq ?_
    rw [Finset.card_range]
    simp [DisjointSet.ofSize, size]

theorem ensure (h : Sound s) (n : Nat) : Sound (s.ensure n) where
  forest := h.forest.ensure n
  size_rank := by
    rw [size_ensure]
    unfold DisjointSet.ensure
    dsimp only
    split
    · rw [h.size_rank]
      omega
    · rw [Array.size_append, Array.size_replicate, h.size_rank]
      omega
  card_rootSet_le := by
    rw [card_rootSet_ensure h.forest, classCount_ensure]
    exact Nat.add_le_add_right h.card_rootSet_le _

theorem find (h : Sound s) (x : Nat) : Sound (s.find x).2 where
  forest := h.forest.find x
  size_rank := by
    rw [(h.forest.find_spec x).2.1, ← (h.ensure (x + 1)).size_rank]
    exact congrArg Array.size (rank_compress _ _ _ _)
  card_rootSet_le := by
    rw [card_rootSet_find h.forest, classCount_find]
    exact Nat.add_le_add_right h.card_rootSet_le _

theorem findBoth (h : Sound s) (a b : Nat) : Sound (s.findBoth a b) := (h.find a).find b

theorem link (h : Sound s) (ha : a < s.size) (hb : b < s.size) (hra : s.parentOf a = a)
    (hrb : s.parentOf b = b) : Sound (s.link a b).2 := by
  obtain ⟨hforest, hsize, -, -⟩ := h.forest.link ha hb hra hrb
  refine ⟨hforest, by rw [rank_link, h.size_rank, hsize], ?_⟩
  by_cases hne : a = b
  · have hsame : (s.link a b).2 = s := by
      unfold DisjointSet.link
      rw [if_pos hne]
    rw [hsame]
    exact h.card_rootSet_le
  · obtain ⟨lost, hlost, hroots⟩ := exists_rootSet_link_eq h.forest ha hb hra hrb hne
    rw [hroots, Finset.card_erase_of_mem hlost, classCount_link hne]
    exact Nat.sub_le_sub_right h.card_rootSet_le 1

theorem classCount_ne_zero (h : Sound s) (ha : a < s.size) (hra : s.parentOf a = a) :
    s.classCount ≠ 0 := by
  have hmem : a ∈ rootSet s := mem_rootSet.mpr ⟨ha, h.forest.root_of_parentOf_eq hra⟩
  have := Finset.card_pos.mpr ⟨a, hmem⟩
  have := h.card_rootSet_le
  omega

theorem link_eq_ok (h : Sound s) (ha : a < s.size) (hb : b < s.size) (hra : s.parentOf a = a) :
    Strict.link s a b = .ok (s.link a b) := by
  have hpos := h.classCount_ne_zero ha hra
  unfold Strict.link DisjointSet.link
  by_cases hne : a = b
  · rw [if_pos hne, if_pos hne]
    rfl
  · rw [if_neg hne, if_neg hne, read_eq_ok_getD (h.size_rank.symm ▸ ha) 0,
      read_eq_ok_getD (h.size_rank.symm ▸ hb) 0]
    simp only [bind, Except.bind, if_neg hpos, write_eq_ok ha, write_eq_ok hb,
      write_eq_ok (h.size_rank.symm ▸ ha)]
    show (if s.rankOf a < s.rankOf b then _ else if s.rankOf b < s.rankOf a then _ else _) = _
    split
    · rfl
    · split <;> rfl

/-- Both roots are in the table when they are joined. -/
theorem union_eq_ok (h : Sound s) (a b : Nat) :
    Strict.union s a b = .ok (s.union a b) ∧ Sound (s.union a b).2 := by
  have hboth := h.findBoth a b
  have hltA := root_lt_size_findBoth h.forest (Nat.le_max_left a b)
  have hltB := root_lt_size_findBoth h.forest (Nat.le_max_right a b)
  have hparentA := parentOf_findBoth_root h.forest a b a
  have hparentB := parentOf_findBoth_root h.forest a b b
  rw [union_eq_link h.forest]
  refine ⟨?_, hboth.link hltA hltB hparentA hparentB⟩
  unfold Strict.union
  rw [find_eq_ok h.forest, ok_bind]
  dsimp only
  rw [find_eq_ok (h.forest.find a), ok_bind, find_fst h.forest, find_find_fst h.forest]
  exact hboth.link_eq_ok hltA hltB hparentA

/-- A series of unions stays in its tables. -/
theorem unionAll_eq_ok {α : Type} (key : α → Nat) (h : Sound s) (pairs : List (α × α)) :
    pairs.foldlM (fun s pair => do return (← Strict.union s (key pair.1) (key pair.2)).2) s =
      .ok (s.unionAll key pairs) := by
  refine (foldlM_eq_ok (P := Sound) h fun pair _ s hs => ?_).1
  obtain ⟨hunion, hsound⟩ := hs.union_eq_ok (key pair.1) (key pair.2)
  rw [hunion]
  exact ⟨rfl, hsound⟩

end Sound

/-! ## Numbering -/

theorem assign_eq_ok {n : Numbering} {key : Nat} (h : key < n.numberOf.size) :
    assign n key = .ok (n.assign key) := by
  unfold assign Numbering.assign
  rw [read_eq_ok (Array.getElem?_eq_getElem h), Array.getElem?_eq_getElem h, write_eq_ok h]
  cases n.numberOf[key] <;> rfl

theorem size_assign (n : Numbering) (key : Nat) :
    (n.assign key).2.numberOf.size = n.numberOf.size := by
  unfold Numbering.assign
  split
  · rfl
  · exact Array.size_setIfInBounds

theorem numberKeys_eq_ok {bound : Nat} {keys : Array Nat} (h : ∀ key ∈ keys.toList, key < bound) :
    numberKeys bound keys = .ok (DisjointSet.numberKeys bound keys) := by
  have hloop : keys.toList.foldlM
      (fun (done : Array Nat × Numbering) key => do
        let (id, numbering) ← assign done.2 key
        return (done.1.push id, numbering))
      (#[], ⟨.replicate bound none, 0⟩) =
        .ok (keys.toList.foldl (fun (done : Array Nat × Numbering) key =>
          (done.1.push (done.2.assign key).1, (done.2.assign key).2))
          (#[], ⟨.replicate bound none, 0⟩)) := by
    refine (foldlM_eq_ok (P := fun done => done.2.numberOf.size = bound) Array.size_replicate ?_).1
    intro key hkey done hsize
    rw [assign_eq_ok (hsize ▸ h key hkey)]
    exact ⟨rfl, (size_assign _ _).trans hsize⟩
  unfold numberKeys DisjointSet.numberKeys
  rw [← Array.foldl_toList, hloop]
  rfl

theorem findAll_eq_ok (hs : s.Forest) (count : Nat) : findAll s count = .ok (s.findAll count) := by
  refine (foldlM_eq_ok (P := fun done => done.2.Forest) hs fun x _ done hdone => ?_).1
  rw [find_eq_ok hdone]
  exact ⟨rfl, hdone.find x⟩

theorem pack_eq_ok (hs : s.Forest) (count : Nat) : pack s count = .ok (s.pack count) := by
  obtain ⟨hroots, hforest, hsize, hroot⟩ := findAll_spec (hs.ensure count) count
  have hkeys : ∀ key ∈ ((s.ensure count).findAll count).1.toList,
      key < ((s.ensure count).findAll count).2.size := by
    intro key hkey
    rw [hroots] at hkey
    obtain ⟨x, hx, rfl⟩ := List.mem_map.mp hkey
    rw [← hroot]
    apply hforest.root_lt
    have := List.mem_range.mp hx
    omega
  unfold pack
  rw [findAll_eq_ok (hs.ensure count), ok_bind]
  dsimp only
  rw [numberKeys_eq_ok hkeys, ok_bind]
  rfl

end MethodFlow.Strict
