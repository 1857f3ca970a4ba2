import MethodFlow.Proofs.DisjointSet.Calls
/-!
# The numbers of classes

Packing sees the roots of the elements, which depend on the order of the calls.  What it gives
depends only on which elements have been joined:

* `InOrder.exists_le_succ`: numbers that are given in order never skip one;
* `connected_pack_iff`: an element that packing adds is alone;
* `pack_canonical`: packing numbers the classes of the joined pairs as they appear, in the same
  way for any two series of calls that join the same elements.
-/

namespace MethodFlow.DisjointSet

open Relation

variable {s t : DisjointSet} {start : Option Nat} {calls : List Call} {count i id x y : Nat}

/-! ## Numbers in order -/

namespace InOrder

variable {ids : Array Nat} (h : InOrder ids)

include h

theorem eq_zero (hid : ids[0]? = some id) : id = 0 := by
  by_contra hne
  obtain ⟨j, hj, -⟩ := h 0 id hid 0 (Nat.pos_of_ne_zero hne)
  exact Nat.not_lt_zero j hj

/-- A number is at most one more than some number before it. -/
theorem exists_le_succ (hi : 0 < i) (hid : ids[i]? = some id) :
    ∃ j < i, ∃ earlier, ids[j]? = some earlier ∧ id ≤ earlier + 1 := by
  cases id with
  | zero =>
    have hsize : i < ids.size := (Array.getElem?_eq_some_iff.mp hid).1
    exact ⟨0, hi, _, Array.getElem?_eq_getElem (hi.trans hsize), Nat.zero_le _⟩
  | succ k =>
    obtain ⟨j, hj, hk⟩ := h i (k + 1) hid k (Nat.lt_succ_self k)
    exact ⟨j, hj, k, hk, Nat.le_refl _⟩

end InOrder

/-! ## Elements that are added -/

/-- An element beyond the table is alone. -/
theorem Forest.root_eq_iff_of_size_le (hs : s.Forest) (hx : s.size ≤ x) :
    s.root x = s.root y ↔ y = x := by
  have hroot : ∀ {z}, s.size ≤ z → s.root z = z :=
    fun hz => hs.root_of_parentOf_eq (parentOf_of_size_le hz)
  rw [hroot hx]
  constructor
  · intro h
    rcases Nat.lt_or_ge y s.size with hy | hy
    · have := hs.root_lt hy
      omega
    · rw [h, hroot hy]
  · rintro rfl
    exact (hroot hx).symm

theorem Forest.pack (hs : s.Forest) (count : Nat) : (s.pack count).2.Forest :=
  (findAll_spec (hs.ensure count) count).2.1

theorem size_pack_snd (hs : s.Forest) (count : Nat) : (s.pack count).2.size = max s.size count :=
  size_result hs (.pack count)

theorem root_pack (hs : s.Forest) (count y : Nat) : (s.pack count).2.root y = s.root y :=
  root_result hs (c := .pack count) (fun _ _ => Call.noConfusion) y

theorem connected_pack_iff (hs : s.Forest) (count : Nat) (hx : s.size ≤ x) :
    ((s.pack count).2.connected x y).1 = true ↔ y = x := by
  rw [connected_fst (hs.pack count), beq_iff_eq, root_pack hs, root_pack hs]
  exact hs.root_eq_iff_of_size_le hx

/-! ## Canonical numbers -/

/-- Numbers for the first elements, one for each class of the joined pairs, given as the classes
appear. -/
structure Numbered (calls : List Call) (count : Nat) (ids : Array Nat) : Prop where
  size_eq : ids.size = count
  eq_iff : ∀ i j, i < count → j < count → (ids[i]? = ids[j]? ↔ joined calls i j)
  first_eq : 0 < count → ids[0]? = some 0
  le_succ : ∀ i id, 0 < i → ids[i]? = some id →
    ∃ j < i, ∃ earlier, ids[j]? = some earlier ∧ id ≤ earlier + 1
  inOrder : InOrder ids

theorem Stands.numbered_pack (h : Stands calls s) (count : Nat) :
    Numbered calls count (s.pack count).1 where
  size_eq := size_pack h.forest count
  eq_iff i j hi hj := by
    rw [getElem?_pack_eq_iff h.forest hi hj]
    exact h.root_eq_iff i j
  first_eq hcount := by
    have hfirst := Array.getElem?_eq_getElem ((size_pack h.forest count).symm ▸ hcount)
    rw [hfirst, (inOrder_pack h.forest count).eq_zero hfirst]
  le_succ i id hi hid := (inOrder_pack h.forest count).exists_le_succ hi hid
  inOrder := inOrder_pack h.forest count

/-- The calls, begun with no elements or with the first ones, leave the set. -/
def Leaves (start : Option Nat) (calls : List Call) (s : DisjointSet) : Prop :=
  (∀ c ∈ calls, c.Fits) ∧
    ∃ answers, (calls.mapM Call.make).Gives (start.elim empty ofSize) answers s

theorem Leaves.stands (h : Leaves start calls s) : Stands calls s := by
  obtain ⟨hfits, answers, hgives⟩ := h
  have hstart : start.elim empty ofSize = ofSize (start.getD 0) := by cases start <;> rfl
  obtain ⟨answers', t, hgives', ht, -⟩ := (Stands.ofSize (start.getD 0)).exists_run hfits
  rw [hstart] at hgives
  cases hgives.symm.trans hgives'
  exact ht

/-- Packing numbers the classes as they appear and adds elements that are alone.  Fewer elements
get the same numbers, and so they do after other calls that join the same elements. -/
theorem pack_canonical (h : Leaves start calls s) (hcount : count < wordLimit) :
    ∃ ids t, (Session.pack count).Gives s ids t ∧
      Numbered calls count ids ∧
      t.size = max s.size count ∧
      (∀ x y, s.size ≤ x → x < t.size → ((t.connected x y).1 = true ↔ y = x)) ∧
      (∀ m ≤ count, ∃ first u, (Session.pack m).Gives s first u ∧ first.toList <+: ids.toList) ∧
      ∀ start' calls' s', Leaves start' calls' s' →
        (∀ i j, i < count → j < count → (joined calls i j ↔ joined calls' i j)) →
        ∃ u, (Session.pack count).Gives s' ids u := by
  have hs := h.stands
  refine ⟨_, _, Session.gives_pack hs.forest hcount, hs.numbered_pack count,
    size_pack_snd hs.forest count, fun x y hx _ => connected_pack_iff hs.forest count hx,
    fun m hm => ?_, fun start' calls' s' h' hsame => ?_⟩
  · have hfits : m < wordLimit := hm.trans_lt hcount
    exact ⟨_, _, Session.gives_pack hs.forest hfits, pack_prefix hs.forest hm⟩
  · have hs' := h'.stands
    have hids : (s.pack count).1 = (s'.pack count).1 := by
      apply pack_congr hs.forest hs'.forest
      intro i j hi hj
      rw [hs.root_eq_iff, hs'.root_eq_iff]
      exact hsame i j hi hj
    rw [hids]
    exact ⟨_, Session.gives_pack hs'.forest hcount⟩

/-- Two pairs of elements, of which one lies beyond the first three. -/
def pairing : List Call := [.union 2 0, .union 4 1]

def paired : DisjointSet := ⟨#[2, 4, 2, 3, 4], #[0, 0, 1, 0, 1], 3⟩

theorem paired_packed :
    Leaves (some 3) pairing paired ∧ 6 < wordLimit ∧
      (∃ t, (Session.pack 6).Gives paired #[0, 1, 0, 2, 1, 3] t ∧ t.size = 6) ∧
      joined pairing 1 4 ∧ ¬ joined pairing 3 5 := by
  have hfits : ∀ c ∈ pairing, c.Fits := by simp [pairing, Call.Fits, wordLimit]
  have hleaves : Leaves (some 3) pairing paired := ⟨hfits, [.element 2, .element 4], rfl⟩
  have hword : 6 < wordLimit := by decide
  obtain ⟨ids, t, hgives, hnumbered, hsize, -⟩ := pack_canonical hleaves hword
  have hids : ids = #[0, 1, 0, 2, 1, 3] := by
    have hpack : (paired.pack 6).1 = #[0, 1, 0, 2, 1, 3] := by cbv
    have hanswer := hgives.symm.trans (Session.gives_pack hleaves.stands.forest hword)
    cases hanswer
    exact hpack
  subst hids
  refine ⟨hleaves, hword, ⟨t, hgives, hsize⟩, ?_, ?_⟩
  · exact (hnumbered.eq_iff 1 4 (by decide) (by decide)).mp rfl
  · rw [← hnumbered.eq_iff 3 5 (by decide) (by decide)]
    decide

end MethodFlow.DisjointSet
