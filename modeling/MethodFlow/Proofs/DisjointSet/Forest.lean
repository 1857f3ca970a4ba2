import MethodFlow.Graph.DisjointSet
import Mathlib.Data.Finset.Card
import Mathlib.Data.Nat.Find
import Mathlib.Logic.Function.Iterate
/-!
# The forest below a disjoint set

Parent pointers form a forest: they stay in the table and end at a root.  Every operation
keeps the forest, and the root of an element is all that the others see of it:

* `root_eq_of_leads`: as many steps as there are elements are enough to find a root;
* `root_find`: looking for a root moves no element to another class;
* `root_union`: a union moves two classes, as wholes, to one of their roots.
-/

namespace MethodFlow.DisjointSet

variable {s t : DisjointSet} {x y r q a b : Nat}

/-- Following the parents of an element ends at a root. -/
inductive Leads (s : DisjointSet) : Nat → Nat → Prop where
  | root {x : Nat} (hx : s.parentOf x = x) : Leads s x x
  | step {x r : Nat} (hx : s.parentOf x ≠ x) (hr : Leads s (s.parentOf x) r) : Leads s x r

/-- The parents stay in the table, and none of their paths runs in a circle. -/
structure Forest (s : DisjointSet) : Prop where
  parent_lt : ∀ x, x < s.size → s.parentOf x < s.size
  leads : ∀ x, ∃ r, s.Leads x r

theorem parentOf_of_size_le (hx : s.size ≤ x) : s.parentOf x = x := by
  simp [parentOf, Array.getElem?_eq_none (show s.parent.size ≤ x from hx)]

theorem Leads.parentOf_eq (h : s.Leads x r) : s.parentOf r = r := by
  induction h with
  | root hx => exact hx
  | step _ _ ih => exact ih

theorem Leads.unique (h : s.Leads x r) (h' : s.Leads x q) : r = q := by
  induction h with
  | root hx =>
    cases h' with
    | root => rfl
    | step hx' => exact absurd hx hx'
  | step hx _ ih =>
    cases h' with
    | root hx' => exact absurd hx' hx
    | step _ hq => exact ih hq

theorem Leads.of_parentOf_eq (ht : ∀ y, t.parentOf y = s.parentOf y) (h : s.Leads x r) :
    t.Leads x r := by
  induction h with
  | root hx => exact .root (by rw [ht, hx])
  | step hx _ ih => exact .step (by rwa [ht]) (by rwa [ht])

/-! ## Enough steps

A path that has not reached its root meets no element twice, so it is shorter than the table. -/

theorem climb_eq_iterate (n x : Nat) : s.climb n x = s.parentOf^[n] x := by
  induction n generalizing x with
  | zero => rfl
  | succ n ih =>
    rw [Function.iterate_succ_apply, climb]
    split
    · next hx => rw [hx, Function.iterate_fixed hx]
    · exact ih _

theorem Leads.exists_iterate (h : s.Leads x r) : ∃ n, s.parentOf^[n] x = r := by
  induction h with
  | root => exact ⟨0, rfl⟩
  | step _ _ ih =>
    obtain ⟨n, hn⟩ := ih
    exact ⟨n + 1, hn⟩

theorem iterate_parentOf_lt (hs : ∀ x, x < s.size → s.parentOf x < s.size) (hx : x < s.size)
    (n : Nat) : s.parentOf^[n] x < s.size := by
  induction n with
  | zero => exact hx
  | succ n ih =>
    rw [Function.iterate_succ_apply']
    exact hs _ ih

/-- The first root on a path comes before the path is as long as the table. -/
theorem exists_lt_size_of_leads (hs : ∀ x, x < s.size → s.parentOf x < s.size)
    (hx : x < s.size) (h : s.Leads x r) : ∃ n < s.size, s.parentOf^[n] x = r := by
  let f := s.parentOf
  have hex : ∃ n, f (f^[n] x) = f^[n] x := by
    obtain ⟨n, hn⟩ := h.exists_iterate
    exact ⟨n, by rw [show f^[n] x = r from hn]; exact h.parentOf_eq⟩
  let k := Nat.find hex
  have hk : f (f^[k] x) = f^[k] x := Nat.find_spec hex
  have hstay : ∀ n, f^[n + k] x = f^[k] x := fun n => by
    rw [Function.iterate_add_apply, Function.iterate_fixed hk]
  have hinj : Set.InjOn (fun n => f^[n] x) (Finset.range (k + 1)) := by
    have hne : ∀ i j, i < j → j ≤ k → f^[i] x ≠ f^[j] x := by
      intro i j hij hjk heq
      have hshift : f^[k - j + i] x = f^[k] x := by
        rw [Function.iterate_add_apply, heq, ← Function.iterate_add_apply]
        congr 2
        omega
      exact Nat.find_min hex (show k - j + i < k by omega) (by rw [hshift, hk])
    intro i hi j hj heq
    simp only [Finset.coe_range, Set.mem_Iio] at hi hj
    rcases Nat.lt_trichotomy i j with hij | hij | hij
    · exact absurd heq (hne i j hij (by omega))
    · exact hij
    · exact absurd heq.symm (hne j i hij (by omega))
  have hcard : (Finset.range (k + 1)).card ≤ (Finset.range s.size).card :=
    Finset.card_le_card_of_injOn _
      (fun n _ => Finset.mem_coe.mpr (Finset.mem_range.mpr (iterate_parentOf_lt hs hx n))) hinj
  rw [Finset.card_range, Finset.card_range] at hcard
  obtain ⟨n, hn⟩ := h.exists_iterate
  have hroot : f r = r := h.parentOf_eq
  refine ⟨k, hcard, ?_⟩
  calc f^[k] x = f^[n + k] x := (hstay n).symm
    _ = f^[k] (f^[n] x) := by rw [Nat.add_comm, Function.iterate_add_apply]
    _ = r := by rw [show f^[n] x = r from hn, Function.iterate_fixed hroot]

theorem root_eq_of_leads (hs : ∀ x, x < s.size → s.parentOf x < s.size) (h : s.Leads x r) :
    s.root x = r := by
  rw [root, climb_eq_iterate]
  by_cases hx : x < s.size
  · obtain ⟨n, hn, hr⟩ := exists_lt_size_of_leads hs hx h
    have hsplit : s.size = (s.size - n) + n := by omega
    rw [hsplit, Function.iterate_add_apply, hr, Function.iterate_fixed h.parentOf_eq]
  · have hfix : s.parentOf x = x := parentOf_of_size_le (by omega)
    rw [Function.iterate_fixed hfix]
    exact (Leads.root hfix).unique h

namespace Forest

theorem root_eq_iff (hs : s.Forest) : s.root x = r ↔ s.Leads x r := by
  obtain ⟨q, hq⟩ := hs.leads x
  have hroot := root_eq_of_leads hs.parent_lt hq
  constructor
  · rintro rfl
    rwa [hroot]
  · intro h
    rw [hroot]
    exact hq.unique h

theorem leads_root (hs : s.Forest) (x : Nat) : s.Leads x (s.root x) := hs.root_eq_iff.mp rfl

theorem parentOf_root (hs : s.Forest) (x : Nat) : s.parentOf (s.root x) = s.root x :=
  (hs.leads_root x).parentOf_eq

theorem root_of_parentOf_eq (hs : s.Forest) (hx : s.parentOf x = x) : s.root x = x :=
  hs.root_eq_iff.mpr (.root hx)

theorem root_lt (hs : s.Forest) (hx : x < s.size) : s.root x < s.size := by
  rw [root, climb_eq_iterate]
  exact iterate_parentOf_lt hs.parent_lt hx _

end Forest

/-! ## Tables that grow -/

theorem size_ensure (s : DisjointSet) (n : Nat) : (s.ensure n).size = max s.size n := by
  unfold ensure
  dsimp only
  split
  · omega
  · simp only [size, Array.size_append, Array.size_range']
    show s.size + (n - s.size) = max s.size n
    omega

theorem parentOf_ensure (s : DisjointSet) (n x : Nat) :
    (s.ensure n).parentOf x = s.parentOf x := by
  unfold ensure
  dsimp only
  split
  · rfl
  · simp only [parentOf, Array.getElem?_append]
    split
    · rfl
    · next hx =>
      rw [Array.getElem?_eq_none (Nat.le_of_not_lt hx)]
      simp only [Array.getElem?_range', size]
      split
      · simp only [Option.getD_some, Option.getD_none]
        omega
      · rfl

theorem Forest.of_parentOf_eq (hs : s.Forest) (hsize : s.size ≤ t.size)
    (ht : ∀ y, t.parentOf y = s.parentOf y) : t.Forest where
  parent_lt x hx := by
    rw [ht]
    by_cases hlt : x < s.size
    · exact (hs.parent_lt x hlt).trans_le hsize
    · rwa [parentOf_of_size_le (by omega)]
  leads x := by
    obtain ⟨r, hr⟩ := hs.leads x
    exact ⟨r, hr.of_parentOf_eq ht⟩

theorem Forest.ensure (hs : s.Forest) (n : Nat) : (s.ensure n).Forest :=
  hs.of_parentOf_eq (by rw [size_ensure]; omega) (parentOf_ensure s n)

theorem Forest.root_ensure (hs : s.Forest) (n x : Nat) : (s.ensure n).root x = s.root x :=
  (hs.ensure n).root_eq_iff.mpr ((hs.leads_root x).of_parentOf_eq (parentOf_ensure s n))

theorem parentOf_ofSize (n x : Nat) : (ofSize n).parentOf x = x := by
  simp only [parentOf, ofSize, Array.getElem?_range]
  split <;> rfl

theorem forest_ofSize (n : Nat) : (ofSize n).Forest where
  parent_lt x hx := by rwa [parentOf_ofSize]
  leads x := ⟨x, .root (parentOf_ofSize n x)⟩

theorem root_ofSize (n x : Nat) : (ofSize n).root x = x :=
  (forest_ofSize n).root_of_parentOf_eq (parentOf_ofSize n x)

/-! ## One pointer moved -/

def repoint (s : DisjointSet) (x r : Nat) : DisjointSet :=
  { s with parent := s.parent.setIfInBounds x r }

@[simp] theorem size_repoint (s : DisjointSet) (x r : Nat) : (s.repoint x r).size = s.size := by
  simp [repoint, size]

theorem parentOf_repoint (hx : x < s.size) (y : Nat) :
    (s.repoint x r).parentOf y = if y = x then r else s.parentOf y := by
  simp only [parentOf, repoint, Array.getElem?_setIfInBounds]
  by_cases hy : x = y
  · subst hy
    simp only [↓reduceIte, if_pos (show x < s.parent.size from hx), Option.getD_some]
  · rw [if_neg hy, if_neg (Ne.symm hy)]

theorem parent_lt_repoint (hs : ∀ y, y < s.size → s.parentOf y < s.size) (hx : x < s.size)
    (hr : r < s.size) :
    ∀ y, y < (s.repoint x r).size → (s.repoint x r).parentOf y < (s.repoint x r).size := by
  intro y hy
  rw [size_repoint] at hy ⊢
  rw [parentOf_repoint hx]
  split
  · exact hr
  · exact hs y hy

/-- An element that points at its root is on a shorter path. -/
theorem Leads.repoint (hx : x < s.size) (hxr : s.Leads x r) (hne : x ≠ r) (h : s.Leads y q) :
    (s.repoint x r).Leads y q := by
  have hroot : (s.repoint x r).parentOf r = r := by
    rw [parentOf_repoint hx, if_neg (Ne.symm hne), hxr.parentOf_eq]
  induction h with
  | @root y hy =>
    have hyx : y ≠ x := fun heq => hne (hxr.unique (.root (heq ▸ hy))).symm
    exact .root (by rw [parentOf_repoint hx, if_neg hyx, hy])
  | @step y q hy hq ih =>
    by_cases hyx : y = x
    · subst hyx
      have hqr : q = r := (Leads.step hy hq).unique hxr
      subst hqr
      exact .step (by rw [parentOf_repoint hx, if_pos rfl]; exact Ne.symm hne)
        (by rw [parentOf_repoint hx, if_pos rfl]; exact .root hroot)
    · exact .step (by rwa [parentOf_repoint hx, if_neg hyx])
        (by rwa [parentOf_repoint hx, if_neg hyx])

/-- A root that points at another root takes its class along. -/
theorem Leads.repoint_root (ha : a < s.size) (hra : s.parentOf a = a) (hrb : s.parentOf b = b)
    (hne : a ≠ b) (h : s.Leads y q) : (s.repoint a b).Leads y (if q = a then b else q) := by
  have hroot : (s.repoint a b).Leads b b :=
    .root (by rw [parentOf_repoint ha, if_neg (Ne.symm hne), hrb])
  induction h with
  | @root y hy =>
    split
    · next heq =>
      subst heq
      exact .step (by rw [parentOf_repoint ha, if_pos rfl]; exact Ne.symm hne)
        (by rwa [parentOf_repoint ha, if_pos rfl])
    · next hya => exact .root (by rw [parentOf_repoint ha, if_neg hya, hy])
  | @step y q hy hq ih =>
    have hya : y ≠ a := fun heq => hy (heq ▸ hra)
    exact .step (by rwa [parentOf_repoint ha, if_neg hya])
      (by rwa [parentOf_repoint ha, if_neg hya])

/-! ## Finding -/

theorem compress_succ (s : DisjointSet) (r n x : Nat) : s.compress r (n + 1) x =
    if s.parentOf x = r then s else (s.repoint x r).compress r n (s.parentOf x) := rfl

theorem lt_size_of_parentOf_ne (hx : s.parentOf x ≠ x) : x < s.size := by
  by_contra hlt
  exact hx (parentOf_of_size_le (by omega))

/-- Pointing an element at its root keeps the forest and every root. -/
theorem Forest.repoint (hs : s.Forest) (h : s.Leads x r) (hne : x ≠ r) :
    (s.repoint x r).Forest ∧ ∀ y, (s.repoint x r).root y = s.root y := by
  have hx : s.parentOf x ≠ x := fun hroot => hne ((Leads.root hroot).unique h)
  have hlt : x < s.size := lt_size_of_parentOf_ne hx
  have hrlt : r < s.size := by
    rw [← hs.root_eq_iff.mpr h]
    exact hs.root_lt hlt
  have hleads : ∀ y, (s.repoint x r).Leads y (s.root y) :=
    fun y => .repoint hlt h hne (hs.leads_root y)
  have hforest : (s.repoint x r).Forest :=
    ⟨parent_lt_repoint hs.parent_lt hlt hrlt, fun y => ⟨_, hleads y⟩⟩
  exact ⟨hforest, fun y => hforest.root_eq_iff.mpr (hleads y)⟩

/-- Compressing a path keeps the forest, its size and every root. -/
theorem Forest.compress (hs : s.Forest) (n : Nat) (h : s.Leads x r) :
    (s.compress r n x).Forest ∧ (s.compress r n x).size = s.size ∧
      ∀ y, (s.compress r n x).root y = s.root y := by
  induction n generalizing s x with
  | zero => exact ⟨hs, rfl, fun _ => rfl⟩
  | succ n ih =>
    rw [compress_succ]
    split
    · exact ⟨hs, rfl, fun _ => rfl⟩
    · next hnext =>
      cases h with
      | root hx => exact absurd hx hnext
      | step hx hr =>
        have hleads : s.Leads x r := .step hx hr
        have hne : x ≠ r := fun heq => hx (by rw [heq]; exact hr.parentOf_eq)
        obtain ⟨hrepoint, hkept⟩ := hs.repoint hleads hne
        obtain ⟨hforest, hsize, hroot⟩ :=
          ih hrepoint (.repoint (lt_size_of_parentOf_ne hx) hleads hne hr)
        refine ⟨hforest, by rw [hsize, size_repoint], fun y => ?_⟩
        rw [hroot, hkept]

theorem Forest.find_spec (hs : s.Forest) (x : Nat) :
    (s.find x).2.Forest ∧ (s.find x).2.size = (s.ensure (x + 1)).size ∧
      ∀ y, (s.find x).2.root y = (s.ensure (x + 1)).root y :=
  (hs.ensure (x + 1)).compress _ ((hs.ensure (x + 1)).leads_root x)

theorem Forest.find (hs : s.Forest) (x : Nat) : (s.find x).2.Forest := (hs.find_spec x).1

theorem size_find (hs : s.Forest) (x : Nat) : (s.find x).2.size = max s.size (x + 1) := by
  rw [(hs.find_spec x).2.1, size_ensure]

theorem root_find (hs : s.Forest) (x y : Nat) : (s.find x).2.root y = s.root y := by
  rw [(hs.find_spec x).2.2, hs.root_ensure]

theorem find_fst (hs : s.Forest) (x : Nat) : (s.find x).1 = s.root x := hs.root_ensure _ x

/-! ## Joining -/

theorem link_cases (s : DisjointSet) (a b : Nat) :
    (a = b ∧ s.link a b = (a, s)) ∨
    (a ≠ b ∧ (s.link a b).1 = b ∧ (s.link a b).2.parent = (s.repoint a b).parent) ∨
    (a ≠ b ∧ (s.link a b).1 = a ∧ (s.link a b).2.parent = (s.repoint b a).parent) := by
  by_cases hab : a = b
  · exact .inl ⟨hab, by simp [link, hab]⟩
  · refine .inr ?_
    simp only [link, if_neg hab, repoint]
    split
    · exact .inl ⟨hab, rfl, rfl⟩
    · split
      · exact .inr ⟨hab, rfl, rfl⟩
      · exact .inr ⟨hab, rfl, rfl⟩

theorem parentOf_congr (h : t.parent = s.parent) (x : Nat) : t.parentOf x = s.parentOf x := by
  simp [parentOf, h]

theorem size_congr (h : t.parent = s.parent) : t.size = s.size := by
  simp [size, h]

/-- A root made to point at another root: a forest in which one class has moved. -/
theorem Forest.move (hs : s.Forest) (ha : a < s.size) (hb : b < s.size)
    (hra : s.parentOf a = a) (hrb : s.parentOf b = b) (hne : a ≠ b)
    (ht : t.parent = (s.repoint a b).parent) :
    t.Forest ∧ t.size = s.size ∧
      ∀ y, t.root y = if s.root y = a ∨ s.root y = b then b else s.root y := by
  have hleads : ∀ y, t.Leads y (if s.root y = a then b else s.root y) := fun y =>
    ((hs.leads_root y).repoint_root ha hra hrb hne).of_parentOf_eq (parentOf_congr ht)
  have hforest : t.Forest := by
    refine ⟨fun y hy => ?_, fun y => ⟨_, hleads y⟩⟩
    rw [size_congr ht] at hy ⊢
    rw [parentOf_congr ht]
    exact parent_lt_repoint hs.parent_lt ha hb y hy
  refine ⟨hforest, by rw [size_congr ht, size_repoint], fun y => ?_⟩
  rw [hforest.root_eq_iff.mpr (hleads y)]
  by_cases hya : s.root y = a
  · rw [if_pos hya, if_pos (.inl hya)]
  · rw [if_neg hya]
    split
    · next h => exact h.resolve_left hya
    · rfl

/-- Joining two roots gives one of them, to which both classes move. -/
theorem Forest.link (hs : s.Forest) (ha : a < s.size) (hb : b < s.size)
    (hra : s.parentOf a = a) (hrb : s.parentOf b = b) :
    (s.link a b).2.Forest ∧ (s.link a b).2.size = s.size ∧
      ((s.link a b).1 = a ∨ (s.link a b).1 = b) ∧
      ∀ y, (s.link a b).2.root y =
        if s.root y = a ∨ s.root y = b then (s.link a b).1 else s.root y := by
  rcases link_cases s a b with ⟨hab, heq⟩ | ⟨hne, hfst, hparent⟩ | ⟨hne, hfst, hparent⟩
  · subst hab
    rw [heq]
    refine ⟨hs, rfl, .inl rfl, fun y => ?_⟩
    split
    · next h => exact h.elim id id
    · rfl
  · obtain ⟨hforest, hsize, hroot⟩ := hs.move ha hb hra hrb hne hparent
    rw [hfst]
    exact ⟨hforest, hsize, .inr rfl, hroot⟩
  · obtain ⟨hforest, hsize, hroot⟩ := hs.move hb ha hrb hra (Ne.symm hne) hparent
    rw [hfst]
    refine ⟨hforest, hsize, .inl rfl, fun y => ?_⟩
    simp only [hroot, or_comm]

def findBoth (s : DisjointSet) (a b : Nat) : DisjointSet := ((s.find a).2.find b).2

theorem Forest.findBoth (hs : s.Forest) (a b : Nat) : (s.findBoth a b).Forest := (hs.find a).find b

theorem size_findBoth (hs : s.Forest) (a b : Nat) :
    (s.findBoth a b).size = max s.size (max a b + 1) := by
  rw [DisjointSet.findBoth, size_find (hs.find a), size_find hs]
  omega

theorem root_findBoth (hs : s.Forest) (a b y : Nat) : (s.findBoth a b).root y = s.root y := by
  rw [DisjointSet.findBoth, root_find (hs.find a), root_find hs]

theorem find_find_fst (hs : s.Forest) (a b : Nat) : ((s.find a).2.find b).1 = s.root b := by
  rw [find_fst (hs.find a), root_find hs]

theorem root_lt_size_findBoth (hs : s.Forest) (hy : y ≤ max a b) :
    s.root y < (s.findBoth a b).size := by
  rw [← root_findBoth hs a b]
  apply (hs.findBoth a b).root_lt
  rw [size_findBoth hs]
  omega

theorem parentOf_findBoth_root (hs : s.Forest) (a b y : Nat) :
    (s.findBoth a b).parentOf (s.root y) = s.root y := by
  rw [← root_findBoth hs a b]
  exact (hs.findBoth a b).parentOf_root y

theorem union_eq_link (hs : s.Forest) (a b : Nat) :
    s.union a b = (s.findBoth a b).link (s.root a) (s.root b) := by
  have hunion : s.union a b = (s.findBoth a b).link (s.find a).1 ((s.find a).2.find b).1 := by
    unfold DisjointSet.union DisjointSet.findBoth
    generalize s.find a = found
    rfl
  rw [hunion, find_fst hs, find_find_fst hs]

/-- What a union does, in terms of roots. -/
theorem Forest.union_spec (hs : s.Forest) (a b : Nat) :
    (s.union a b).2.Forest ∧ (s.union a b).2.size = max s.size (max a b + 1) ∧
      ((s.union a b).1 = s.root a ∨ (s.union a b).1 = s.root b) ∧
      ∀ y, (s.union a b).2.root y =
        if s.root y = s.root a ∨ s.root y = s.root b then (s.union a b).1 else s.root y := by
  obtain ⟨h₁, h₂, h₃, h₄⟩ := (hs.findBoth a b).link
    (root_lt_size_findBoth hs (Nat.le_max_left a b))
    (root_lt_size_findBoth hs (Nat.le_max_right a b))
    (parentOf_findBoth_root hs a b a) (parentOf_findBoth_root hs a b b)
  rw [union_eq_link hs]
  refine ⟨h₁, by rw [h₂, size_findBoth hs], h₃, fun y => ?_⟩
  rw [h₄, root_findBoth hs]

theorem Forest.union (hs : s.Forest) (a b : Nat) : (s.union a b).2.Forest := (hs.union_spec a b).1

theorem size_union (hs : s.Forest) (a b : Nat) :
    (s.union a b).2.size = max s.size (max a b + 1) :=
  (hs.union_spec a b).2.1

theorem root_union (hs : s.Forest) (a b y : Nat) : (s.union a b).2.root y =
    if s.root y = s.root a ∨ s.root y = s.root b then (s.union a b).1 else s.root y :=
  (hs.union_spec a b).2.2.2 y

/-- Two elements are together after a union if they were, or if the union joins their classes. -/
theorem root_union_eq_iff (hs : s.Forest) (a b x y : Nat) :
    (s.union a b).2.root x = (s.union a b).2.root y ↔
      s.root x = s.root y ∨
        (s.root x = s.root a ∨ s.root x = s.root b) ∧
          (s.root y = s.root a ∨ s.root y = s.root b) := by
  have hfst := (hs.union_spec a b).2.2.1
  rw [root_union hs, root_union hs]
  by_cases hx : s.root x = s.root a ∨ s.root x = s.root b <;>
    by_cases hy : s.root y = s.root a ∨ s.root y = s.root b
  · simp [hx, hy]
  · simp only [if_pos hx, hy, and_false, or_false]
    constructor
    · intro h
      exact absurd (hfst.imp h.symm.trans h.symm.trans) hy
    · intro h
      exact absurd (h ▸ hx) hy
  · simp only [if_pos hy, hx, false_and, or_false]
    constructor
    · intro h
      exact absurd (hfst.imp h.trans h.trans) hx
    · intro h
      exact absurd (h ▸ hy) hx
  · simp [hx, hy]

end MethodFlow.DisjointSet
