import MethodFlow.Proofs.DisjointSet.Forest
import Mathlib.Data.List.Basic
import Mathlib.Logic.Relation
import Mathlib.Order.Bounds.Basic
/-!
# Classes after unions, and their numbers

The classes after a series of unions are those of the least equivalence that relates every
joined pair, and packing numbers them in the order in which they first appear:

* `root_unionAll_eq_iff`: two elements share a root exactly if the pairs connect them;
* `pack_fst`: the number of an element is the place of its root among the roots met so far;
* `inOrder_pack`, `pack_congr`: no number is skipped, and only the classes matter.
-/

namespace MethodFlow.DisjointSet

open Relation

variable {s : DisjointSet}

/-! ## Series of unions -/

section Unions

variable {α : Type} (key : α → Nat)

def unionAll (s : DisjointSet) (pairs : List (α × α)) : DisjointSet :=
  pairs.foldl (fun s pair => (s.union (key pair.1) (key pair.2)).2) s

theorem Forest.unionAll (hs : s.Forest) (pairs : List (α × α)) : (s.unionAll key pairs).Forest := by
  induction pairs generalizing s with
  | nil => exact hs
  | cons pair pairs ih => exact ih (hs.union _ _)

/-- Elements are together after a union exactly if the pair connects their classes. -/
theorem eqvGen_root_union (hs : s.Forest) {a b u v : α}
    (h : (s.union (key a) (key b)).2.root (key u) = (s.union (key a) (key b)).2.root (key v))
    {r : α → α → Prop} (hr : ∀ u v, s.root (key u) = s.root (key v) → EqvGen r u v)
    (hab : r a b) : EqvGen r u v := by
  rcases (root_union_eq_iff hs _ _ _ _).mp h with huv | ⟨hu, hv⟩
  · exact hr u v huv
  · have hjoin : EqvGen r a b := .rel a b hab
    have hua : EqvGen r u a := by
      rcases hu with hu | hu
      · exact hr u a hu
      · exact (hr u b hu).trans _ _ _ (hjoin.symm _ _)
    have hav : EqvGen r a v := by
      rcases hv with hv | hv
      · exact hr a v hv.symm
      · exact hjoin.trans _ _ _ (hr b v hv.symm)
    exact hua.trans _ _ _ hav

theorem root_unionAll_eq_iff (hs : s.Forest) (pairs : List (α × α)) (u v : α) :
    (s.unionAll key pairs).root (key u) = (s.unionAll key pairs).root (key v) ↔
      EqvGen (fun u v => s.root (key u) = s.root (key v) ∨ (u, v) ∈ pairs) u v := by
  induction pairs generalizing s u v with
  | nil =>
    simp only [List.not_mem_nil, or_false]
    exact (Equivalence.eqvGen_iff
      (r := fun u v => s.root (key u) = s.root (key v)) ⟨fun _ => rfl, Eq.symm, Eq.trans⟩).symm
  | cons pair pairs ih =>
    rw [unionAll, List.foldl_cons, ← unionAll, ih (hs.union _ _)]
    constructor
    · intro h
      induction h with
      | rel u v h =>
        rcases h with h | h
        · exact eqvGen_root_union key hs h (fun u v h => .rel u v (.inl h))
            (.inr List.mem_cons_self)
        · exact .rel u v (.inr (List.mem_cons_of_mem _ h))
      | refl u => exact .refl u
      | symm u v _ ih => exact .symm u v ih
      | trans u v w _ _ ih₁ ih₂ => exact .trans u v w ih₁ ih₂
    · refine EqvGen.mono (fun u v h => ?_) u v
      rw [root_union_eq_iff hs]
      rcases h with h | h
      · exact .inl (.inl h)
      · rcases List.mem_cons.mp h with heq | h
        · subst heq
          exact .inl (.inr ⟨.inl rfl, .inr rfl⟩)
        · exact .inr h

/-- An element that is alone and in no pair stays alone. -/
theorem eq_of_root_unionAll_eq (hs : s.Forest) {x : Nat} (halone : ∀ y, s.root y = s.root x → y = x)
    (hkey : ∀ u, key u ≠ x) (pairs : List (α × α)) {y : Nat}
    (h : (s.unionAll key pairs).root y = (s.unionAll key pairs).root x) : y = x := by
  induction pairs generalizing s with
  | nil => exact halone y h
  | cons pair pairs ih =>
    refine ih (hs.union _ _) (fun z hz => ?_) h
    rcases (root_union_eq_iff hs _ _ _ _).mp hz with hz | ⟨-, hx | hx⟩
    · exact halone z hz
    · exact absurd (halone _ hx.symm) (hkey _)
    · exact absurd (halone _ hx.symm) (hkey _)

/-- In the beginning every element is alone, so that the pairs alone connect. -/
theorem root_unionAll_ofSize_eq_iff (hkey : ∀ u v, key u = key v → u = v) (n : Nat)
    (pairs : List (α × α)) (u v : α) :
    ((ofSize n).unionAll key pairs).root (key u) = ((ofSize n).unionAll key pairs).root (key v) ↔
      EqvGen (fun u v => (u, v) ∈ pairs) u v := by
  rw [root_unionAll_eq_iff key (forest_ofSize n)]
  constructor
  · intro h
    induction h with
    | rel u v h =>
      rcases h with h | h
      · rw [root_ofSize, root_ofSize] at h
        rw [hkey u v h]
        exact .refl v
      · exact .rel u v h
    | refl u => exact .refl u
    | symm u v _ ih => exact .symm u v ih
    | trans u v w _ _ ih₁ ih₂ => exact .trans u v w ih₁ ih₂
  · exact EqvGen.mono (fun u v h => .inr h) u v

end Unions

/-! ## Keys in the order in which they appear -/

/-- The keys met so far, after one more. -/
def meet (seen : List Nat) (key : Nat) : List Nat := if key ∈ seen then seen else seen ++ [key]

/-- The different keys of a list, each where it first appears. -/
def appearing (keys : List Nat) : List Nat := keys.foldl meet []

theorem mem_meet {seen : List Nat} {key k : Nat} : k ∈ meet seen key ↔ k ∈ seen ∨ k = key := by
  unfold meet
  split
  · next h =>
    constructor
    · exact .inl
    · rintro (h' | rfl)
      · exact h'
      · exact h
  · rw [List.mem_append, List.mem_singleton]

theorem idxOf_meet {seen : List Nat} {k : Nat} (hk : k ∈ seen) (key : Nat) :
    (meet seen key).idxOf k = seen.idxOf k := by
  unfold meet
  split
  · rfl
  · exact List.idxOf_append_of_mem hk

theorem mem_foldl_meet {seen keys : List Nat} {k : Nat} :
    k ∈ keys.foldl meet seen ↔ k ∈ seen ∨ k ∈ keys := by
  induction keys generalizing seen with
  | nil => simp
  | cons key keys ih => rw [List.foldl_cons, ih, mem_meet, List.mem_cons, or_assoc]

theorem idxOf_foldl_meet {seen : List Nat} {k : Nat} (hk : k ∈ seen) (keys : List Nat) :
    (keys.foldl meet seen).idxOf k = seen.idxOf k := by
  induction keys generalizing seen with
  | nil => rfl
  | cons key keys ih => rw [List.foldl_cons, ih (mem_meet.mpr (.inl hk)), idxOf_meet hk]

theorem nodup_meet {seen : List Nat} (h : seen.Nodup) (key : Nat) : (meet seen key).Nodup := by
  unfold meet
  split
  · exact h
  · next hkey =>
    refine List.nodup_append.mpr ⟨h, by simp, fun k hk l hl => ?_⟩
    rw [List.mem_singleton.mp hl]
    exact fun heq => hkey (heq ▸ hk)

theorem nodup_foldl_meet {seen : List Nat} (h : seen.Nodup) (keys : List Nat) :
    (keys.foldl meet seen).Nodup := by
  induction keys generalizing seen with
  | nil => exact h
  | cons key keys ih => exact ih (nodup_meet h key)

theorem nodup_appearing (keys : List Nat) : (appearing keys).Nodup :=
  nodup_foldl_meet List.nodup_nil keys

theorem mem_appearing {keys : List Nat} {k : Nat} : k ∈ appearing keys ↔ k ∈ keys := by
  simp [appearing, mem_foldl_meet]

/-- Keys that have appeared do not appear again. -/
theorem appearing_append_of_subset {keys more : List Nat} (h : more ⊆ keys) :
    appearing (keys ++ more) = appearing keys := by
  have hseen : more ⊆ appearing keys := fun k hk => mem_appearing.mpr (h hk)
  rw [appearing, List.foldl_append, ← appearing]
  clear h
  induction more with
  | nil => rfl
  | cons key more ih =>
    rw [List.foldl_cons, meet, if_pos (hseen List.mem_cons_self)]
    exact ih fun k hk => hseen (List.mem_cons_of_mem _ hk)

section Representatives

variable {α : Type} {inside : α → Prop} {f g : α → Nat} {l : List α}

/-- Two keys that tell the same elements apart appear at the same elements. -/
theorem exists_representatives
    (hkeys : ∀ a b, inside a → inside b → (f a = f b ↔ g a = g b)) (hl : ∀ a ∈ l, inside a)
    (seen : List α) (hseen : ∀ a ∈ seen, inside a) :
    ∃ reps : List α, (∀ a ∈ reps, inside a) ∧ (l.map f).foldl meet (seen.map f) = reps.map f ∧
      (l.map g).foldl meet (seen.map g) = reps.map g := by
  induction l generalizing seen with
  | nil => exact ⟨seen, hseen, rfl, rfl⟩
  | cons a l ih =>
    have ha : inside a := hl a List.mem_cons_self
    have hrest : ∀ b ∈ l, inside b := fun b hb => hl b (List.mem_cons_of_mem _ hb)
    have hmem : f a ∈ seen.map f ↔ g a ∈ seen.map g := by
      simp only [List.mem_map]
      constructor
      · rintro ⟨b, hb, heq⟩
        exact ⟨b, hb, (hkeys b a (hseen b hb) ha).mp heq⟩
      · rintro ⟨b, hb, heq⟩
        exact ⟨b, hb, (hkeys b a (hseen b hb) ha).mpr heq⟩
    simp only [List.map_cons, List.foldl_cons, meet]
    by_cases hmet : f a ∈ seen.map f
    · rw [if_pos hmet, if_pos (hmem.mp hmet)]
      exact ih hrest seen hseen
    · rw [if_neg hmet, if_neg (fun h => hmet (hmem.mpr h))]
      have hmore : ∀ b ∈ seen ++ [a], inside b := by
        intro b hb
        rcases List.mem_append.mp hb with hb | hb
        · exact hseen b hb
        · exact List.mem_singleton.mp hb ▸ ha
      simpa using ih hrest (seen ++ [a]) hmore

theorem idxOf_map_congr {a : α} {reps : List α} (h : ∀ b ∈ reps, f b = f a ↔ g b = g a) :
    (reps.map f).idxOf (f a) = (reps.map g).idxOf (g a) := by
  induction reps with
  | nil => rfl
  | cons b reps ih =>
    have hhead := h b List.mem_cons_self
    rw [List.map_cons, List.map_cons, List.idxOf_cons, List.idxOf_cons,
      ih fun c hc => h c (List.mem_cons_of_mem _ hc)]
    by_cases hfb : f b = f a
    · rw [beq_iff_eq.mpr hfb, beq_iff_eq.mpr (hhead.mp hfb)]
    · rw [beq_false_of_ne hfb, beq_false_of_ne fun heq => hfb (hhead.mpr heq)]

/-- The place of a key depends only on which elements the keys tell apart. -/
theorem idxOf_appearing_congr
    (hkeys : ∀ a b, inside a → inside b → (f a = f b ↔ g a = g b)) (hl : ∀ a ∈ l, inside a)
    {a : α} (ha : inside a) :
    (appearing (l.map f)).idxOf (f a) = (appearing (l.map g)).idxOf (g a) := by
  obtain ⟨reps, hreps, hf, hg⟩ := exists_representatives hkeys hl [] (by simp)
  rw [appearing, appearing]
  rw [List.map_nil] at hf hg
  rw [hf, hg]
  exact idxOf_map_congr fun b hb => hkeys b a (hreps b hb) ha

theorem length_appearing_congr
    (hkeys : ∀ a b, inside a → inside b → (f a = f b ↔ g a = g b)) (hl : ∀ a ∈ l, inside a) :
    (appearing (l.map f)).length = (appearing (l.map g)).length := by
  obtain ⟨reps, -, hf, hg⟩ := exists_representatives hkeys hl [] (by simp)
  rw [appearing, appearing]
  rw [List.map_nil] at hf hg
  rw [hf, hg, List.length_map, List.length_map]

end Representatives

/-! ## Places among the different keys

Each key has a place as soon as it has appeared, and a key that is new gets the next one. -/

section Places

variable {keys : List Nat} {key k : Nat}

/-- Later keys do not move those that have appeared. -/
theorem idxOf_appearing_append (hkey : key ∈ keys) (more : List Nat) :
    (appearing (keys ++ more)).idxOf key = (appearing keys).idxOf key := by
  rw [appearing, List.foldl_append, ← appearing]
  exact idxOf_foldl_meet (mem_appearing.mpr hkey) more

theorem idxOf_appearing_concat_le (keys : List Nat) (key : Nat) :
    (appearing (keys ++ [key])).idxOf key ≤ (appearing keys).length := by
  rw [appearing, List.foldl_append, ← appearing, List.foldl_cons, List.foldl_nil, meet]
  split
  · next hmet => exact Nat.le_of_lt (List.idxOf_lt_length_of_mem hmet)
  · next hnew =>
    rw [List.idxOf_append_of_notMem hnew, List.idxOf_cons_self]
    exact Nat.le_refl _

theorem exists_idxOf_appearing_eq (hk : k < (appearing keys).length) :
    ∃ key ∈ keys, (appearing keys).idxOf key = k :=
  ⟨(appearing keys)[k], mem_appearing.mp (List.getElem_mem hk),
    (nodup_appearing keys).idxOf_getElem _ _⟩

/-- Whatever comes before the place of a key is the place of an earlier key. -/
theorem exists_earlier {before after : List Nat}
    (hk : k < (appearing (before ++ key :: after)).idxOf key) :
    ∃ earlier ∈ before, (appearing (before ++ key :: after)).idxOf earlier = k := by
  have hsplit : before ++ key :: after = (before ++ [key]) ++ after := by
    rw [List.append_assoc, List.singleton_append]
  have hmem : key ∈ before ++ [key] := List.mem_append_right _ (List.mem_singleton.mpr rfl)
  have hplace : k < (appearing before).length := by
    rw [hsplit, idxOf_appearing_append hmem] at hk
    exact hk.trans_le (idxOf_appearing_concat_le before key)
  obtain ⟨earlier, hearlier, hidx⟩ := exists_idxOf_appearing_eq hplace
  refine ⟨earlier, hearlier, ?_⟩
  rw [idxOf_appearing_append hearlier, hidx]

end Places

/-! ## Numbering -/

/-- The numbering knows the keys met so far, each by its place among them. -/
structure Numbers (n : Numbering) (seen : List Nat) : Prop where
  next_eq : n.next = seen.length
  getElem?_eq : ∀ key, key < n.numberOf.size →
    n.numberOf[key]? = some (if key ∈ seen then some (seen.idxOf key) else none)

theorem numbers_nil (bound : Nat) : Numbers ⟨.replicate bound none, 0⟩ [] where
  next_eq := rfl
  getElem?_eq key hkey := by
    rw [Array.size_replicate] at hkey
    simp [hkey]

/-- Assigning a number to a key meets the key and gives its place. -/
theorem Numbers.assign {n : Numbering} {seen : List Nat} (hn : Numbers n seen) {key : Nat}
    (hkey : key < n.numberOf.size) :
    (n.assign key).1 = (meet seen key).idxOf key ∧ Numbers (n.assign key).2 (meet seen key) ∧
      (n.assign key).2.numberOf.size = n.numberOf.size := by
  have hget := hn.getElem?_eq key hkey
  by_cases hmem : key ∈ seen
  · rw [if_pos hmem] at hget
    have hassign : n.assign key = (seen.idxOf key, n) := by simp [Numbering.assign, hget]
    rw [hassign, meet, if_pos hmem]
    exact ⟨rfl, hn, rfl⟩
  · rw [if_neg hmem] at hget
    have hassign : n.assign key =
        (n.next, ⟨n.numberOf.setIfInBounds key (some n.next), n.next + 1⟩) := by
      simp [Numbering.assign, hget]
    rw [hassign, meet, if_neg hmem]
    have hidx : (seen ++ [key]).idxOf key = seen.length := by
      rw [List.idxOf_append_of_notMem hmem, List.idxOf_cons_self, Nat.add_zero]
    refine ⟨by rw [hidx, hn.next_eq], ⟨by simp [hn.next_eq], fun k hk => ?_⟩, by simp⟩
    simp only [Array.size_setIfInBounds] at hk
    rw [Array.getElem?_setIfInBounds]
    by_cases hkk : key = k
    · subst hkk
      rw [if_pos rfl, if_pos hk, if_pos (by simp), hidx, hn.next_eq]
    · rw [if_neg hkk, hn.getElem?_eq k hk]
      by_cases hkmem : k ∈ seen
      · rw [if_pos hkmem, if_pos (by simp [hkmem]), List.idxOf_append_of_mem hkmem]
      · rw [if_neg hkmem, if_neg (by simp [hkmem, Ne.symm hkk])]

theorem foldl_assign {n : Numbering} {seen : List Nat} (hn : Numbers n seen) (ids : Array Nat)
    (keys : List Nat) (hkeys : ∀ key ∈ keys, key < n.numberOf.size) :
    (keys.foldl (fun (done : Array Nat × Numbering) key =>
        (done.1.push (done.2.assign key).1, (done.2.assign key).2)) (ids, n)).1 =
      ids ++ (keys.map fun key => (keys.foldl meet seen).idxOf key).toArray := by
  induction keys generalizing n seen ids with
  | nil => simp
  | cons key keys ih =>
    obtain ⟨hid, hnext, hsize⟩ := hn.assign (hkeys key List.mem_cons_self)
    have hlater : ∀ k ∈ keys, k < (n.assign key).2.numberOf.size := fun k hk => by
      rw [hsize]
      exact hkeys k (List.mem_cons_of_mem _ hk)
    rw [List.foldl_cons, ih hnext _ hlater, hid, List.foldl_cons, List.map_cons,
      idxOf_foldl_meet (mem_meet.mpr (.inr rfl))]
    simp

/-- A key is numbered by its place among the different keys. -/
theorem numberKeys_eq {bound : Nat} {keys : List Nat} (hkeys : ∀ key ∈ keys, key < bound) :
    numberKeys bound keys.toArray = (keys.map (appearing keys).idxOf).toArray := by
  have hfold := foldl_assign (numbers_nil bound) #[] keys (by simpa using hkeys)
  rw [numberKeys, List.foldl_toArray]
  simpa [appearing] using hfold

/-- A numbering uses as many numbers as there are different keys. -/
theorem classesOf_map_idxOf (keys : List Nat) :
    (classesOf? (keys.map (appearing keys).idxOf).toArray).getD 0 = (appearing keys).length := by
  by_cases hkeys : keys = []
  · subst hkeys
    rfl
  · obtain ⟨key, hkey⟩ := List.exists_mem_of_ne_nil keys hkeys
    have hpos : 0 < (appearing keys).length := List.length_pos_of_mem (mem_appearing.mpr hkey)
    have hmax : (keys.map (appearing keys).idxOf).max? = some ((appearing keys).length - 1) := by
      refine List.max?_eq_some_iff.mpr ⟨List.mem_map.mpr ?_, fun id hid => ?_⟩
      · apply exists_idxOf_appearing_eq
        omega
      · obtain ⟨k, hk, rfl⟩ := List.mem_map.mp hid
        have := List.idxOf_lt_length_of_mem (mem_appearing.mpr hk)
        omega
    rw [classesOf?, hmax]
    simp only [Option.map_some, Option.getD_some]
    omega

/-! ## Packing -/

def roots (s : DisjointSet) (count : Nat) : List Nat := (List.range count).map s.root

theorem findAll_succ (s : DisjointSet) (count : Nat) : s.findAll (count + 1) =
    ((s.findAll count).1.push ((s.findAll count).2.find count).1,
      ((s.findAll count).2.find count).2) := by
  rw [findAll, List.range_succ, List.foldl_append]
  rfl

theorem findAll_spec (hs : s.Forest) (count : Nat) :
    (s.findAll count).1 = (s.roots count).toArray ∧ (s.findAll count).2.Forest ∧
      (s.findAll count).2.size = max s.size count ∧
      ∀ x, (s.findAll count).2.root x = s.root x := by
  induction count with
  | zero => exact ⟨rfl, hs, by simp [findAll], fun _ => rfl⟩
  | succ count ih =>
    obtain ⟨hroots, hforest, hsize, hroot⟩ := ih
    rw [findAll_succ]
    refine ⟨?_, hforest.find count, ?_, fun x => ?_⟩
    · rw [hroots, find_fst hforest, hroot]
      simp [roots, List.range_succ]
    · rw [size_find hforest, hsize]
      omega
    · rw [root_find hforest, hroot]

theorem pack_fst (hs : s.Forest) (count : Nat) :
    (s.pack count).1 =
      ((s.roots count).map (appearing (s.roots count)).idxOf).toArray := by
  obtain ⟨hroots, hforest, hsize, hroot⟩ := findAll_spec (hs.ensure count) count
  have heq : (s.ensure count).roots count = s.roots count := by
    simp [roots, hs.root_ensure]
  show numberKeys ((s.ensure count).findAll count).2.size ((s.ensure count).findAll count).1 = _
  rw [hroots, heq]
  refine numberKeys_eq fun key hkey => ?_
  obtain ⟨x, hx, rfl⟩ := List.mem_map.mp hkey
  rw [← hs.root_ensure count, ← hroot]
  apply hforest.root_lt
  rw [hsize, size_ensure]
  have := List.mem_range.mp hx
  omega

section Pack

variable {t : DisjointSet} {count m n x y : Nat}

theorem size_pack (hs : s.Forest) (count : Nat) : (s.pack count).1.size = count := by
  rw [pack_fst hs]
  simp [roots]

theorem mem_roots (hx : x < count) : s.root x ∈ s.roots count :=
  List.mem_map.mpr ⟨x, List.mem_range.mpr hx, rfl⟩

theorem getElem?_pack (hs : s.Forest) (count x : Nat) : (s.pack count).1[x]? =
    if x < count then some ((appearing (s.roots count)).idxOf (s.root x)) else none := by
  rw [pack_fst hs, List.getElem?_toArray, List.getElem?_map]
  by_cases hx : x < count
  · simp [roots, hx]
  · simp [roots, hx]

/-- Two elements have one number exactly if they have one root. -/
theorem getElem?_pack_eq_iff (hs : s.Forest) (hx : x < count) (hy : y < count) :
    (s.pack count).1[x]? = (s.pack count).1[y]? ↔ s.root x = s.root y := by
  rw [getElem?_pack hs, getElem?_pack hs, if_pos hx, if_pos hy, Option.some_inj]
  exact List.idxOf_inj (mem_appearing.mpr (mem_roots hx))

theorem exists_roots_append (s : DisjointSet) (h : m ≤ n) :
    ∃ more, s.roots n = s.roots m ++ more := by
  obtain ⟨k, rfl⟩ := Nat.exists_eq_add_of_le h
  exact ⟨_, by rw [roots, List.range_add, List.map_append, ← roots]⟩

theorem exists_roots_append_cons (s : DisjointSet) (hx : x < n) :
    ∃ more, s.roots n = s.roots x ++ s.root x :: more := by
  obtain ⟨more, hmore⟩ := s.exists_roots_append (show x + 1 ≤ n from hx)
  refine ⟨more, ?_⟩
  rw [hmore, roots, List.range_succ, List.map_append, List.append_assoc]
  rfl

/-- Numbers are given in order: whatever is smaller than a number has come before it. -/
def InOrder (ids : Array Nat) : Prop :=
  ∀ i id : Nat, ids[i]? = some id → ∀ k < id, ∃ j < i, ids[j]? = some k

theorem inOrder_pack (hs : s.Forest) (count : Nat) : InOrder (s.pack count).1 := by
  intro i id hid k hk
  rw [getElem?_pack hs, Option.ite_none_right_eq_some] at hid
  obtain ⟨hi, hid⟩ := hid
  cases hid
  obtain ⟨more, hroots⟩ := s.exists_roots_append_cons hi
  rw [hroots] at hk
  obtain ⟨earlier, hearlier, hidx⟩ := exists_earlier hk
  obtain ⟨j, hj, rfl⟩ := List.mem_map.mp hearlier
  have hji : j < i := List.mem_range.mp hj
  refine ⟨j, hji, ?_⟩
  rw [getElem?_pack hs, if_pos (hji.trans hi), hroots, hidx]

/-- The numbers are in the order of the places at which they first appear. -/
theorem InOrder.lt_iff_lt {ids : Array Nat} (h : InOrder ids) {c d : Nat}
    (hx : IsLeast {i | ids[i]? = some c} x) (hy : IsLeast {i | ids[i]? = some d} y) :
    c < d ↔ x < y := by
  have hlt : ∀ {c d x y : Nat}, IsLeast {i | ids[i]? = some c} x →
      IsLeast {i | ids[i]? = some d} y → c < d → x < y := by
    intro c d x y hx hy hcd
    obtain ⟨j, hj, hc⟩ := h y d hy.1 c hcd
    exact (hx.2 hc).trans_lt hj
  constructor
  · exact hlt hx hy
  · intro hxy
    rcases Nat.lt_trichotomy c d with hcd | rfl | hdc
    · exact hcd
    · exact absurd (hx.unique hy) (Nat.ne_of_lt hxy)
    · exact absurd (hlt hy hx hdc) (Nat.lt_asymm hxy)

/-- Fewer elements get the numbers that they get among more. -/
theorem pack_prefix (hs : s.Forest) (h : m ≤ n) :
    (s.pack m).1.toList <+: (s.pack n).1.toList := by
  obtain ⟨more, hroots⟩ := s.exists_roots_append h
  have hplaces : (s.roots m).map (appearing (s.roots m ++ more)).idxOf =
      (s.roots m).map (appearing (s.roots m)).idxOf :=
    List.map_congr_left fun _ hkey => idxOf_appearing_append hkey more
  rw [pack_fst hs, pack_fst hs, hroots, List.map_append, hplaces]
  exact List.prefix_append _ _

/-- Sets that tell the same elements apart give the same numbers. -/
theorem pack_congr (hs : s.Forest) (ht : t.Forest)
    (h : ∀ x y, x < count → y < count → (s.root x = s.root y ↔ t.root x = t.root y)) :
    (s.pack count).1 = (t.pack count).1 := by
  refine Array.ext_getElem? fun x => ?_
  rw [getElem?_pack hs, getElem?_pack ht]
  split
  · next hx =>
    rw [roots, roots, idxOf_appearing_congr h (fun _ => List.mem_range.mp) hx]
  · rfl

end Pack

end MethodFlow.DisjointSet
