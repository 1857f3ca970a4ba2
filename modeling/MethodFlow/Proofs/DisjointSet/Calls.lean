import MethodFlow.Proofs.Strict.DisjointSet
import Mathlib.Data.Set.Card
import Mathlib.Data.Setoid.Basic
/-!
# Series of calls

However a set is grown, searched, joined and numbered, it stands for the least equivalence that
relates the joined pairs, and counts its classes:

* `Session.gives_result`: on a sound set no call breaks off, and each answers what the plain
  operation does;
* `Stands.result`: what one call keeps;
* `calls_stand`: what the set is after any series of calls.
-/

namespace MethodFlow.DisjointSet

open Relation Strict

variable {α β : Type} {s t u : DisjointSet} {a b n x y : Nat}

/-! ## Calls that do not break off -/

/-- The call answers, and leaves the second set where it found the first. -/
def Session.Gives (m : Session α) (s : DisjointSet) (answer : α) (t : DisjointSet) : Prop :=
  m.run.run s = (.ok answer, t)

namespace Session

theorem Gives.bind {m : Session α} {f : α → Session β} {answer : α} {later : β}
    (h : m.Gives s answer t) (hf : (f answer).Gives t later u) : (m >>= f).Gives s later u := by
  unfold Gives at *
  rw [ExceptT.run_bind, StateT.run_bind, h]
  exact hf

theorem Gives.pure (answer : α) (s : DisjointSet) : (pure answer : Session α).Gives s answer s := rfl

theorem Gives.map {m : Session α} {answer : α} (h : m.Gives s answer t) (f : α → β) :
    (m >>= fun answer => Pure.pure (f answer)).Gives s (f answer) t :=
  h.bind (.pure _ t)

theorem gives_get (s : DisjointSet) : (get : Session DisjointSet).Gives s s s := rfl

theorem gives_modify (f : DisjointSet → DisjointSet) (s : DisjointSet) :
    (modify f : Session Unit).Gives s () (f s) := rfl

theorem gives_modifyGet (f : DisjointSet → α × DisjointSet) (s : DisjointSet) :
    (modifyGet f : Session α).Gives s (f s).1 (f s).2 := rfl

theorem gives_checkNumber (hx : x + 1 < wordLimit) (s : DisjointSet) :
    (liftM (checkNumber x) : Session Unit).Gives s () s := by
  unfold checkNumber
  rw [if_pos hx]
  rfl

end Session

theorem ensure_of_le (h : n ≤ s.size) : s.ensure n = s := by
  unfold ensure
  dsimp only
  rw [if_pos (Nat.sub_eq_zero_of_le h)]

theorem find_ensure (s : DisjointSet) (x : Nat) : (s.ensure (x + 1)).find x = s.find x := by
  unfold find
  rw [ensure_of_le (by rw [size_ensure]; omega)]

theorem connected_fst (hs : s.Forest) (a b : Nat) :
    (s.connected a b).1 = (s.root a == s.root b) := by
  rw [← find_fst hs, ← find_find_fst hs]
  rfl

theorem Forest.staysInside (hs : s.Forest) (n : Nat) (hx : x < s.size) :
    s.staysInside n x = true := by
  induction n generalizing x with
  | zero => rfl
  | succ n ih =>
    have hget : s.parent[x]? = some (s.parentOf x) := by
      unfold parentOf
      rw [Array.getElem?_eq_getElem hx, Option.getD_some]
    unfold DisjointSet.staysInside
    rw [hget]
    simp only [ih (hs.parent_lt x hx), Bool.or_true]

namespace Session

theorem gives_find (hs : s.Forest) (hx : x + 1 < wordLimit) :
    (Session.find x).Gives s (s.find x).1 (s.find x).2 := by
  have hinside : (s.ensure (x + 1)).staysInside (s.ensure (x + 1)).size x = true := by
    apply (hs.ensure (x + 1)).staysInside
    rw [size_ensure]
    omega
  rw [← find_ensure]
  unfold Session.find
  refine (gives_checkNumber hx s).bind ?_
  refine (gives_modify _ s).bind ((gives_get _).bind ?_)
  rw [hinside]
  rfl

theorem gives_findBoth {f : Nat → Nat → Session α} {answer : α} (hs : s.Forest)
    (ha : a + 1 < wordLimit) (hb : b + 1 < wordLimit)
    (hf : (f (s.root a) (s.root b)).Gives (s.findBoth a b) answer t) :
    (do let rootA ← Session.find a; let rootB ← Session.find b; f rootA rootB).Gives s answer t := by
  refine (gives_find hs ha).bind ((gives_find (hs.find a) hb).bind ?_)
  rw [find_fst hs, find_find_fst hs]
  exact hf

theorem gives_union (h : Sound s) (ha : a + 1 < wordLimit) (hb : b + 1 < wordLimit) :
    (Session.union a b).Gives s (s.union a b).1 (s.union a b).2 := by
  have hboth := h.findBoth a b
  have hltA := root_lt_size_findBoth h.forest (Nat.le_max_left a b)
  have hltB := root_lt_size_findBoth h.forest (Nat.le_max_right a b)
  have hpos := hboth.classCount_ne_zero hltA (parentOf_findBoth_root h.forest a b a)
  rw [union_eq_link h.forest]
  unfold Session.union
  refine gives_findBoth h.forest ha hb ?_
  split
  · next heq =>
    unfold link
    rw [if_pos heq]
    exact .pure _ _
  · have hranked : (decide (s.root a < (s.findBoth a b).rank.size) &&
        decide (s.root b < (s.findBoth a b).rank.size)) = true := by
      rw [hboth.size_rank]
      simp [hltA, hltB]
    refine (gives_get _).bind ?_
    dsimp only
    rw [if_pos hranked]
    refine (gives_get _).bind ?_
    simp only [if_neg hpos]
    rfl

theorem gives_connected (hs : s.Forest) (ha : a + 1 < wordLimit) (hb : b + 1 < wordLimit) :
    (Session.connected a b).Gives s (s.connected a b).1 (s.connected a b).2 := by
  rw [connected_fst hs]
  exact gives_findBoth hs ha hb (.pure _ _)

theorem gives_findAll (hs : s.Forest) {count : Nat} (hcount : count < wordLimit) :
    ((List.range count).foldlM (fun roots x => return roots.push (← Session.find x)) #[] :
      Session (Array Nat)).Gives s (s.findAll count).1 (s.findAll count).2 := by
  induction count with
  | zero => exact .pure _ _
  | succ count ih =>
    have hfound := (findAll_spec hs count).2.1
    rw [List.range_succ, List.foldlM_append, findAll_succ]
    refine (ih (by omega)).bind ?_
    rw [List.foldlM_cons]
    exact ((gives_find hfound hcount).map _).bind (.pure _ _)

theorem gives_pack (hs : s.Forest) {count : Nat} (hcount : count < wordLimit) :
    (Session.pack count).Gives s (s.pack count).1 (s.pack count).2 := by
  unfold Session.pack
  refine (gives_modify _ s).bind ?_
  refine (gives_findAll (hs.ensure count) hcount).bind ?_
  exact .pure _ ((s.ensure count).findAll count).2

end Session

/-! ## Counted classes -/

structure Counted (s : DisjointSet) : Prop extends Sound s where
  classCount_le : s.classCount ≤ (rootSet s).card

namespace Counted

theorem classCount_eq (h : Counted s) : s.classCount = (rootSet s).card :=
  Nat.le_antisymm h.classCount_le h.card_rootSet_le

theorem ofSize (n : Nat) : Counted (ofSize n) where
  toSound := .ofSize n
  classCount_le := by
    have hroots : rootSet (DisjointSet.ofSize n) = Finset.range n := by
      ext x
      rw [mem_rootSet, root_ofSize, Finset.mem_range, and_iff_left rfl]
      simp [DisjointSet.ofSize, size]
    rw [hroots, Finset.card_range]
    exact Nat.le_refl n

theorem ensure (h : Counted s) (n : Nat) : Counted (s.ensure n) where
  toSound := h.toSound.ensure n
  classCount_le := by
    rw [card_rootSet_ensure h.forest, classCount_ensure]
    exact Nat.add_le_add_right h.classCount_le _

theorem find (h : Counted s) (x : Nat) : Counted (s.find x).2 where
  toSound := h.toSound.find x
  classCount_le := by
    rw [card_rootSet_find h.forest, classCount_find]
    exact Nat.add_le_add_right h.classCount_le _

theorem findBoth (h : Counted s) (a b : Nat) : Counted (s.findBoth a b) := (h.find a).find b

theorem link (h : Counted s) (ha : a < s.size) (hb : b < s.size) (hra : s.parentOf a = a)
    (hrb : s.parentOf b = b) : Counted (s.link a b).2 where
  toSound := h.toSound.link ha hb hra hrb
  classCount_le := by
    by_cases hne : a = b
    · have hsame : (s.link a b).2 = s := by
        unfold DisjointSet.link
        rw [if_pos hne]
      rw [hsame]
      exact h.classCount_le
    · obtain ⟨lost, hlost, hroots⟩ := exists_rootSet_link_eq h.forest ha hb hra hrb hne
      rw [hroots, Finset.card_erase_of_mem hlost, classCount_link hne]
      exact Nat.sub_le_sub_right h.classCount_le 1

theorem union (h : Counted s) (a b : Nat) : Counted (s.union a b).2 := by
  rw [union_eq_link h.forest]
  exact (h.findBoth a b).link (root_lt_size_findBoth h.forest (Nat.le_max_left a b))
    (root_lt_size_findBoth h.forest (Nat.le_max_right a b))
    (parentOf_findBoth_root h.forest a b a) (parentOf_findBoth_root h.forest a b b)

theorem findAll (h : Counted s) (count : Nat) : Counted (s.findAll count).2 := by
  induction count with
  | zero => exact h
  | succ count ih =>
    rw [findAll_succ]
    exact ih.find count

end Counted

theorem create_snd (s : DisjointSet) : s.create.2 = s.ensure (s.size + 1) := by
  unfold create ensure
  simp

/-! ## Series of calls -/

inductive Call where
  | create
  | find (x : Nat)
  | union (a b : Nat)
  | connected (a b : Nat)
  | pack (count : Nat)

inductive Answer where
  | element (x : Nat)
  | verdict (together : Bool)
  | numbers (ids : Array Nat)

namespace Call

def make : Call → Session Answer
  | .create => return .element (← Session.create)
  | .find x => return .element (← Session.find x)
  | .union a b => return .element (← Session.union a b)
  | .connected a b => return .verdict (← Session.connected a b)
  | .pack count => return .numbers (← Session.pack count)

def result (s : DisjointSet) : Call → Answer × DisjointSet
  | .create => (.element s.create.1, s.create.2)
  | .find x => (.element (s.find x).1, (s.find x).2)
  | .union a b => (.element (s.union a b).1, (s.union a b).2)
  | .connected a b => (.verdict (s.connected a b).1, (s.connected a b).2)
  | .pack count => (.numbers (s.pack count).1, (s.pack count).2)

/-- Numbers of elements are words whose successors are words. -/
def Fits : Call → Prop
  | .create => True
  | .find x => x + 1 < wordLimit
  | .union a b => a + 1 < wordLimit ∧ b + 1 < wordLimit
  | .connected a b => a + 1 < wordLimit ∧ b + 1 < wordLimit
  | .pack count => count < wordLimit

/-- How many elements a set of `size` elements needs for the call; a new one needs one more. -/
def need (size : Nat) : Call → Nat
  | .create => size + 1
  | .find x => x + 1
  | .union a b => max a b + 1
  | .connected a b => max a b + 1
  | .pack count => count

def IsQuery (c : Call) : Prop := ∀ a b, c ≠ .union a b

end Call

theorem Session.gives_result (h : Sound s) {c : Call} (hc : c.Fits) :
    c.make.Gives s (c.result s).1 (c.result s).2 := by
  cases c with
  | create => exact (gives_modifyGet _ s).map _
  | find x => exact (gives_find h.forest hc).map _
  | union a b => exact (gives_union h hc.1 hc.2).map _
  | connected a b => exact (gives_connected h.forest hc.1 hc.2).map _
  | pack count => exact (gives_pack h.forest hc).map _

theorem Counted.result (h : Counted s) (c : Call) : Counted (c.result s).2 := by
  cases c with
  | create =>
    show Counted s.create.2
    rw [create_snd]
    exact h.ensure _
  | find x => exact h.find x
  | union a b => exact h.union a b
  | connected a b => exact h.findBoth a b
  | pack count => exact (h.ensure count).findAll count

theorem size_result (hs : s.Forest) (c : Call) : (c.result s).2.size = max s.size (c.need s.size) := by
  cases c with
  | create =>
    show s.create.2.size = _
    rw [create_snd, size_ensure]
    rfl
  | find x => exact size_find hs x
  | union a b => exact size_union hs a b
  | connected a b => exact size_findBoth hs a b
  | pack count =>
    show ((s.ensure count).findAll count).2.size = _
    rw [(findAll_spec (hs.ensure count) count).2.2.1, size_ensure, max_assoc, max_self]
    rfl

theorem root_result (hs : s.Forest) {c : Call} (hc : c.IsQuery) (y : Nat) :
    (c.result s).2.root y = s.root y := by
  cases c with
  | create =>
    show s.create.2.root y = _
    rw [create_snd, hs.root_ensure]
  | find x => exact root_find hs x y
  | union a b => exact absurd rfl (hc a b)
  | connected a b => exact root_findBoth hs a b y
  | pack count =>
    show ((s.ensure count).findAll count).2.root y = _
    rw [(findAll_spec (hs.ensure count) count).2.2.2, hs.root_ensure]

/-! ## The relation -/

variable {calls before : List Call} {c : Call}

/-- The least equivalence that relates the joined pairs. -/
def joined (calls : List Call) : Setoid Nat := EqvGen.setoid fun a b => .union a b ∈ calls

theorem joined_append_of_isQuery (hc : c.IsQuery) : joined (calls ++ [c]) = joined calls := by
  have hpairs : (fun a b => Call.union a b ∈ calls ++ [c]) = fun a b => .union a b ∈ calls := by
    funext a b
    rw [List.mem_append, List.mem_singleton, or_iff_left (hc a b).symm]
  unfold joined
  rw [hpairs]

/-- The set counts the classes of the joined pairs, and has a root for each. -/
structure Stands (calls : List Call) (s : DisjointSet) : Prop extends Counted s where
  root_eq_iff : ∀ a b, s.root a = s.root b ↔ joined calls a b

namespace Stands

theorem ofSize (n : Nat) : Stands [] (ofSize n) where
  toCounted := .ofSize n
  root_eq_iff a b := by
    rw [root_ofSize, root_ofSize]
    constructor
    · rintro rfl
      exact .refl a
    · intro h
      induction h with
      | rel a b h => exact absurd h List.not_mem_nil
      | refl a => rfl
      | symm a b _ ih => exact ih.symm
      | trans a b c _ _ ih₁ ih₂ => exact ih₁.trans ih₂

theorem union (h : Stands calls s) (a b : Nat) :
    Stands (calls ++ [.union a b]) (s.union a b).2 where
  toCounted := h.toCounted.union a b
  root_eq_iff u v := by
    constructor
    · intro hroot
      refine eqvGen_root_union id h.forest hroot (fun x y hxy => ?_)
        (List.mem_append_right _ (List.mem_singleton.mpr rfl))
      exact EqvGen.mono (fun _ _ => List.mem_append_left _) x y ((h.root_eq_iff x y).mp hxy)
    · intro hjoined
      induction hjoined with
      | rel u v huv =>
        rw [root_union_eq_iff h.forest]
        rcases List.mem_append.mp huv with huv | huv
        · exact .inl ((h.root_eq_iff u v).mpr (.rel u v huv))
        · cases List.mem_singleton.mp huv
          exact .inr ⟨.inl rfl, .inr rfl⟩
      | refl u => rfl
      | symm u v _ ih => exact ih.symm
      | trans u v w _ _ ih₁ ih₂ => exact ih₁.trans ih₂

/-- A call keeps what the set stands for, up to the pair that it joins. -/
theorem result (h : Stands calls s) (c : Call) : Stands (calls ++ [c]) (c.result s).2 := by
  by_cases hc : c.IsQuery
  · refine ⟨h.toCounted.result c, fun a b => ?_⟩
    rw [root_result h.forest hc, root_result h.forest hc, joined_append_of_isQuery hc]
    exact h.root_eq_iff a b
  · unfold Call.IsQuery at hc
    push Not at hc
    obtain ⟨a, b, rfl⟩ := hc
    exact h.union a b

theorem exists_run (h : Stands before s) (hfits : ∀ c ∈ calls, c.Fits) :
    ∃ answers t, (calls.mapM Call.make).Gives s answers t ∧ Stands (before ++ calls) t ∧
      t.size = calls.foldl (fun size c => max size (c.need size)) s.size := by
  induction calls generalizing before s with
  | nil =>
    rw [List.append_nil]
    exact ⟨[], s, .pure _ _, h, rfl⟩
  | cons c calls ih =>
    have hc := Session.gives_result h.toSound (hfits c List.mem_cons_self)
    obtain ⟨answers, t, hgives, hstands, hsize⟩ :=
      ih (h.result c) fun d hd => hfits d (List.mem_cons_of_mem _ hd)
    refine ⟨(c.result s).1 :: answers, t, ?_, ?_, ?_⟩
    · rw [List.mapM_cons]
      exact hc.bind (hgives.map _)
    · rwa [List.append_assoc] at hstands
    · rw [hsize, size_result h.forest]
      rfl

/-- Every class has one root. -/
theorem classCount_eq_card (h : Stands calls s) : s.classCount =
    Nat.card (Quotient ((joined calls).comap (Fin.val : Fin s.size → Nat))) := by
  have hker : (joined calls).comap (Fin.val : Fin s.size → Nat) =
      Setoid.ker fun x : Fin s.size => s.root x := by
    ext x y
    exact (h.root_eq_iff x y).symm
  have hrange : Set.range (fun x : Fin s.size => s.root x) = ↑(rootSet s) := by
    ext r
    rw [Set.mem_range, Finset.mem_coe, mem_rootSet]
    constructor
    · rintro ⟨x, rfl⟩
      exact ⟨h.forest.root_lt x.isLt, h.forest.root_of_parentOf_eq (h.forest.parentOf_root x)⟩
    · rintro ⟨hr, hroot⟩
      exact ⟨⟨r, hr⟩, hroot⟩
  rw [hker, Nat.card_congr (Setoid.quotientKerEquivRange _), hrange, Nat.card_coe_set_eq,
    Set.ncard_coe_finset, h.classCount_eq]

theorem connected_iff (h : Stands calls s) (a b : Nat) :
    (s.connected a b).1 = true ↔ joined calls a b := by
  rw [connected_fst h.forest, beq_iff_eq, h.root_eq_iff]

theorem joined_find (h : Stands calls s) (a : Nat) : joined calls a (s.find a).1 := by
  rw [find_fst h.forest, ← h.root_eq_iff]
  exact (h.forest.root_of_parentOf_eq (h.forest.parentOf_root a)).symm

end Stands

/-- A set after any series of calls, begun with no elements or with the first ones. -/
theorem calls_stand (start : Option Nat) (calls : List Call) (hfits : ∀ c ∈ calls, c.Fits) :
    ∃ answers s, (calls.mapM Call.make).Gives (start.elim empty ofSize) answers s ∧
      s.size = calls.foldl (fun size c => max size (c.need size)) (start.getD 0) ∧
      (∀ a b, a < s.size → b < s.size → ((s.connected a b).1 = true ↔ joined calls a b)) ∧
      s.classCount = Nat.card (Quotient ((joined calls).comap (Fin.val : Fin s.size → Nat))) ∧
      (∀ a, a < s.size → (s.find a).1 < s.size ∧ joined calls a (s.find a).1 ∧
        ∀ b, joined calls a b → (s.find b).1 = (s.find a).1) ∧
      ∀ c : Call, c.Fits → c.make.Gives s (c.result s).1 (c.result s).2 ∧
        (c.IsQuery → ∀ a b, ((c.result s).2.connected a b).1 = (s.connected a b).1) := by
  have hstart : start.elim empty ofSize = ofSize (start.getD 0) := by cases start <;> rfl
  obtain ⟨answers, s, hgives, h, hsize⟩ := (Stands.ofSize (start.getD 0)).exists_run hfits
  rw [List.nil_append] at h
  refine ⟨answers, s, hstart ▸ hgives, ?_, fun a b _ _ => h.connected_iff a b,
    h.classCount_eq_card, fun a ha => ⟨?_, h.joined_find a, fun b hab => ?_⟩, fun c hc =>
    ⟨Session.gives_result h.toSound hc, fun hquery a b => ?_⟩⟩
  · rw [hsize]
    simp [ofSize, size]
  · rw [find_fst h.forest]
    exact h.forest.root_lt ha
  · rw [find_fst h.forest, find_fst h.forest]
    exact ((h.root_eq_iff a b).mpr hab).symm
  · have hafter := h.result c
    rw [Bool.eq_iff_iff, hafter.connected_iff, h.connected_iff, joined_append_of_isQuery hquery]

/-- Three elements, of which one is joined with one beyond them, and a new element. -/
def growing : List Call := [.union 1 4, .create, .find 0, .connected 4 2, .pack 2]

theorem growing_stands :
    (∀ c ∈ growing, c.Fits) ∧
      ∃ answers s, (growing.mapM Call.make).Gives (ofSize 3) answers s ∧ s.size = 6 ∧
        (s.connected 4 1).1 = true ∧ (s.find 4).1 = (s.find 1).1 := by
  have hfits : ∀ c ∈ growing, c.Fits := by simp [growing, Call.Fits, wordLimit]
  obtain ⟨answers, s, hgives, hsize, hconnected, -, hfind, -⟩ := calls_stand (some 3) growing hfits
  have hsix : s.size = 6 := hsize
  have hjoined : joined growing 1 4 := .rel 1 4 List.mem_cons_self
  refine ⟨hfits, answers, s, hgives, hsix, ?_, (hfind 1 (by omega)).2.2 4 hjoined⟩
  exact (hconnected 4 1 (by omega) (by omega)).mpr ((joined growing).symm hjoined)

end MethodFlow.DisjointSet
