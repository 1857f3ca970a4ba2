import MethodFlow.Proofs.DisjointSet.Numbering
import Mathlib.Data.Nat.Log
/-!
# Short paths

A joined root hangs under a root of higher rank, or of equal rank that then grows.  Compressing a
path leaves ranks behind that are no heights any more, and still no path is long:

* `Balanced.repoint`, `Balanced.hang`: the two ways to move a pointer keep ranks that grow along
  every pointer, and enough elements below every root;
* `Balanced.exists_rise`: a path is no longer than the rank of its root;
* `Balanced.find_endsAfter`: both loops of a search end by their own test, before the bound on their
  passes is met;
* `stays_shallow`: the paths of a set after any series of calls.
-/

namespace MethodFlow.DisjointSet

open Relation

variable {s t : DisjointSet} {start : Option Nat} {calls : List Call} {a b m n r x y : Nat}

/-! ## The loops of a search -/

def rise? (s : DisjointSet) (x : Nat) : Option Nat :=
  if s.parentOf x = x then none else some (s.parentOf x)

def shorten? (root : Nat) (state : DisjointSet × Nat) : Option (DisjointSet × Nat) :=
  if state.1.parentOf state.2 = root then none
  else some (state.1.repoint state.2 root, state.1.parentOf state.2)

theorem rise?_eq_none_iff : s.rise? x = none ↔ s.parentOf x = x := by simp [rise?]

theorem rise?_eq_some_iff : s.rise? x = some y ↔ s.parentOf x ≠ x ∧ s.parentOf x = y := by
  simp [rise?]

theorem compress_of_endsAfter {before after : DisjointSet × Nat}
    (h : EndsAfter (shorten? r) n before after) (hn : n ≤ m) :
    before.1.compress r m before.2 = after.1 := by
  induction h generalizing m with
  | @stop state hstop =>
    have hdone : state.1.parentOf state.2 = r := by
      by_contra hne
      rw [shorten?, if_neg hne] at hstop
      cases hstop
    cases m with
    | zero => rfl
    | succ m => rw [compress_succ, if_pos hdone]
  | @pass n state next last hpass _ ih =>
    obtain ⟨k, rfl⟩ : ∃ k, m = k + 1 := ⟨m - 1, by omega⟩
    unfold shorten? at hpass
    rw [compress_succ]
    split at hpass
    · cases hpass
    · next hne =>
      cases hpass
      rw [if_neg hne]
      exact ih (by omega)

/-! ## Ranks and classes -/

def members (s : DisjointSet) (r : Nat) : Finset Nat :=
  (Finset.range s.size).filter fun x => s.root x = r

theorem mem_members : x ∈ s.members r ↔ x < s.size ∧ s.root x = r := by
  rw [members, Finset.mem_filter, Finset.mem_range]

theorem card_members_le (s : DisjointSet) (r : Nat) : (s.members r).card ≤ s.size := by
  apply (Finset.card_filter_le _ _).trans_eq
  exact Finset.card_range _

theorem disjoint_members (hne : a ≠ b) : Disjoint (s.members a) (s.members b) := by
  rw [Finset.disjoint_left]
  intro x hxa hxb
  exact hne ((mem_members.mp hxa).2.symm.trans (mem_members.mp hxb).2)

theorem card_members_add_le (hne : a ≠ b) :
    (s.members a).card + (s.members b).card ≤ s.size := by
  rw [← Finset.card_union_of_disjoint (disjoint_members hne), ← Finset.card_range s.size]
  apply Finset.card_le_card
  intro x hx
  rw [Finset.mem_range]
  rcases Finset.mem_union.mp hx with hx | hx
  · exact (mem_members.mp hx).1
  · exact (mem_members.mp hx).1

/-- Where two roots have been joined under `b`, the class of `b` is made of both. -/
theorem members_joined (hsize : t.size = s.size)
    (hroot : ∀ y, t.root y = if s.root y = a ∨ s.root y = b then b else s.root y) :
    t.members b = s.members a ∪ s.members b := by
  ext y
  rw [Finset.mem_union, mem_members, mem_members, mem_members, hsize, hroot]
  rw [← and_or_left]
  apply and_congr_right
  intro _
  by_cases hy : s.root y = a ∨ s.root y = b
  · rw [if_pos hy]
    exact iff_of_true rfl hy
  · rw [if_neg hy]
    exact (or_iff_right fun hya => hy (.inl hya)).symm

theorem members_joined_ne (hsize : t.size = s.size)
    (hroot : ∀ y, t.root y = if s.root y = a ∨ s.root y = b then b else s.root y)
    (hra : r ≠ a) (hrb : r ≠ b) : t.members r = s.members r := by
  ext y
  rw [mem_members, mem_members, hsize, hroot]
  split
  · next hy =>
    have hyr : s.root y ≠ r := by
      rcases hy with hy | hy
      · exact fun heq => hra (heq.symm.trans hy)
      · exact fun heq => hrb (heq.symm.trans hy)
    simp only [Ne.symm hrb, hyr]
  · rfl

/-- Ranks grow along every pointer, and a root of rank `k` has `2 ^ k` elements below it. -/
structure Balanced (s : DisjointSet) : Prop where
  rank_lt : ∀ x, s.parentOf x ≠ x → s.rankOf x < s.rankOf (s.parentOf x)
  pow_rank_le : ∀ r, r < s.size → s.parentOf r = r → 2 ^ s.rankOf r ≤ (s.members r).card

theorem rankOf_of_size_le (hrank : s.rank.size = s.size) (hx : s.size ≤ x) : s.rankOf x = 0 := by
  unfold rankOf
  rw [Array.getElem?_eq_none (hrank.trans_le hx)]
  rfl

theorem rankOf_ensure (s : DisjointSet) (n x : Nat) : (s.ensure n).rankOf x = s.rankOf x := by
  unfold ensure
  dsimp only
  split
  · rfl
  · simp only [rankOf, Array.getElem?_append]
    split
    · rfl
    · next hx =>
      rw [Array.getElem?_eq_none (Nat.le_of_not_lt hx), Array.getElem?_replicate]
      split <;> rfl

namespace Balanced

theorem rank_lt_of_rise (h : Balanced s) (hxy : s.rise? x = some y) : s.rankOf x < s.rankOf y := by
  obtain ⟨hne, rfl⟩ := rise?_eq_some_iff.mp hxy
  exact h.rank_lt x hne

theorem exists_rise_of_leads (h : Balanced s) (hr : s.Leads x r) :
    ∃ n, EndsAfter s.rise? n x r ∧ s.rankOf x + n ≤ s.rankOf r := by
  induction hr with
  | root hx => exact ⟨0, .stop (if_pos hx), Nat.le_refl _⟩
  | @step x r hx _ ih =>
    obtain ⟨n, hends, hle⟩ := ih
    have hlt := h.rank_lt x hx
    exact ⟨n + 1, .pass (if_neg hx) hends, by omega⟩

/-- A path is no longer than the rank of its root. -/
theorem exists_rise (h : Balanced s) (hs : s.Forest) (x : Nat) :
    ∃ n, EndsAfter s.rise? n x (s.root x) ∧ s.rankOf x + n ≤ s.rankOf (s.root x) :=
  h.exists_rise_of_leads (hs.leads_root x)

theorem rank_lt_of_leads (h : Balanced s) (hr : s.Leads x r) (hne : x ≠ r) :
    s.rankOf x < s.rankOf r := by
  obtain ⟨n, hends, hle⟩ := h.exists_rise_of_leads hr
  cases hends with
  | stop => exact absurd rfl hne
  | pass => omega

theorem rank_root_le_log (h : Balanced s) (hr : r < s.size) (hroot : s.parentOf r = r) :
    s.rankOf r ≤ Nat.log 2 s.size := by
  apply Nat.le_log_of_pow_le Nat.one_lt_two
  exact (h.pow_rank_le r hr hroot).trans (card_members_le s r)

theorem rank_le_log (h : Balanced s) (hs : s.Forest) (hrank : s.rank.size = s.size) (x : Nat) :
    s.rankOf x ≤ Nat.log 2 s.size := by
  rcases Nat.lt_or_ge x s.size with hx | hx
  · obtain ⟨n, -, hle⟩ := h.exists_rise hs x
    have hroot := h.rank_root_le_log (hs.root_lt hx) (hs.parentOf_root x)
    omega
  · rw [rankOf_of_size_le hrank hx]
    exact Nat.zero_le _

theorem exists_rise_le_log (h : Balanced s) (hs : s.Forest) (hrank : s.rank.size = s.size)
    (x : Nat) : ∃ n ≤ Nat.log 2 s.size, EndsAfter s.rise? n x (s.root x) := by
  obtain ⟨n, hends, hle⟩ := h.exists_rise hs x
  have hlog := h.rank_le_log hs hrank (s.root x)
  exact ⟨n, by omega, hends⟩

/-- No element lies above itself, as ranks grow on the way up. -/
theorem acyclic (h : Balanced s) (x : Nat) : ¬TransGen (fun y z => s.rise? y = some z) x x := by
  have hgrows : ∀ {z}, TransGen (fun y z => s.rise? y = some z) x z →
      s.rankOf x < s.rankOf z := by
    intro z hz
    induction hz with
    | single hxz => exact h.rank_lt_of_rise hxz
    | tail _ hyz ih => exact ih.trans (h.rank_lt_of_rise hyz)
  intro hx
  exact Nat.lt_irrefl _ (hgrows hx)

/-! ## Moved pointers -/

/-- A path above an element does not see where the element points. -/
theorem rise_repoint (h : Balanced s) (hx : x < s.size) (hy : s.rankOf x < s.rankOf y)
    (hends : EndsAfter s.rise? n y r) : EndsAfter (s.repoint x a).rise? n y r := by
  induction hends with
  | @stop y hstop =>
    have hyx : y ≠ x := fun heq => Nat.lt_irrefl _ (heq ▸ hy)
    apply EndsAfter.stop
    rw [rise?, parentOf_repoint hx, if_neg hyx]
    exact hstop
  | @pass n y z r hpass _ ih =>
    have hyx : y ≠ x := fun heq => Nat.lt_irrefl _ (heq ▸ hy)
    refine .pass ?_ (ih (hy.trans (h.rank_lt_of_rise hpass)))
    rw [rise?, parentOf_repoint hx, if_neg hyx]
    exact hpass

theorem repoint (h : Balanced s) (hs : s.Forest) (hr : s.Leads x r) (hne : x ≠ r) :
    Balanced (s.repoint x r) := by
  have hx : x < s.size :=
    lt_size_of_parentOf_ne fun hroot => hne ((Leads.root hroot).unique hr)
  have hmembers : ∀ q, (s.repoint x r).members q = s.members q := by
    intro q
    unfold members
    simp only [size_repoint, (hs.repoint hr hne).2]
  refine ⟨fun y hy => ?_, fun q hq hroot => ?_⟩
  · rw [parentOf_repoint hx] at hy ⊢
    by_cases hyx : y = x
    · rw [if_pos hyx, hyx]
      exact h.rank_lt_of_leads hr hne
    · rw [if_neg hyx] at hy ⊢
      exact h.rank_lt y hy
  · rw [hmembers]
    rw [size_repoint] at hq
    rw [parentOf_repoint hx] at hroot
    apply h.pow_rank_le q hq
    split at hroot
    · next hqx => exact absurd (hqx ▸ hroot.symm) hne
    · exact hroot

theorem compress (h : Balanced s) (hs : s.Forest) (n : Nat) (hr : s.Leads x r) :
    Balanced (s.compress r n x) := by
  induction n generalizing s x with
  | zero => exact h
  | succ n ih =>
    rw [compress_succ]
    split
    · exact h
    · next hnext =>
      cases hr with
      | root hx => exact absurd hx hnext
      | step hx hr =>
        have hleads : s.Leads x r := .step hx hr
        have hne : x ≠ r := fun heq => hx (by rw [heq]; exact hr.parentOf_eq)
        apply ih (h.repoint hs hleads hne) (hs.repoint hleads hne).1
        exact .repoint (lt_size_of_parentOf_ne hx) hleads hne hr

/-- A root hung under another one, whose rank is or becomes the higher. -/
theorem hang (h : Balanced s) (hs : s.Forest) (ha : a < s.size) (hb : b < s.size)
    (hra : s.parentOf a = a) (hrb : s.parentOf b = b) (hne : a ≠ b)
    (hparent : t.parent = (s.repoint a b).parent) (hkept : ∀ y, y ≠ b → t.rankOf y = s.rankOf y)
    (hle : s.rankOf b ≤ t.rankOf b) (hlt : s.rankOf a < t.rankOf b)
    (hpow : 2 ^ t.rankOf b ≤ (s.members a).card + (s.members b).card) : Balanced t := by
  obtain ⟨-, hsize, hroot⟩ := hs.move ha hb hra hrb hne hparent
  have hparentOf : ∀ y, t.parentOf y = if y = a then b else s.parentOf y := by
    intro y
    rw [parentOf_congr hparent, parentOf_repoint ha]
  refine ⟨fun y hy => ?_, fun q hq hqroot => ?_⟩
  · rw [hparentOf] at hy ⊢
    by_cases hya : y = a
    · rw [if_pos hya, hya, hkept a hne]
      exact hlt
    · rw [if_neg hya] at hy ⊢
      have hyb : y ≠ b := fun heq => hy (heq ▸ hrb)
      have hgrows : s.rankOf (s.parentOf y) ≤ t.rankOf (s.parentOf y) := by
        by_cases hparentB : s.parentOf y = b
        · rw [hparentB]
          exact hle
        · rw [hkept _ hparentB]
      rw [hkept y hyb]
      exact (h.rank_lt y hy).trans_le hgrows
  · have hqa : q ≠ a := by
      rintro rfl
      rw [hparentOf, if_pos rfl] at hqroot
      exact hne hqroot.symm
    rw [hparentOf, if_neg hqa] at hqroot
    by_cases hqb : q = b
    · rw [hqb, members_joined hsize hroot, Finset.card_union_of_disjoint (disjoint_members hne)]
      exact hpow
    · rw [members_joined_ne hsize hroot hqa hqb, hkept q hqb]
      exact h.pow_rank_le q (hsize ▸ hq) hqroot

/-! ## Calls -/

theorem ofSize (n : Nat) : Balanced (ofSize n) where
  rank_lt x hx := absurd (parentOf_ofSize n x) hx
  pow_rank_le r hr _ := by
    have hrank : (DisjointSet.ofSize n).rankOf r = 0 := by
      simp only [rankOf, DisjointSet.ofSize, Array.getElem?_replicate]
      split <;> rfl
    rw [hrank, Nat.pow_zero, Finset.one_le_card]
    exact ⟨r, mem_members.mpr ⟨hr, root_ofSize n r⟩⟩

theorem ensure (h : Balanced s) (hs : s.Forest) (hrank : s.rank.size = s.size) (n : Nat) :
    Balanced (s.ensure n) where
  rank_lt x hx := by
    rw [parentOf_ensure] at hx ⊢
    rw [rankOf_ensure, rankOf_ensure]
    exact h.rank_lt x hx
  pow_rank_le r hr hroot := by
    rw [parentOf_ensure] at hroot
    rw [rankOf_ensure]
    by_cases hlt : r < s.size
    · have hsubset : s.members r ⊆ (s.ensure n).members r := by
        intro x hx
        rw [mem_members] at hx ⊢
        rw [size_ensure, hs.root_ensure]
        exact ⟨hx.1.trans_le (Nat.le_max_left _ _), hx.2⟩
      exact (h.pow_rank_le r hlt hroot).trans (Finset.card_le_card hsubset)
    · rw [rankOf_of_size_le hrank (Nat.le_of_not_lt hlt), Nat.pow_zero, Finset.one_le_card]
      refine ⟨r, mem_members.mpr ⟨hr, ?_⟩⟩
      rw [hs.root_ensure]
      exact hs.root_of_parentOf_eq hroot

theorem find (h : Balanced s) (hs : s.Forest) (hrank : s.rank.size = s.size) (x : Nat) :
    Balanced (s.find x).2 :=
  (h.ensure hs hrank (x + 1)).compress (hs.ensure _) _ ((hs.ensure _).leads_root x)

theorem findBoth (h : Balanced s) (hs : Strict.Sound s) (a b : Nat) : Balanced (s.findBoth a b) :=
  (h.find hs.forest hs.size_rank a).find (hs.forest.find a) (hs.find a).size_rank b

/-- Two different roots of one rank have twice as many elements below them, so that the rank of one
of them can grow. -/
theorem hang_equal (h : Balanced s) (hs : Strict.Sound s) (hsize : s.size < 2 ^ (rankCap + 1))
    (ha : a < s.size) (hb : b < s.size) (hra : s.parentOf a = a) (hrb : s.parentOf b = b)
    (hne : a ≠ b) (heq : s.rankOf b = s.rankOf a) :
    Balanced { s with
      parent := s.parent.setIfInBounds b a
      rank := s.rank.setIfInBounds a (min (s.rankOf a + 1) rankCap)
      classCount := s.classCount - 1 } := by
  have hpow : 2 ^ (s.rankOf a + 1) ≤ (s.members b).card + (s.members a).card := by
    have hpowA := h.pow_rank_le a ha hra
    have hpowB := h.pow_rank_le b hb hrb
    rw [heq] at hpowB
    rw [Nat.pow_succ]
    omega
  have hroom : s.rankOf a + 1 ≤ rankCap := by
    have hdisjoint : (s.members b).card + (s.members a).card ≤ s.size :=
      card_members_add_le (Ne.symm hne)
    have hlt : 2 ^ (s.rankOf a + 1) < 2 ^ (rankCap + 1) := by omega
    exact Nat.lt_succ_iff.mp ((Nat.pow_lt_pow_iff_right Nat.one_lt_two).mp hlt)
  have hlta : a < s.rank.size := hs.size_rank.symm ▸ ha
  have hgrown : ∀ y, rankOf { s with
      parent := s.parent.setIfInBounds b a
      rank := s.rank.setIfInBounds a (min (s.rankOf a + 1) rankCap)
      classCount := s.classCount - 1 } y =
        if a = y then s.rankOf a + 1 else s.rankOf y := by
    intro y
    simp only [rankOf, Array.getElem?_setIfInBounds, if_pos hlta]
    split
    · exact Nat.min_eq_left hroom
    · rfl
  refine h.hang hs.forest hb ha hrb hra (Ne.symm hne) rfl ?_ ?_ ?_ ?_
  · intro y hy
    rw [hgrown, if_neg (Ne.symm hy)]
  · rw [hgrown, if_pos rfl]
    omega
  · rw [hgrown, if_pos rfl]
    omega
  · rw [hgrown, if_pos rfl]
    exact hpow

theorem link (h : Balanced s) (hs : Strict.Sound s) (hsize : s.size < 2 ^ (rankCap + 1))
    (ha : a < s.size) (hb : b < s.size) (hra : s.parentOf a = a) (hrb : s.parentOf b = b) :
    Balanced (s.link a b).2 := by
  unfold DisjointSet.link
  split
  · exact h
  · next hne =>
    split
    · next hlt =>
      exact h.hang hs.forest ha hb hra hrb hne rfl (fun _ _ => rfl) (Nat.le_refl _) hlt
        ((h.pow_rank_le b hb hrb).trans (Nat.le_add_left _ _))
    · next hle =>
      split
      · next hlt =>
        exact h.hang hs.forest hb ha hrb hra (Ne.symm hne) rfl (fun _ _ => rfl) (Nat.le_refl _)
          hlt ((h.pow_rank_le a ha hra).trans (Nat.le_add_left _ _))
      · next hge =>
        have heq : s.rankOf b = s.rankOf a := by omega
        exact h.hang_equal hs hsize ha hb hra hrb hne heq

theorem union (h : Balanced s) (hs : Strict.Sound s) (a b : Nat)
    (hsize : (s.union a b).2.size < 2 ^ (rankCap + 1)) : Balanced (s.union a b).2 := by
  rw [size_union hs.forest, ← size_findBoth hs.forest] at hsize
  rw [union_eq_link hs.forest]
  apply (h.findBoth hs a b).link (hs.findBoth a b) hsize
  · exact root_lt_size_findBoth hs.forest (Nat.le_max_left a b)
  · exact root_lt_size_findBoth hs.forest (Nat.le_max_right a b)
  · exact parentOf_findBoth_root hs.forest a b a
  · exact parentOf_findBoth_root hs.forest a b b

theorem findAll (h : Balanced s) (hs : Counted s) (count : Nat) :
    Balanced (s.findAll count).2 := by
  induction count with
  | zero => exact h
  | succ count ih =>
    have hbefore := hs.findAll count
    rw [findAll_succ]
    exact ih.find hbefore.forest hbefore.size_rank count

/-- A call keeps the set balanced, as long as a rank cannot have reached the cap. -/
theorem result (h : Balanced s) (hs : Counted s) (c : Call)
    (hsize : (c.result s).2.size < 2 ^ (rankCap + 1)) : Balanced (c.result s).2 := by
  cases c with
  | create =>
    show Balanced s.create.2
    rw [create_snd]
    exact h.ensure hs.forest hs.size_rank _
  | find x => exact h.find hs.forest hs.size_rank x
  | union a b => exact h.union hs.toSound a b hsize
  | connected a b => exact h.findBoth hs.toSound a b
  | pack count => exact (h.ensure hs.forest hs.size_rank count).findAll (hs.ensure count) count

end Balanced

/-- The set after each call has done what the plain operation does. -/
def afterCalls (s : DisjointSet) (calls : List Call) : DisjointSet :=
  calls.foldl (fun s c => (c.result s).2) s

theorem exists_gives_afterCalls (hs : Counted s) (hfits : ∀ c ∈ calls, c.Fits) :
    ∃ answers, (calls.mapM Call.make).Gives s answers (s.afterCalls calls) := by
  induction calls generalizing s with
  | nil => exact ⟨[], .pure _ _⟩
  | cons c calls ih =>
    have hc := Session.gives_result hs.toSound (hfits c List.mem_cons_self)
    obtain ⟨answers, hgives⟩ := ih (hs.result c) fun d hd => hfits d (List.mem_cons_of_mem _ hd)
    refine ⟨(c.result s).1 :: answers, ?_⟩
    rw [List.mapM_cons]
    exact hc.bind (hgives.map _)

theorem size_le_afterCalls (hs : Counted s) (calls : List Call) :
    s.size ≤ (s.afterCalls calls).size := by
  induction calls generalizing s with
  | nil => exact Nat.le_refl _
  | cons c calls ih =>
    calc s.size ≤ (c.result s).2.size := by
          rw [size_result hs.forest]
          exact Nat.le_max_left _ _
      _ ≤ (s.afterCalls (c :: calls)).size := ih (hs.result c)

/-- Calls keep the set balanced if the set that they leave is not too large, as it only grows. -/
theorem Balanced.afterCalls (h : Balanced s) (hs : Counted s)
    (hsize : (s.afterCalls calls).size < 2 ^ (rankCap + 1)) : Balanced (s.afterCalls calls) := by
  induction calls generalizing s with
  | nil => exact h
  | cons c calls ih =>
    have hlater := size_le_afterCalls (hs.result c) calls
    exact ih (h.result hs c (hlater.trans_lt hsize)) (hs.result c) hsize

theorem Leaves.eq_afterCalls (h : Leaves start calls s) :
    s = (DisjointSet.ofSize (start.getD 0)).afterCalls calls := by
  obtain ⟨hfits, answers, hgives⟩ := h
  have hstart : start.elim empty DisjointSet.ofSize = DisjointSet.ofSize (start.getD 0) := by
    cases start <;> rfl
  obtain ⟨answers', hgives'⟩ := exists_gives_afterCalls (.ofSize (start.getD 0)) hfits
  rw [hstart] at hgives
  cases hgives.symm.trans hgives'
  rfl

theorem Leaves.balanced (h : Leaves start calls s) (hsize : s.size < 2 ^ (rankCap + 1)) :
    Balanced s := by
  rw [h.eq_afterCalls] at hsize ⊢
  exact (Balanced.ofSize _).afterCalls (.ofSize _) hsize

/-! ## Searches -/

namespace Balanced

/-- The loop that shortens a path makes one pass less than the one that has found its root. -/
theorem exists_shorten (h : Balanced s) (hs : s.Forest) (hr : s.Leads x r)
    (hends : EndsAfter s.rise? n x r) :
    ∃ after, EndsAfter (shorten? r) (n - 1) (s, x) after := by
  induction n generalizing s x with
  | zero =>
    cases hends with
    | stop hstop => exact ⟨(s, r), .stop (if_pos (rise?_eq_none_iff.mp hstop))⟩
  | succ n ih =>
    cases hends with
    | pass hpass hrest =>
      obtain ⟨hx, rfl⟩ := rise?_eq_some_iff.mp hpass
      cases hr with
      | root hroot => exact absurd hroot hx
      | step _ hr =>
        have hleads : s.Leads x r := .step hx hr
        have hne : x ≠ r := fun heq => hx (by rw [heq]; exact hr.parentOf_eq)
        have hlt : x < s.size := lt_size_of_parentOf_ne hx
        cases n with
        | zero =>
          cases hrest with
          | stop => exact ⟨(s, x), .stop (if_pos rfl)⟩
        | succ n =>
          have hnext : s.parentOf x ≠ r := by
            intro heq
            cases hrest with
            | pass hpass => exact (rise?_eq_some_iff.mp hpass).1 (heq ▸ hr.parentOf_eq)
          obtain ⟨after, hafter⟩ := ih (h.repoint hs hleads hne) (hs.repoint hleads hne).1
            (.repoint hlt hleads hne hr) (h.rise_repoint hlt (h.rank_lt x hx) hrest)
          exact ⟨after, .pass (if_neg hnext) hafter⟩

/-- Both loops of a search end by their own test, after as many passes as a logarithm. -/
theorem find_endsAfter (h : Balanced s) (hs : Strict.Sound s) (x : Nat) :
    ∃ n ≤ Nat.log 2 (max s.size (x + 1)), EndsAfter (s.ensure (x + 1)).rise? n x (s.find x).1 ∧
      ∃ last, EndsAfter (shorten? (s.find x).1) (n - 1) (s.ensure (x + 1), x)
        ((s.find x).2, last) := by
  have hgrown := hs.ensure (x + 1)
  have hbalanced := h.ensure hs.forest hs.size_rank (x + 1)
  obtain ⟨n, hn, hends⟩ := hbalanced.exists_rise_le_log hgrown.forest hgrown.size_rank x
  obtain ⟨after, hafter⟩ :=
    hbalanced.exists_shorten hgrown.forest (hgrown.forest.leads_root x) hends
  have hbound : n - 1 ≤ (s.ensure (x + 1)).size := by
    have hlog := Nat.log_le_self 2 (s.ensure (x + 1)).size
    omega
  have hfound : (s.find x).2 = after.1 := compress_of_endsAfter hafter hbound
  rw [size_ensure] at hn
  refine ⟨n, hn, hends, after.2, ?_⟩
  rw [hfound]
  exact hafter

end Balanced

/-! ## After any series of calls -/

/-- The class of a root is made of the elements that are joined with it. -/
theorem Stands.card_members_eq (h : Stands calls s) (hr : s.parentOf r = r) :
    (s.members r).card = {x | x < s.size ∧ joined calls x r}.ncard := by
  rw [← Set.ncard_coe_finset]
  congr 1
  ext x
  rw [Finset.mem_coe, mem_members, Set.mem_ofPred_eq, ← h.root_eq_iff,
    h.forest.root_of_parentOf_eq hr]

/-- Pointers stay in the table and lead to higher ranks, a root of rank `k` is joined with `2 ^ k`
elements, and so paths are short: a search ends soon, and no rank is near the cap. -/
theorem stays_shallow (h : Leaves start calls s) (hsize : s.size < wordLimit) :
    (∀ x, x < s.size → s.parentOf x < s.size) ∧
      (∀ x, s.parentOf x ≠ x → s.rankOf x < s.rankOf (s.parentOf x)) ∧
      (∀ r, r < s.size → s.parentOf r = r →
        2 ^ s.rankOf r ≤ {x | x < s.size ∧ joined calls x r}.ncard) ∧
      (∀ x, ¬TransGen (fun y z => s.rise? y = some z) x x) ∧
      (∀ x, ∃ n ≤ Nat.log 2 s.size, EndsAfter s.rise? n x (s.root x)) ∧
      (∀ x, ∃ n ≤ Nat.log 2 (max s.size (x + 1)),
        EndsAfter (s.ensure (x + 1)).rise? n x (s.find x).1 ∧
        ∃ last, EndsAfter (shorten? (s.find x).1) (n - 1) (s.ensure (x + 1), x)
          ((s.find x).2, last)) ∧
      ∀ x, s.rankOf x < rankCap := by
  have hs := h.stands
  have hword : wordLimit ≤ 2 ^ (rankCap + 1) := by decide
  have hbalanced := h.balanced (hsize.trans_le hword)
  refine ⟨hs.forest.parent_lt, hbalanced.rank_lt, fun r hr hroot => ?_, hbalanced.acyclic,
    hbalanced.exists_rise_le_log hs.forest hs.size_rank,
    hbalanced.find_endsAfter hs.toSound, fun x => ?_⟩
  · rw [← hs.card_members_eq hroot]
    exact hbalanced.pow_rank_le r hr hroot
  · have hrank := hbalanced.rank_le_log hs.forest hs.size_rank x
    have hlog : Nat.log 2 s.size ≤ Nat.log 2 wordLimit := Nat.log_mono_right hsize.le
    have hcap : Nat.log 2 wordLimit < rankCap := Nat.log_lt_of_lt_pow (by decide) (by decide)
    omega

/-- Two pairs, which are then joined: the last element is two pointers below the first. -/
def merging : List Call := [.union 0 1, .union 2 3, .union 0 2]

def merged : DisjointSet := ⟨#[0, 0, 0, 2], #[2, 0, 1, 0], 1⟩

theorem merged_shallow :
    Leaves (some 4) merging merged ∧ merged.size < wordLimit ∧
      2 ^ 2 ≤ {x | x < 4 ∧ joined merging x 0}.ncard ∧
      (∃ n ≤ 2, EndsAfter merged.rise? n 3 0) ∧ merged.rankOf 0 < 255 := by
  have hfits : ∀ c ∈ merging, c.Fits := by simp [merging, Call.Fits, wordLimit]
  have hleaves : Leaves (some 4) merging merged :=
    ⟨hfits, [.element 0, .element 2, .element 0], rfl⟩
  have hsize : merged.size < wordLimit := by decide
  have hlog : Nat.log 2 merged.size = 2 :=
    (Nat.log_eq_iff (.inl two_ne_zero)).mpr ⟨by decide, by decide⟩
  obtain ⟨-, -, hpow, -, hrise, -, hrank⟩ := stays_shallow hleaves hsize
  obtain ⟨n, hn, hends⟩ := hrise 3
  exact ⟨hleaves, hsize, hpow 0 (by decide) rfl, ⟨n, hlog ▸ hn, hends⟩, hrank 0⟩

end MethodFlow.DisjointSet
