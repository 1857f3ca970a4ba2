import MethodFlow.Proofs.Graph.Reach
import MethodFlow.Proofs.Graph.Search
import Mathlib.Data.Set.Card
import Mathlib.Tactic.ByContra
/-!
# Flags cut every cycle

The depth-first search flags enough nodes and not too many:

* `markCycles_spec`: a node that it flags lies on a cycle, and flags are met on every way back;
* `markCycles_cuts`: a node on a cycle can reach, and be reached from, a flagged node.

The search finishes a node only when every successor is finished or flagged.  Edges to unflagged
nodes therefore lead down in the order in which nodes are finished, and no cycle consists of
such edges alone.
-/

namespace MethodFlow.Graph

open Relation

variable {γ : Type} [Graph γ] {g : γ} {visits : Array Visit} {flags : Array Bool}
  {child : Option Nat} {stack : List Frame} {u v node next : Nat}

/-- An edge back from a node that is not flagged. -/
def Unflagged (g : γ) (flags : Array Bool) (target source : Nat) : Prop :=
  Edge g source target ∧ ¬Marked flags target

/-- What the search knows of the frames of its stack.  The frames below come from the node of the
frame above, and a successor that is not to come is the `child` being explored, flagged or
finished. -/
def Explored (g : γ) (visits : Array Visit) (flags : Array Bool) :
    (child : Option Nat) → List Frame → Prop
  | _, [] => True
  | child, (node, more) :: below =>
    (∀ next ∈ more, Edge g node next) ∧
    (∀ next, child = some next → Edge g node next) ∧
    (∀ next, Edge g node next →
      next ∈ more ∨ child = some next ∨ Marked flags next ∨ visits[next]? = some Visit.done) ∧
    Explored g visits flags (some node) below

structure Exploring (g : γ) (visits : Array Visit) (flags : Array Bool) (child : Option Nat)
    (stack : List Frame) : Prop where
  size_visits : visits.size = size g
  size_flags : flags.size = size g
  inProgress_iff : ∀ u, visits[u]? = some Visit.inProgress ↔ u ∈ stack.map Prod.fst
  nodup : (stack.map Prod.fst).Nodup
  acc : ∀ u, visits[u]? = some Visit.done → Acc (Unflagged g flags) u
  explored : Explored g visits flags child stack

/-! ## One step of the search -/

theorem acc_unflagged_mono {flags' : Array Bool} (hflags : ∀ v, Marked flags v → Marked flags' v)
    (h : Acc (Unflagged g flags) u) : Acc (Unflagged g flags') u := by
  induction h with
  | intro u _ ih => exact .intro u fun v hv => ih v ⟨hv.1, fun hmark => hv.2 (hflags v hmark)⟩

theorem Explored.mono {visits' : Array Visit} {flags' : Array Bool}
    (hflags : ∀ v, Marked flags v → Marked flags' v)
    (hvisits : ∀ v : Nat, visits[v]? = some Visit.done → visits'[v]? = some Visit.done)
    (h : Explored g visits flags child stack) : Explored g visits' flags' child stack := by
  induction stack generalizing child with
  | nil => trivial
  | cons frame below ih =>
    obtain ⟨hmore, hchild, hseen, hbelow⟩ := h
    refine ⟨hmore, hchild, fun next hnext => ?_, ih hbelow⟩
    rcases hseen next hnext with h | h | h | h
    · exact .inl h
    · exact .inr (.inl h)
    · exact .inr (.inr (.inl (hflags next h)))
    · exact .inr (.inr (.inr (hvisits next h)))

/-- Every node of the stack leads to the node on top. -/
theorem Explored.path {more : List Nat} {below : List Frame}
    (h : Explored g visits flags child ((node, more) :: below))
    (hu : u ∈ ((node, more) :: below).map Prod.fst) : ReflTransGen (Edge g) u node := by
  induction below generalizing child node more with
  | nil =>
    rw [List.map_singleton, List.mem_singleton] at hu
    exact hu ▸ .refl
  | cons frame below ih =>
    obtain ⟨-, -, -, hbelow⟩ := h
    rcases List.mem_cons.mp hu with heq | hu
    · exact heq ▸ .refl
    · exact (ih hbelow hu).tail (hbelow.2.1 node rfl)

theorem getElem?_set_visit {state : Visit} (hnode : node < visits.size) (u : Nat) :
    (visits.setIfInBounds node state)[u]? = if node = u then some state else visits[u]? := by
  rw [Array.getElem?_setIfInBounds, if_pos hnode]

namespace Exploring

/-- The next successor of the node on top becomes the child. -/
theorem take {more : List Nat} {below : List Frame}
    (h : Exploring g visits flags none ((node, next :: more) :: below)) :
    Exploring g visits flags (some next) ((node, more) :: below) := by
  obtain ⟨hmore, -, hseen, hbelow⟩ := h.explored
  refine ⟨h.size_visits, h.size_flags, h.inProgress_iff, h.nodup, h.acc,
    fun v hv => hmore v (List.mem_cons_of_mem _ hv), ?_, fun v hv => ?_, hbelow⟩
  · intro v hv
    rw [← Option.some.inj hv]
    exact hmore next List.mem_cons_self
  · rcases hseen v hv with hmem | h | h
    · rcases List.mem_cons.mp hmem with rfl | hmem
      · exact .inr (.inl rfl)
      · exact .inl hmem
    · cases h
    · exact .inr (.inr h)

/-- The child is done with once it is flagged or finished. -/
theorem settle (h : Exploring g visits flags (some next) stack)
    (hnext : Marked flags next ∨ visits[next]? = some Visit.done) :
    Exploring g visits flags none stack := by
  refine ⟨h.size_visits, h.size_flags, h.inProgress_iff, h.nodup, h.acc, ?_⟩
  cases stack with
  | nil => trivial
  | cons frame below =>
    obtain ⟨hmore, -, hseen, hbelow⟩ := h.explored
    refine ⟨hmore, (fun v hv => by cases hv), fun v hv => ?_, hbelow⟩
    rcases hseen v hv with h | h | h
    · exact .inl h
    · cases h
      exact .inr (.inr hnext)
    · exact .inr (.inr h)

/-- A child not visited before gets a frame of its own. -/
theorem push (h : Exploring g visits flags (some next) stack)
    (hnext : visits[next]? = some Visit.unvisited) :
    Exploring g (visits.setIfInBounds next .inProgress) flags none
      ((next, successors g next) :: stack) := by
  have hlt : next < visits.size := (Array.getElem?_eq_some_iff.mp hnext).1
  have hout : next ∉ stack.map Prod.fst := by
    rw [← h.inProgress_iff, hnext]
    exact fun heq => by cases heq
  refine ⟨by rw [Array.size_setIfInBounds, h.size_visits], h.size_flags, fun v => ?_, ?_,
    fun v hv => ?_, fun v hv => hv, (fun v hv => by cases hv), fun v hv => .inl hv, ?_⟩
  · rw [getElem?_set_visit hlt, List.map_cons, List.mem_cons]
    split
    · next heq => simp [heq]
    · next hne => rw [h.inProgress_iff, or_iff_right (Ne.symm hne)]
  · exact List.nodup_cons.mpr ⟨hout, h.nodup⟩
  · rw [getElem?_set_visit hlt] at hv
    split at hv
    · cases hv
    · exact h.acc v hv
  · refine h.explored.mono (fun _ hmark => hmark) fun v hv => ?_
    rw [getElem?_set_visit hlt, if_neg]
    · exact hv
    · rintro rfl
      rw [hnext] at hv
      cases hv

/-- A node without successors to come is finished: edges to unflagged nodes lead from it to nodes
finished before. -/
theorem finish {below : List Frame} (h : Exploring g visits flags none ((node, []) :: below)) :
    Exploring g (visits.setIfInBounds node .done) flags none below := by
  have hnode : visits[node]? = some Visit.inProgress := (h.inProgress_iff node).mpr (by simp)
  have hlt : node < visits.size := (Array.getElem?_eq_some_iff.mp hnode).1
  obtain ⟨hout, hnodup⟩ := List.nodup_cons.mp h.nodup
  obtain ⟨-, -, hseen, hbelow⟩ := h.explored
  have hacc : Acc (Unflagged g flags) node := by
    refine .intro node fun v hv => ?_
    rcases hseen v hv.1 with hmem | hchild | hmark | hdone
    · cases hmem
    · cases hchild
    · exact absurd hmark hv.2
    · exact h.acc v hdone
  have hdone : ∀ v : Nat, visits[v]? = some Visit.done →
      (visits.setIfInBounds node .done)[v]? = some Visit.done := by
    intro v hv
    rw [getElem?_set_visit hlt, hv, ite_self]
  have hfinished : Exploring g (visits.setIfInBounds node .done) flags (some node) below := by
    refine ⟨by rw [Array.size_setIfInBounds, h.size_visits], h.size_flags, fun v => ?_, hnodup,
      fun v hv => ?_, hbelow.mono (fun _ hmark => hmark) hdone⟩
    · rw [getElem?_set_visit hlt]
      split
      · next heq =>
        subst heq
        exact ⟨fun hv => (by cases hv), fun hv => absurd hv hout⟩
      · next hne =>
        rw [h.inProgress_iff, List.map_cons, List.mem_cons, or_iff_right (Ne.symm hne)]
    · rw [getElem?_set_visit hlt] at hv
      split at hv
      · next heq => exact heq ▸ hacc
      · exact h.acc v hv
  exact settle hfinished (.inr (by rw [getElem?_set_visit hlt, if_pos rfl]))

/-- More flags leave fewer edges to follow. -/
theorem more_flags {flags' : Array Bool} (h : Exploring g visits flags child stack)
    (hsize : flags'.size = flags.size) (hflags : ∀ v, Marked flags v → Marked flags' v) :
    Exploring g visits flags' child stack :=
  ⟨h.size_visits, hsize.trans h.size_flags, h.inProgress_iff, h.nodup,
    fun u hu => acc_unflagged_mono hflags (h.acc u hu), h.explored.mono hflags fun _ hv => hv⟩

end Exploring

theorem exploring_start (g : γ) (hsize : flags.size = size g) :
    Exploring g (.replicate (size g) .unvisited) flags none [] where
  size_visits := Array.size_replicate
  size_flags := hsize
  inProgress_iff u := by simp [Array.getElem?_replicate]
  nodup := List.nodup_nil
  acc u hu := by simp [Array.getElem?_replicate] at hu
  explored := trivial

/-! ## The flag of a node -/

theorem size_flag (node : Nat) (flags : Flags) : (flag node flags).1.size = flags.1.size := by
  unfold flag
  split
  split
  · exact Array.size_setIfInBounds
  · rfl

theorem marked_flag {flags : Flags} (hnode : node < flags.1.size) :
    Marked (flag node flags).1 v ↔ v = node ∨ Marked flags.1 v := by
  obtain ⟨flags, count⟩ := flags
  unfold flag
  dsimp only at hnode ⊢
  split
  · rw [marked_setIfInBounds, and_iff_left hnode]
  · next hflag =>
    constructor
    · exact .inr
    · rintro (rfl | h)
      · exact marked_of_ne_false hnode hflag
      · exact h

/-! ## The whole search -/

structure Cut (g : γ) (flags result : Array Bool) : Prop where
  size_eq : result.size = flags.size
  mono : ∀ v, Marked flags v → Marked result v
  sound : ∀ v, Marked result v → Marked flags v ∨ TransGen (Edge g) v v

theorem Cut.refl (flags : Array Bool) : Cut g flags flags := ⟨rfl, fun _ h => h, fun _ h => .inl h⟩

theorem Cut.trans {first second third : Array Bool} (h₁ : Cut g first second)
    (h₂ : Cut g second third) : Cut g first third where
  size_eq := h₂.size_eq.trans h₁.size_eq
  mono v h := h₂.mono v (h₁.mono v h)
  sound v h := (h₂.sound v h).elim (h₁.sound v) .inr

/-- An edge into the stack closes a cycle, so that its end may be flagged. -/
theorem Exploring.cut_flag {flags : Flags} {more : List Nat} {below : List Frame}
    (h : Exploring g visits flags.1 (some next) ((node, more) :: below))
    (hnext : visits[next]? = some Visit.inProgress) : Cut g flags.1 (flag next flags).1 := by
  have hlt : next < flags.1.size := by
    rw [h.size_flags, ← h.size_visits]
    exact (Array.getElem?_eq_some_iff.mp hnext).1
  refine ⟨size_flag next flags, fun v hv => (marked_flag hlt).mpr (.inr hv), fun v hv => ?_⟩
  rcases (marked_flag hlt).mp hv with rfl | hv
  · have hpath : ReflTransGen (Edge g) v node := h.explored.path ((h.inProgress_iff v).mp hnext)
    exact .inr (.tail' hpath (h.explored.2.1 v rfl))
  · exact .inl hv

def raised (first second : Array Bool) : Set Nat := {v | ¬Marked first v ∧ Marked second v}

theorem finite_raised (first second : Array Bool) : (raised first second).Finite :=
  (Set.finite_lt_nat second.size).subset fun _ hv => hv.2.lt_size

structure Noted (g : γ) (before : Array Bool) (visits : Array Visit) (flags : Flags)
    (roots pushed : List Nat) : Prop where
  cut : Cut g before flags.1
  count_eq : flags.2 = (raised before flags.1).ncard
  nodup_pushed : pushed.Nodup
  mem_pushed_iff : ∀ u, u ∈ pushed ↔ u < visits.size ∧ visits[u]? ≠ some Visit.unvisited
  met : ∀ u, u < visits.size → u ∈ roots ∨ u ∈ pushed

namespace Noted

variable {before : Array Bool} {flags : Flags} {roots roots' pushed : List Nat}

/-- A node met for the first time has not been pushed before. -/
theorem push (h : Noted g before visits flags roots pushed)
    (hnode : visits[node]? = some Visit.unvisited)
    (hroots : ∀ u ∈ roots, u ∈ roots' ∨ u ∈ node :: pushed) :
    Noted g before (visits.setIfInBounds node .inProgress) flags roots' (node :: pushed) := by
  have hlt : node < visits.size := (Array.getElem?_eq_some_iff.mp hnode).1
  refine ⟨h.cut, h.count_eq, ?_, fun u => ?_, fun u hu => ?_⟩
  · apply List.nodup_cons.mpr ⟨?_, h.nodup_pushed⟩
    intro hmem
    exact ((h.mem_pushed_iff node).mp hmem).2 hnode
  · rw [Array.size_setIfInBounds, getElem?_set_visit hlt, List.mem_cons, h.mem_pushed_iff]
    by_cases heq : node = u
    · subst heq
      rw [if_pos rfl]
      exact iff_of_true (.inl rfl) ⟨hlt, fun hstate => by cases hstate⟩
    · rw [if_neg heq, or_iff_right (Ne.symm heq)]
  · rw [Array.size_setIfInBounds] at hu
    rcases h.met u hu with hmem | hmem
    · exact hroots u hmem
    · exact .inr (List.mem_cons_of_mem _ hmem)

/-- A root that has been met need not be tried. -/
theorem skip (h : Noted g before visits flags (node :: roots) pushed)
    (hnode : visits[node]? ≠ some Visit.unvisited) :
    Noted g before visits flags roots pushed := by
  refine ⟨h.cut, h.count_eq, h.nodup_pushed, h.mem_pushed_iff, fun u hu => ?_⟩
  rcases h.met u hu with hmem | hmem
  · rcases List.mem_cons.mp hmem with rfl | hmem
    · exact .inr ((h.mem_pushed_iff u).mpr ⟨hu, hnode⟩)
    · exact .inl hmem
  · exact .inr hmem

theorem finish (h : Noted g before visits flags roots pushed)
    (hnode : visits[node]? = some Visit.inProgress) :
    Noted g before (visits.setIfInBounds node .done) flags roots pushed := by
  have hlt : node < visits.size := (Array.getElem?_eq_some_iff.mp hnode).1
  refine ⟨h.cut, h.count_eq, h.nodup_pushed, fun u => ?_, fun u hu => ?_⟩
  · rw [Array.size_setIfInBounds, getElem?_set_visit hlt, h.mem_pushed_iff]
    by_cases heq : node = u
    · subst heq
      rw [if_pos rfl, hnode]
      exact and_congr_right fun _ =>
        iff_of_true (fun hstate => by cases hstate) (fun hstate => by cases hstate)
    · rw [if_neg heq]
  · rw [Array.size_setIfInBounds] at hu
    exact h.met u hu

/-- A flag that was set before is not counted again. -/
theorem flag (h : Noted g before visits flags roots pushed) (hlt : node < flags.1.size)
    (hcut : Cut g flags.1 (Graph.flag node flags).1) :
    Noted g before visits (Graph.flag node flags) roots pushed := by
  refine ⟨h.cut.trans hcut, ?_, h.nodup_pushed, h.mem_pushed_iff, h.met⟩
  by_cases hset : Marked flags.1 node
  · have hsame : Graph.flag node flags = flags := by
      have hne : flags.1[node]? ≠ some false := by
        rw [show flags.1[node]? = some true from hset]
        exact fun heq => by cases heq
      exact if_neg hne
    rw [hsame, h.count_eq]
  · have hunset : flags.1[node]? = some false := by
      by_contra hne
      exact hset (marked_of_ne_false hlt hne)
    have hcount : (Graph.flag node flags).2 = flags.2 + 1 := by
      have hflag : Graph.flag node flags = (flags.1.setIfInBounds node true, flags.2 + 1) :=
        if_pos hunset
      rw [hflag]
    have hraised : raised before (Graph.flag node flags).1 =
        insert node (raised before flags.1) := by
      ext v
      simp only [raised, Set.mem_insert_iff, Set.mem_ofPred_eq, marked_flag hlt]
      constructor
      · rintro ⟨hbefore, rfl | hmark⟩
        · exact .inl rfl
        · exact .inr ⟨hbefore, hmark⟩
      · rintro (rfl | ⟨hbefore, hmark⟩)
        · exact ⟨fun hbefore => hset (h.cut.mono v hbefore), .inl rfl⟩
        · exact ⟨hbefore, .inr hmark⟩
    have hnew : node ∉ raised before flags.1 := fun hmem => hset hmem.2
    rw [hcount, hraised, Set.ncard_insert_of_notMem hnew (finite_raised _ _), h.count_eq]

end Noted

structure Searching (g : γ) (before : Array Bool) (s : Search) : Prop where
  exploring : Exploring g s.visits s.flags.1 none s.stack
  noted : Noted g before s.visits s.flags s.roots s.pushed

namespace Searching

variable {before : Array Bool} {s t : Search}

theorem start (g : γ) (hsize : before.size = size g) : Searching g before (.start g before) where
  exploring := exploring_start g hsize
  noted := by
    refine ⟨.refl before, ?_, List.nodup_nil, fun u => ?_, fun u hu => .inl ?_⟩
    · have hnone : raised before before = ∅ := by
        ext v
        simp [raised]
      show 0 = (raised before before).ncard
      rw [hnone, Set.ncard_empty]
    · simp [Search.start, Array.getElem?_replicate]
    · rw [Search.start, Array.size_replicate] at hu
      exact List.mem_append_right _ (List.mem_range.mpr hu)

/-- Every pass keeps the invariant. -/
theorem pass (hg : Closed g) (h : Searching g before s) (hpass : s.pass? g = some t) :
    Searching g before t := by
  obtain ⟨visits, flags, stack, roots, pushed⟩ := s
  obtain ⟨hexploring, hnoted⟩ := h
  dsimp only at hexploring hnoted
  match stack, roots with
  | [], [] => cases hpass
  | [], root :: roots =>
    simp only [Search.pass?] at hpass
    split at hpass
    · next hroot =>
      cases hpass
      have hstart : Exploring g visits flags.1 (some root) [] :=
        ⟨hexploring.size_visits, hexploring.size_flags, hexploring.inProgress_iff,
          hexploring.nodup, hexploring.acc, trivial⟩
      refine ⟨hstart.push hroot, hnoted.push hroot fun u hu => ?_⟩
      rcases List.mem_cons.mp hu with rfl | hu
      · exact .inr List.mem_cons_self
      · exact .inl hu
    · next hroot =>
      cases hpass
      exact ⟨hexploring, hnoted.skip hroot⟩
  | (node, []) :: below, roots =>
    cases hpass
    have hnode : visits[node]? = some Visit.inProgress :=
      (hexploring.inProgress_iff node).mpr (by simp)
    exact ⟨hexploring.finish, hnoted.finish hnode⟩
  | (node, next :: more) :: below, roots =>
    have hlt : next < visits.size := by
      rw [hexploring.size_visits]
      exact hg (hexploring.take.explored.2.1 next rfl)
    simp only [Search.pass?] at hpass
    split at hpass
    · next hnext =>
      cases hpass
      exact ⟨hexploring.take.push hnext, hnoted.push hnext fun u hu => .inl hu⟩
    · next hnext =>
      cases hpass
      have hcut := hexploring.take.cut_flag hnext
      have hflag : next < flags.1.size := by
        rw [hexploring.size_flags, ← hexploring.size_visits]
        exact hlt
      refine ⟨(hexploring.take.more_flags hcut.size_eq hcut.mono).settle
        (.inl ((marked_flag hflag).mpr (.inl rfl))), hnoted.flag hflag hcut⟩
    · next hunvisited hprogress =>
      cases hpass
      have hdone : visits[next]? = some Visit.done := by
        rw [Array.getElem?_eq_getElem hlt] at hunvisited hprogress ⊢
        cases hstate : visits[next] with
        | unvisited => exact absurd (by rw [hstate]) hunvisited
        | inProgress => exact absurd (by rw [hstate]) hprogress
        | done => rfl
      exact ⟨hexploring.take.settle (.inr hdone), hnoted⟩

end Searching

/-- The search ends, with every node finished. -/
theorem exists_search (hg : Closed g) (hsize : flags.size = size g) :
    ∃ n t, EndsAfter (Search.pass? g) n (.start g flags) t ∧ t.flags = markCycles g flags ∧
      Searching g flags t ∧ ∀ u, u < size g → t.visits[u]? = some Visit.done := by
  obtain ⟨n, t, hends, hflags⟩ := Search.exists_endsAfter g (.start g flags)
  obtain ⟨hsearching, hstop⟩ :=
    hends.invariant (P := Searching g flags) (fun _ _ hs => hs.pass hg) (.start g hsize)
  obtain ⟨hstack, hroots⟩ := Search.pass?_eq_none hstop
  refine ⟨n, t, hends, hflags, hsearching, fun u hu => ?_⟩
  have hget : u < t.visits.size := hsearching.exploring.size_visits ▸ hu
  have hpushed : u ∈ t.pushed := by
    rcases hsearching.noted.met u hget with hmem | hmem
    · rw [hroots] at hmem
      cases hmem
    · exact hmem
  have hvisited := ((hsearching.noted.mem_pushed_iff u).mp hpushed).2
  have hprogress := hsearching.exploring.inProgress_iff u
  rw [hstack] at hprogress
  rw [Array.getElem?_eq_getElem hget] at hvisited hprogress ⊢
  cases hstate : t.visits[u] with
  | unvisited => exact absurd (by rw [hstate]) hvisited
  | inProgress => simp [hstate] at hprogress
  | done => rfl

theorem markCycles_spec (hg : Closed g) (hsize : flags.size = size g) :
    Cut g flags (markCycles g flags).1 ∧
      ∀ u, u < size g → Acc (Unflagged g (markCycles g flags).1) u := by
  obtain ⟨-, t, -, hflags, hsearching, hdone⟩ := exists_search hg hsize
  rw [← hflags]
  exact ⟨hsearching.noted.cut, fun u hu => hsearching.exploring.acc u (hdone u hu)⟩

theorem not_rel_self_of_acc {α : Type} {r : α → α → Prop} {a : α} (h : Acc r a) : ¬r a a := by
  induction h with
  | intro a _ ih => exact fun ha => ih a ha ha

/-- Without a flagged node every step of a cycle would lead down to a node finished before. -/
theorem exists_flagged_of_acc {result : Array Bool} (hacc : Acc (Unflagged g result) v)
    (hcycle : TransGen (Edge g) v v) :
    ∃ u, Marked result u ∧ ReflTransGen (Edge g) v u ∧ ReflTransGen (Edge g) u v := by
  by_contra hnone
  have hdown : ∀ w, TransGen (Edge g) v w → ReflTransGen (Edge g) w v →
      TransGen (Unflagged g result) w v := by
    intro w hvw hwv
    induction hvw with
    | single hedge =>
      exact .single ⟨hedge, fun hmark => hnone ⟨_, hmark, .single hedge, hwv⟩⟩
    | tail hpath hedge ih =>
      have hstep := ih (.head hedge hwv)
      exact .head ⟨hedge, fun hmark => hnone ⟨_, hmark, hpath.to_reflTransGen.tail hedge, hwv⟩⟩
        hstep
  have hloop := hdown v hcycle .refl
  exact not_rel_self_of_acc hacc.transGen hloop

theorem markCycles_cuts (hg : Closed g) (hsize : flags.size = size g)
    (hcycle : TransGen (Edge g) v v) :
    ∃ u, Marked (markCycles g flags).1 u ∧ ReflTransGen (Edge g) v u ∧
      ReflTransGen (Edge g) u v := by
  have hlt : v < size g := by
    obtain ⟨w, -, hedge⟩ := TransGen.tail'_iff.mp hcycle
    exact hg hedge
  exact exists_flagged_of_acc ((markCycles_spec hg hsize).2 v hlt) hcycle

end MethodFlow.Graph
