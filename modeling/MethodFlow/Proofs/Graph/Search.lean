import MethodFlow.Graph.Cycle
import MethodFlow.Proofs.Loops
/-!
# The search for cycles, pass by pass

What the depth-first search has done so far is more than its flags: which nodes it has met, and in
which order it gave them a frame.  Here a pass of the search leads from one state to the next:

* `Search.exists_endsAfter`: the passes come to an end, with the flags of the whole search.
-/

namespace MethodFlow.Graph

variable {γ : Type} [Graph γ] {g : γ}

structure Search where
  visits : Array Visit
  flags : Flags
  stack : List Frame
  /-- The nodes that the search still has to start from. -/
  roots : List Nat
  /-- The nodes that have been given a frame, the last one first. -/
  pushed : List Nat

namespace Search

def start (g : γ) (flags : Array Bool) : Search where
  visits := .replicate (size g) .unvisited
  flags := (flags, 0)
  stack := []
  roots := ((List.range (size g)).filter fun node => (predecessors g node).isEmpty) ++
    List.range (size g)
  pushed := []

/-- A node met for the first time gets a frame with its successors. -/
def push (g : γ) (s : Search) (node : Nat) : Search :=
  { s with
    visits := s.visits.setIfInBounds node .inProgress
    stack := (node, successors g node) :: s.stack
    pushed := node :: s.pushed }

/-- A pass looks at one successor of the node on top, finishes the node, or tries a root. -/
def pass? (g : γ) (s : Search) : Option Search :=
  match s.stack, s.roots with
  | [], [] => none
  | [], root :: roots =>
    let s := { s with roots }
    if s.visits[root]? = some .unvisited then some (s.push g root) else some s
  | (node, []) :: below, _ =>
    some { s with visits := s.visits.setIfInBounds node .done, stack := below }
  | (node, next :: more) :: below, _ =>
    let s := { s with stack := (node, more) :: below }
    match s.visits[next]? with
    | some Visit.unvisited => some (s.push g next)
    | some Visit.inProgress => some { s with flags := flag next s.flags }
    | _ => some s

/-- The search is over when there is neither a path to explore nor a root to try. -/
theorem pass?_eq_none {s : Search} (h : s.pass? g = none) : s.stack = [] ∧ s.roots = [] := by
  obtain ⟨visits, flags, stack, roots, pushed⟩ := s
  match stack, roots with
  | [], [] => exact ⟨rfl, rfl⟩
  | [], root :: roots =>
    simp only [pass?] at h
    split at h <;> cases h
  | (node, []) :: below, roots => cases h
  | (node, next :: more) :: below, roots =>
    simp only [pass?] at h
    split at h <;> cases h

/-- The passes make the calls of the recursive search, so that they end where it does. -/
theorem exists_endsAfter (g : γ) (s : Search) :
    ∃ n t, EndsAfter (pass? g) n s t ∧ t.flags = cutCycles g s.visits s.flags s.stack s.roots := by
  obtain ⟨visits, flags, stack, roots, pushed⟩ := s
  dsimp only
  fun_induction cutCycles g visits flags stack roots generalizing pushed with
  | case1 visits flags => exact ⟨0, _, .stop rfl, rfl⟩
  | case2 visits flags root roots hroot ih =>
    obtain ⟨n, t, hends, hflags⟩ := ih (root :: pushed)
    exact ⟨n + 1, t, .pass (if_pos hroot) hends, hflags⟩
  | case3 visits flags root roots hroot ih =>
    obtain ⟨n, t, hends, hflags⟩ := ih pushed
    exact ⟨n + 1, t, .pass (if_neg hroot) hends, hflags⟩
  | case4 visits flags node below roots ih =>
    obtain ⟨n, t, hends, hflags⟩ := ih pushed
    exact ⟨n + 1, t, .pass rfl hends, hflags⟩
  | case5 visits flags node next more below roots hnext ih =>
    obtain ⟨n, t, hends, hflags⟩ := ih (next :: pushed)
    refine ⟨n + 1, t, .pass ?_ hends, hflags⟩
    simp only [pass?, hnext]
    rfl
  | case6 visits flags node next more below roots hnext ih =>
    obtain ⟨n, t, hends, hflags⟩ := ih pushed
    refine ⟨n + 1, t, .pass ?_ hends, hflags⟩
    simp only [pass?, hnext]
  | case7 visits flags node next more below roots hunvisited hprogress ih =>
    obtain ⟨n, t, hends, hflags⟩ := ih pushed
    refine ⟨n + 1, t, .pass ?_ hends, hflags⟩
    simp only [pass?]

end Search

end MethodFlow.Graph
