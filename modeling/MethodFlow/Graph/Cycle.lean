import MethodFlow.Graph.Basic
/-!
# Cutting cycles

A depth-first search that flags the target of every edge leading back into the path being
explored. Every cycle contains a flagged node then, and every newly flagged node lies on a cycle.
-/

namespace MethodFlow.Graph

variable {γ : Type} [Graph γ]

inductive Visit where
  | unvisited
  | inProgress
  | done
deriving DecidableEq, Repr

/-- A node on the path being explored, with its successors not yet looked at. -/
abbrev Frame := Nat × List Nat

/-- The work left in a stack of frames: one unit for each frame and each successor in it. -/
def pending (stack : List Frame) : Nat := stack.length + (stack.flatMap (·.2)).length

theorem count_unvisited_setIfInBounds {visits : Array Visit} {node : Nat}
    (h : visits[node]? = some .unvisited) :
    (visits.setIfInBounds node .inProgress).count .unvisited < visits.count .unvisited := by
  obtain ⟨hlt, hnode⟩ := Array.getElem?_eq_some_iff.mp h
  have hpos : 0 < visits.count .unvisited :=
    Array.count_pos_iff.mpr (hnode ▸ Array.getElem_mem hlt)
  rw [Array.setIfInBounds_def, dif_pos hlt, Array.count_set hlt, hnode, beq_self_eq_true, if_pos rfl,
    if_neg (by decide), Nat.add_zero]
  exact Nat.sub_lt hpos Nat.one_pos

theorem count_unvisited_done (visits : Array Visit) (node : Nat) :
    (visits.setIfInBounds node .done).count .unvisited ≤ visits.count .unvisited := by
  rw [Array.setIfInBounds_def]
  split
  · rename_i hlt
    rw [Array.count_set hlt]
    simp
  · exact Nat.le_refl _

abbrev Flags := Array Bool × Nat

def flag (node : Nat) : Flags → Flags
  | (flags, count) =>
    if flags[node]? = some false then (flags.setIfInBounds node true, count + 1)
    else (flags, count)

/-- Explores the frames of the stack, then starts from the roots not yet visited. -/
def cutCycles (g : γ) (visits : Array Visit) (flags : Flags) :
    (stack : List Frame) → (roots : List Nat) → Flags
  | [], [] => flags
  | [], root :: roots =>
    if visits[root]? = some .unvisited then
      cutCycles g (visits.setIfInBounds root .inProgress) flags [(root, successors g root)] roots
    else cutCycles g visits flags [] roots
  | (node, []) :: below, roots =>
    cutCycles g (visits.setIfInBounds node .done) flags below roots
  | (node, next :: more) :: below, roots =>
    match _unvisited : visits[next]? with
    | some .unvisited =>
      cutCycles g (visits.setIfInBounds next .inProgress) flags
        ((next, successors g next) :: (node, more) :: below) roots
    | some .inProgress => cutCycles g visits (flag next flags) ((node, more) :: below) roots
    | _ => cutCycles g visits flags ((node, more) :: below) roots
termination_by stack roots => (visits.count .unvisited, pending stack + roots.length)
decreasing_by
  · exact Prod.Lex.left _ _ (count_unvisited_setIfInBounds ‹_›)
  · exact Prod.Lex.right _ (by simp)
  · rcases Nat.lt_or_eq_of_le (count_unvisited_done visits node) with hlt | heq
    · exact Prod.Lex.left _ _ hlt
    · rw [heq]
      exact Prod.Lex.right _ (by simp [pending])
  · exact Prod.Lex.left _ _ (count_unvisited_setIfInBounds _unvisited)
  · exact Prod.Lex.right _ (by simp [pending])
  · exact Prod.Lex.right _ (by simp [pending])

/-- Flags a node of every cycle, starting from the nodes without predecessors and then from all;
tells how many nodes were flagged that were not before. -/
def markCycles (g : γ) (flags : Array Bool) : Flags :=
  let nodes := List.range (size g)
  let sources := nodes.filter fun node => (predecessors g node).isEmpty
  cutCycles g (.replicate (size g) .unvisited) (flags, 0) [] (sources ++ nodes)

end MethodFlow.Graph
