import MethodFlow.Graph.Basic
/-!
# Reachable nodes

Which nodes can be reached from given ones along edges, the given ones included.
-/

namespace MethodFlow.Graph

variable {γ : Type} [Graph γ]

theorem count_false_setIfInBounds {marks : Array Bool} {node : Nat}
    (h : marks[node]? = some false) :
    (marks.setIfInBounds node true).count false < marks.count false := by
  obtain ⟨hlt, hnode⟩ := Array.getElem?_eq_some_iff.mp h
  have hpos : 0 < marks.count false := Array.count_pos_iff.mpr (hnode ▸ Array.getElem_mem hlt)
  rw [Array.setIfInBounds_def, dif_pos hlt, Array.count_set hlt, hnode, beq_self_eq_true, if_pos rfl,
    if_neg (by decide), Nat.add_zero]
  exact Nat.sub_lt hpos Nat.one_pos

/-- Marks the nodes of a worklist and all that can be reached from them through unmarked nodes. -/
def spread (g : γ) (marks : Array Bool) : (work : List Nat) → Array Bool
  | [] => marks
  | node :: rest =>
    if marks[node]? = some false then
      spread g (marks.setIfInBounds node true) (successors g node ++ rest)
    else spread g marks rest
termination_by work => (marks.count false, work.length)
decreasing_by
  · exact Prod.Lex.left _ _ (count_false_setIfInBounds ‹_›)
  · exact Prod.Lex.right _ (Nat.lt_succ_self _)

def reachable (g : γ) (starts : List Nat) : Array Bool :=
  spread g (.replicate (size g) false) starts

end MethodFlow.Graph
