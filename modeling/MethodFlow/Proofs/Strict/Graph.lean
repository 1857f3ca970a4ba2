import MethodFlow.Proofs.Graph.Cycle
import MethodFlow.Proofs.Loops
import MethodFlow.Proofs.Strict.Table
/-!
# Strict graphs

Building a graph, spreading marks along its edges and searching it for cycles, with strict tables:

* `ofEdges_eq_ok`: a table grows before an edge is put into it, whatever the edge;
* `spread_eq_ok`, `markCycles_eq_ok`: no edge of a closed graph leads out of a table with an entry
  for each node.
-/

namespace MethodFlow.Strict

open MethodFlow.Graph

/-! ## Building -/

section Building

open MethodFlow.Adjacency

def addEdge (b : Builder) (source target : Nat) : Except Violation Builder := do
  let b := b.grow (max source target + 1)
  return ⟨← update b.targets source (target :: ·)⟩

def recordSource (predecessors : Array (List Nat)) (node : Nat) (targets : List Nat) :
    Except Violation (Array (List Nat)) :=
  targets.foldlM (fun table target => update table target (node :: ·)) predecessors

def build (b : Builder) : Except Violation Adjacency := do
  let successors := b.targets.map Ascending.ofList
  let predecessors ← (List.range successors.size).foldrM
    (fun node table => do recordSource table node (← read successors node))
    (.replicate successors.size [])
  return ⟨successors, predecessors⟩

def ofEdges (size : Nat) (edges : List (Nat × Nat)) : Except Violation Adjacency := do
  build (← edges.foldlM (fun b (source, target) => addEdge b source target) (Builder.ofSize size))

variable {b : Builder} {table : Array (List Nat)} {node : Nat} {targets : List Nat}

theorem addEdge_eq_ok (b : Builder) (source target : Nat) :
    addEdge b source target = .ok (b.addEdge source target) := by
  have hlt : source < (b.grow (max source target + 1)).targets.size := by
    rw [Builder.size_grow]
    omega
  unfold addEdge
  dsimp only
  rw [update_eq_ok hlt]
  rfl

theorem recordSource_eq_ok (h : ∀ target ∈ targets, target < table.size) :
    recordSource table node targets = .ok (Builder.recordSource table node targets) := by
  refine (foldlM_eq_ok (P := fun t => t.size = table.size) rfl fun target htarget t ht => ?_).1
  exact ⟨update_eq_ok (ht ▸ h target htarget), by rw [Array.size_modify, ht]⟩

theorem build_eq_ok (h : ∀ u v, v ∈ b.row u → v < b.targets.size) : build b = .ok b.build := by
  have hsize : (b.targets.map Ascending.ofList).size = b.targets.size := Array.size_map
  have hrow : ∀ u v, v ∈ (b.targets.map Ascending.ofList)[u]?.getD [] → v < b.targets.size :=
    fun u v hv => h u v (Builder.edge_build.mp hv)
  have hloop : (List.range b.targets.size).foldrM
      (fun node table => do
        recordSource table node (← read (b.targets.map Ascending.ofList) node))
      (.replicate b.targets.size []) =
        .ok ((List.range b.targets.size).foldr (fun node table => Builder.recordSource table node
          ((b.targets.map Ascending.ofList)[node]?.getD [])) (.replicate b.targets.size [])) := by
    refine (foldrM_eq_ok (P := fun t => t.size = b.targets.size) Array.size_replicate ?_).1
    intro node hnode t ht
    rw [read_eq_ok_getD (hsize.symm ▸ List.mem_range.mp hnode) []]
    exact ⟨recordSource_eq_ok fun v hv => ht ▸ hrow node v hv, by
      rw [Builder.size_recordSource, ht]⟩
  unfold build Builder.build
  simp only [hsize]
  rw [hloop]
  rfl

/-- A graph of any edges is built without leaving a table. -/
theorem ofEdges_eq_ok (size : Nat) (edges : List (Nat × Nat)) :
    ofEdges size edges = .ok (Adjacency.ofEdges size edges) := by
  have hloop : edges.foldlM (fun b (edge : Nat × Nat) => addEdge b edge.1 edge.2)
      (Builder.ofSize size) = .ok ((Builder.ofSize size).addEdges edges) :=
    (foldlM_eq_ok (P := fun _ => True) trivial fun edge _ b _ =>
      ⟨addEdge_eq_ok b edge.1 edge.2, trivial⟩).1
  unfold ofEdges
  rw [hloop]
  refine build_eq_ok fun u v hv => ?_
  have hedge : (u, v) ∈ edges := by
    rwa [Builder.mem_row_addEdges, Builder.row_ofSize, or_iff_left List.not_mem_nil] at hv
  have := Builder.lt_size_addEdges (b := Builder.ofSize size) hedge
  omega

end Building

variable {γ : Type} [Graph γ] {g : γ} {marks : Array Bool} {visits : Array Visit} {flags : Flags}
  {stack : List Frame} {work roots more : List Nat} {node : Nat}

/-! ## Spreading -/

def spread (g : γ) (marks : Array Bool) : (work : List Nat) → Except Violation (Array Bool)
  | [] => .ok marks
  | node :: rest =>
    match _unmarked : marks[node]? with
    | some false => spread g (marks.setIfInBounds node true) (successors g node ++ rest)
    | some true => spread g marks rest
    | none => .error .outsideTable
termination_by work => (marks.count false, work.length)
decreasing_by
  · exact Prod.Lex.left _ _ (count_false_setIfInBounds _unmarked)
  · exact Prod.Lex.right _ (Nat.lt_succ_self _)

theorem spread_eq_ok (hg : Closed g) (hsize : marks.size = size g)
    (hwork : ∀ node ∈ work, node < size g) :
    spread g marks work = .ok (Graph.spread g marks work) := by
  fun_induction Graph.spread g marks work with
  | case1 marks => rw [spread]
  | case2 marks node rest hnode ih =>
    have hrest : ∀ u ∈ successors g node ++ rest, u < size g := by
      intro u hu
      rcases List.mem_append.mp hu with hu | hu
      · exact hg hu
      · exact hwork u (List.mem_cons_of_mem _ hu)
    rw [spread, ← ih (by rw [Array.size_setIfInBounds, hsize]) hrest]
    split
    · rfl
    · next hmarked => rw [hnode] at hmarked; cases hmarked
    · next hout => rw [hnode] at hout; cases hout
  | case3 marks node rest hnode ih =>
    have hlt : node < marks.size := hsize ▸ hwork node List.mem_cons_self
    have hmarked : marks[node]? = some true := marked_of_ne_false hlt hnode
    rw [spread, ← ih hsize fun u hu => hwork u (List.mem_cons_of_mem _ hu)]
    split
    · next hunmarked => exact absurd hunmarked hnode
    · rfl
    · next hout => rw [hmarked] at hout; cases hout

/-! ## Cutting cycles -/

def flag (node : Nat) : Flags → Except Violation Flags
  | (flags, count) => do
    if ← read flags node then return (flags, count)
    else return (← write flags node true, count + 1)

def cutCycles (g : γ) (visits : Array Visit) (flags : Flags) :
    (stack : List Frame) → (roots : List Nat) → Except Violation Flags
  | [], [] => .ok flags
  | [], root :: roots =>
    match _unvisited : visits[root]? with
    | some .unvisited =>
      cutCycles g (visits.setIfInBounds root .inProgress) flags [(root, successors g root)] roots
    | some _ => cutCycles g visits flags [] roots
    | none => .error .outsideTable
  | (node, []) :: below, roots =>
    if node < visits.size then cutCycles g (visits.setIfInBounds node .done) flags below roots
    else .error .outsideTable
  | (node, next :: more) :: below, roots =>
    match _unvisited : visits[next]? with
    | some .unvisited =>
      cutCycles g (visits.setIfInBounds next .inProgress) flags
        ((next, successors g next) :: (node, more) :: below) roots
    | some .inProgress => do
      cutCycles g visits (← flag next flags) ((node, more) :: below) roots
    | some .done => cutCycles g visits flags ((node, more) :: below) roots
    | none => .error .outsideTable
termination_by stack roots => (visits.count .unvisited, pending stack + roots.length)
decreasing_by
  · exact Prod.Lex.left _ _ (count_unvisited_setIfInBounds _unvisited)
  · exact Prod.Lex.right _ (by simp)
  · rcases Nat.lt_or_eq_of_le (count_unvisited_done visits node) with hlt | heq
    · exact Prod.Lex.left _ _ hlt
    · rw [heq]
      exact Prod.Lex.right _ (by simp [pending])
  · exact Prod.Lex.left _ _ (count_unvisited_setIfInBounds _unvisited)
  · exact Prod.Lex.right _ (by simp [pending])
  · exact Prod.Lex.right _ (by simp [pending])

def markCycles (g : γ) (flags : Array Bool) : Except Violation Flags :=
  let nodes := List.range (size g)
  let sources := nodes.filter fun node => (predecessors g node).isEmpty
  cutCycles g (.replicate (size g) .unvisited) (flags, 0) [] (sources ++ nodes)

theorem flag_eq_ok (h : node < flags.1.size) : flag node flags = .ok (Graph.flag node flags) := by
  obtain ⟨flags, count⟩ := flags
  unfold flag Graph.flag
  dsimp only at h ⊢
  rw [Array.getElem?_eq_getElem h, read_eq_ok (Array.getElem?_eq_getElem h), write_eq_ok h]
  cases flags[node] <;> rfl

structure Tabled (g : γ) (visits : Array Visit) (flags : Flags) (stack : List Frame)
    (roots : List Nat) : Prop where
  size_visits : visits.size = size g
  size_flags : flags.1.size = size g
  frames : ∀ frame ∈ stack, frame.1 < size g ∧ ∀ next ∈ frame.2, next < size g
  roots : ∀ root ∈ roots, root < size g

namespace Tabled

theorem root {root : Nat} (h : Tabled g visits flags stack (root :: roots)) :
    root < size g ∧ Tabled g visits flags stack roots :=
  ⟨h.roots root List.mem_cons_self, h.size_visits, h.size_flags, h.frames,
    fun u hu => h.roots u (List.mem_cons_of_mem _ hu)⟩

/-- A node that is met gets a frame with its successors. -/
theorem push (hg : Closed g) (h : Tabled g visits flags stack roots) (hnode : node < size g)
    (visit : Visit) : Tabled g (visits.setIfInBounds node visit) flags
      ((node, successors g node) :: stack) roots where
  size_visits := Array.size_setIfInBounds.trans h.size_visits
  size_flags := h.size_flags
  frames := List.forall_mem_cons.mpr ⟨⟨hnode, fun _ hnext => hg hnext⟩, h.frames⟩
  roots := h.roots

theorem pop {below : List Frame} (h : Tabled g visits flags ((node, more) :: below) roots)
    (visit : Visit) :
    node < size g ∧ Tabled g (visits.setIfInBounds node visit) flags below roots := by
  obtain ⟨⟨hnode, -⟩, hbelow⟩ := List.forall_mem_cons.mp h.frames
  exact ⟨hnode, Array.size_setIfInBounds.trans h.size_visits, h.size_flags, hbelow, h.roots⟩

theorem take {below : List Frame} {next : Nat}
    (h : Tabled g visits flags ((node, next :: more) :: below) roots) :
    next < size g ∧ Tabled g visits flags ((node, more) :: below) roots := by
  obtain ⟨⟨hnode, hmore⟩, hbelow⟩ := List.forall_mem_cons.mp h.frames
  obtain ⟨hnext, hmore⟩ := List.forall_mem_cons.mp hmore
  exact ⟨hnext, h.size_visits, h.size_flags,
    List.forall_mem_cons.mpr ⟨⟨hnode, hmore⟩, hbelow⟩, h.roots⟩

theorem flag (h : Tabled g visits flags stack roots) (node : Nat) :
    Tabled g visits (Graph.flag node flags) stack roots :=
  ⟨h.size_visits, (size_flag node flags).trans h.size_flags, h.frames, h.roots⟩

/-- A node has an entry in the table of visits. -/
theorem exists_visit (h : Tabled g visits flags stack roots) (hnode : node < size g) :
    ∃ visit, visits[node]? = some visit :=
  ⟨_, Array.getElem?_eq_getElem (h.size_visits ▸ hnode)⟩

end Tabled

theorem cutCycles_eq_ok (hg : Closed g) (h : Tabled g visits flags stack roots) :
    cutCycles g visits flags stack roots = .ok (Graph.cutCycles g visits flags stack roots) := by
  fun_induction Graph.cutCycles g visits flags stack roots with
  | case1 visits flags => rw [cutCycles]
  | case2 visits flags root roots hroot ih =>
    obtain ⟨hlt, hrest⟩ := h.root
    rw [cutCycles, ← ih (hrest.push hg hlt _)]
    split <;> simp_all
  | case3 visits flags root roots hroot ih =>
    obtain ⟨hlt, hrest⟩ := h.root
    obtain ⟨visit, hvisit⟩ := h.exists_visit hlt
    rw [cutCycles, ← ih hrest]
    split <;> simp_all
  | case4 visits flags node below roots ih =>
    obtain ⟨hlt, hbelow⟩ := h.pop .done
    rw [cutCycles, if_pos (h.size_visits ▸ hlt), ← ih hbelow]
  | case5 visits flags node next more below roots hnext ih =>
    obtain ⟨hlt, hrest⟩ := h.take
    rw [cutCycles, ← ih (hrest.push hg hlt _)]
    split <;> simp_all
  | case6 visits flags node next more below roots hnext ih =>
    obtain ⟨hlt, hrest⟩ := h.take
    rw [cutCycles, ← ih (hrest.flag next), flag_eq_ok (h.size_flags ▸ hlt)]
    split
    · next hunvisited => rw [hnext] at hunvisited; cases hunvisited
    · rfl
    · next hdone => rw [hnext] at hdone; cases hdone
    · next hout => rw [hnext] at hout; cases hout
  | case7 visits flags node next more below roots hunvisited hprogress ih =>
    obtain ⟨hlt, hrest⟩ := h.take
    obtain ⟨visit, hvisit⟩ := h.exists_visit hlt
    rw [cutCycles, ← ih hrest]
    split <;> simp_all

theorem markCycles_eq_ok (hg : Closed g) {flags : Array Bool} (hsize : flags.size = size g) :
    markCycles g flags = .ok (Graph.markCycles g flags) := by
  refine cutCycles_eq_ok hg
    ⟨Array.size_replicate, hsize, fun frame hframe => absurd hframe List.not_mem_nil, ?_⟩
  intro root hroot
  rcases List.mem_append.mp hroot with hroot | hroot
  · exact List.mem_range.mp (List.mem_filter.mp hroot).1
  · exact List.mem_range.mp hroot

end MethodFlow.Strict
