import MethodFlow.Proofs.ControlFlow.Reachability
import Mathlib.Data.List.Permutation
/-!
# Control flow from both ends

The edges that follow from the last instructions are sorted, freed of repetitions and turned
around.  As long as the blocks carry the numbers of their places, nothing is lost:

* `targetsKnown_of_controlEdges`: edges are found only if the program has every block that a last
  instruction names;
* `goesOn_of_block`: where control goes from a block;
* `controlFlow_dual`: the graph and the lists of predecessors fail together, and else hold the same
  edges.
-/

namespace MethodFlow

open MethodFlow.Graph

namespace Program

variable {p : Program} {b : Block} {l m : Label} {g : Adjacency} {edges : List (Nat × Nat)}

/-! ## When edges are found -/

/-- The last instruction of some block may transfer control to a block that the program does not
have. -/
def LosesControl (p : Program) : Prop :=
  ∃ b ∈ p.blocks, ∃ i, b.last? = some i ∧ ∃ m ∈ i.targets, p.blockCount ≤ m.index

theorem losesControl_iff : p.LosesControl ↔ ¬p.TargetsKnown := by
  constructor
  · rintro ⟨b, hb, i, hlast, m, hm, hout⟩ hknown
    have htransfer := Instruction.isControlTransfer_of_mem_targets hm
    have hlt := hknown b hb _ (Block.targets?_eq_some_iff.mpr ⟨i, hlast, htransfer, rfl⟩) m hm
    omega
  · intro hunknown
    by_contra hkept
    refine hunknown fun b hb targets htargets m hm => ?_
    obtain ⟨i, hlast, -, rfl⟩ := Block.targets?_eq_some_iff.mp htargets
    by_contra hout
    exact hkept ⟨b, hb, i, hlast, m, hm, Nat.le_of_not_lt hout⟩

theorem targetsKnown_of_controlEdges (hlabel : p.Labelled) (h : p.controlEdges = .ok edges) :
    p.TargetsKnown := by
  intro b hb targets htargets m hm
  obtain ⟨rows, hrows, -⟩ := exists_rows h
  obtain ⟨row, -, hrow⟩ := (exists_of_mapM_eq_ok hrows).1 b (Array.mem_toList_iff.mpr hb)
  obtain ⟨found, hfound, hall, -⟩ := edgesFrom_eq_ok_iff.mp hrow
  rw [successors_of_block (hlabel.getElem?_label hb), htargets] at hfound
  cases hfound
  exact hall m hm

/-- A graph that has been found is built from the edges. -/
theorem exists_of_controlFlow (h : p.controlFlow = .ok g) :
    ∃ edges, p.controlEdges = .ok edges ∧ g = .ofEdges p.blockCount edges := by
  unfold controlFlow at h
  cases hedges : p.controlEdges with
  | error =>
    rw [hedges] at h
    cases h
  | ok edges =>
    rw [hedges] at h
    cases h
    exact ⟨edges, rfl, rfl⟩

theorem predecessors_eq_map (p : Program) :
    p.predecessors = p.controlFlow.map fun g =>
      (List.range p.blockCount).map (Graph.predecessors g) := by
  unfold predecessors
  cases p.controlFlow <;> rfl

theorem controlFlow_eq_error_iff (hlabel : p.Labelled) :
    (∃ e, p.controlFlow = .error e) ↔ p.LosesControl := by
  rw [losesControl_iff]
  constructor
  · rintro ⟨e, he⟩ hknown
    obtain ⟨g, hg, -⟩ := exists_controlFlow hknown hlabel
    rw [hg] at he
    cases he
  · intro hunknown
    cases hg : p.controlFlow with
    | error e => exact ⟨e, rfl⟩
    | ok g =>
      obtain ⟨edges, hedges, -⟩ := exists_of_controlFlow hg
      exact absurd (targetsKnown_of_controlEdges hlabel hedges) hunknown

/-! ## Where control goes from a block -/

/-- Control goes to the targets of a last instruction that transfers it, and else to the next block
if there is one. -/
structure GoesOn (p : Program) (l : Label) (b : Block) : Prop where
  transferred : ∀ i, b.last? = some i → i.isControlTransfer = true →
    p.successors l = .ok i.targets
  exited : ∀ value, b.last? = some (.exit value) → p.successors l = .ok []
  raised : ∀ exception, b.last? = some (.raise exception) → p.successors l = .ok []
  fallen : (∀ i, b.last? = some i → i.isControlTransfer = false) →
    ∀ m : Label, m.index = l.index + 1 → m.index < p.blockCount → p.successors l = .ok [m]
  ended : (∀ i, b.last? = some i → i.isControlTransfer = false) →
    l.index + 1 = p.blockCount → p.successors l = .ok []

theorem goesOn_of_block (hb : p.blocks[l.index]? = some b) : p.GoesOn l b := by
  have htransferred : ∀ i, b.last? = some i → i.isControlTransfer = true →
      p.successors l = .ok i.targets := by
    intro i hlast htransfer
    rw [successors_of_block hb, Block.targets?_eq_some_iff.mpr ⟨i, hlast, htransfer, rfl⟩]
    rfl
  have hthrough : (∀ i, b.last? = some i → i.isControlTransfer = false) →
      p.successors l = .ok (p.following l) := by
    intro hkept
    have hnone : b.targets? = none := by
      rw [Option.eq_none_iff_forall_ne_some]
      intro targets htargets
      obtain ⟨i, hlast, htransfer, -⟩ := Block.targets?_eq_some_iff.mp htargets
      rw [hkept i hlast] at htransfer
      cases htransfer
    rw [successors_of_block hb, hnone]
    rfl
  refine ⟨htransferred, fun value hlast => htransferred _ hlast rfl,
    fun exception hlast => htransferred _ hlast rfl, fun hkept m hm hlt => ?_,
    fun hkept hend => ?_⟩
  · rw [hthrough hkept, following_eq_singleton hm hlt]
  · rw [hthrough hkept, following_eq_nil (Nat.le_of_eq hend.symm)]

/-! ## Both lists -/

structure HoldsFlow (p : Program) (g : Adjacency) (rows : List (List Nat)) : Prop where
  size_eq : size g = p.blockCount
  length_rows : rows.length = p.blockCount
  mem_successors : ∀ u v, v ∈ Graph.successors g u ↔
    ∃ l m, p.Leads l m ∧ l.index = u ∧ m.index = v
  mem_predecessors : ∀ u v, u ∈ Graph.predecessors g v ↔
    ∃ l m, p.Leads l m ∧ l.index = u ∧ m.index = v
  row_eq : ∀ v, rows[v]?.getD [] = Graph.predecessors g v
  successors_ascending : ∀ u, (Graph.successors g u).Pairwise (· < ·)
  predecessors_ascending : ∀ v, (Graph.predecessors g v).Pairwise (· < ·)
  edgeCount_eq : edgeCount g = {edge : Label × Label | p.Leads edge.1 edge.2}.ncard

theorem IsFlowGraph.edgeCount_eq (h : p.IsFlowGraph g)
    (hascending : ∀ u, (Graph.successors g u).Pairwise (· < ·)) :
    edgeCount g = {edge : Label × Label | p.Leads edge.1 edge.2}.ncard := by
  have hinj : Function.Injective fun edge : Label × Label => (edge.1.index, edge.2.index) := by
    intro edge edge' heq
    exact Prod.ext (Label.ext (congrArg Prod.fst heq)) (Label.ext (congrArg Prod.snd heq))
  have himage : ∀ edge : Nat × Nat,
      edge ∈ (fun edge : Label × Label => (edge.1.index, edge.2.index)) ''
          {edge | p.Leads edge.1 edge.2} ↔
        edge.2 ∈ Graph.successors g edge.1 := by
    intro edge
    refine Iff.trans ?_ (h.edge_iff edge.1 edge.2).symm
    constructor
    · rintro ⟨⟨l, m⟩, hlead, rfl⟩
      exact ⟨l, m, hlead, rfl, rfl⟩
    · rintro ⟨l, m, hlead, hl, hm⟩
      exact ⟨(l, m), hlead, Prod.ext hl hm⟩
  rw [← Set.ncard_image_of_injective _ hinj]
  exact (ncard_eq_edgeCount (fun _ => Adjacency.successors_eq_nil)
    (fun u => (hascending u).imp Nat.ne_of_lt) himage).symm

theorem IsFlowGraph.holdsFlow (h : p.IsFlowGraph g) (hg : p.controlFlow = .ok g) :
    p.HoldsFlow g ((List.range p.blockCount).map (Graph.predecessors g)) := by
  obtain ⟨edges, -, rfl⟩ := exists_of_controlFlow hg
  have hascending := Adjacency.pairwise_successors_ofEdges p.blockCount edges
  have hpredecessors : ∀ u v, u ∈ Graph.predecessors (Adjacency.ofEdges p.blockCount edges) v ↔
      ∃ l m, p.Leads l m ∧ l.index = u ∧ m.index = v :=
    fun u v => (h.mem_predecessors u v).trans (h.edge_iff u v)
  refine ⟨h.size_eq, by simp, h.edge_iff, hpredecessors, fun v => ?_, hascending,
    Adjacency.pairwise_predecessors_ofEdges p.blockCount edges, h.edgeCount_eq hascending⟩
  rcases Nat.lt_or_ge v p.blockCount with hlt | hge
  · simp [hlt]
  · -- Beyond the blocks there is neither a list nor an edge.
    have hnil : Graph.predecessors (Adjacency.ofEdges p.blockCount edges) v = [] := by
      rw [List.eq_nil_iff_forall_not_mem]
      intro u hu
      have hlt := h.closed ((h.mem_predecessors u v).mp hu)
      rw [h.size_eq] at hlt
      omega
    rw [hnil, List.getElem?_eq_none (by simpa using hge), Option.getD_none]

/-- The graph and the predecessors are there unless control is lost, and hold the edges of the
blocks then. -/
theorem controlFlow_dual (p : Program) (hlabel : p.Labelled) :
    (∀ (l : Label) (b : Block), p.blocks[l.index]? = some b → p.GoesOn l b) ∧
    ((∃ e, p.controlFlow = .error e) ↔ p.LosesControl) ∧
    ((∃ e, p.predecessors = .error e) ↔ p.LosesControl) ∧
    (¬p.LosesControl → ∃ g rows, p.controlFlow = .ok g ∧ p.predecessors = .ok rows ∧
      p.HoldsFlow g rows) := by
  have herror := controlFlow_eq_error_iff hlabel
  refine ⟨fun l b => goesOn_of_block, herror, ?_, fun hkept => ?_⟩
  · rw [← herror, predecessors_eq_map]
    cases p.controlFlow <;> simp [Except.map]
  · have hknown : p.TargetsKnown := by
      by_contra hunknown
      exact hkept (losesControl_iff.mpr hunknown)
    obtain ⟨g, hg, hflow⟩ := exists_controlFlow hknown hlabel
    refine ⟨g, _, hg, ?_, hflow.holdsFlow hg⟩
    rw [predecessors_eq_map, hg]
    rfl

/-- A table that names one block twice, a block that falls through and one that ends the method. -/
def dispatched : Program :=
  ⟨#[⟨0, [], [.switch 0 [⟨5, 2⟩, ⟨6, 1⟩, ⟨7, 2⟩] 2]⟩, ⟨1, [], []⟩, ⟨2, [], [.exit none]⟩],
    #[⟨none⟩]⟩

theorem dispatched_controlFlow :
    dispatched.controlFlow = .ok ⟨#[[1, 2], [2], []], #[[], [0], [0, 1]]⟩ := by
  cbv

theorem dispatched_dual :
    dispatched.Labelled ∧ ∃ g, dispatched.controlFlow = .ok g ∧
      dispatched.predecessors = .ok [[], [0], [0, 1]] ∧
      {edge : Label × Label | dispatched.Leads edge.1 edge.2}.ncard = 3 ∧
      dispatched.successors 1 = .ok [2] := by
  have hlabel : dispatched.Labelled := by decide
  have hkept : ¬dispatched.LosesControl := by
    rw [← controlFlow_eq_error_iff hlabel, dispatched_controlFlow]
    rintro ⟨e, h⟩
    cases h
  obtain ⟨hgoes, -, -, hflow⟩ := controlFlow_dual dispatched hlabel
  obtain ⟨g, rows, hg, hrows, h⟩ := hflow hkept
  have hthrough := (hgoes 1 ⟨1, [], []⟩ rfl).fallen (by simp [Block.last?]) 2 rfl (by decide)
  refine ⟨hlabel, g, hg, ?_, ?_, hthrough⟩
  · rw [predecessors_eq_map, dispatched_controlFlow]
    rfl
  · rw [← h.edgeCount_eq]
    rw [dispatched_controlFlow] at hg
    cases hg
    rfl

end Program

end MethodFlow
