import MethodFlow.Proofs.ControlFlow
import MethodFlow.Proofs.Graph.Reach
import MethodFlow.Proofs.Loops
/-!
# What control can reach

The graph that is derived from a checked program has an edge wherever control can go from one
block to another, as long as the blocks carry the numbers of their places:

* `exists_controlFlow`: there is such a graph, with a node for each block;
* `marked_reachableBlocks_iff`: the blocks that are marked are those at the end of a path from the
  first one.
-/

namespace MethodFlow

open Relation MethodFlow.Graph

namespace Program

variable {p : Program} {b : Block} {l m : Label} {g : Adjacency}

/-- Every block carries the number of its place. -/
def Labelled (p : Program) : Prop :=
  ∀ (n : Nat) (b : Block), p.blocks[n]? = some b → b.label.index = n

theorem labels_eq_range_iff :
    p.blocks.toList.map (·.label.index) = List.range p.blockCount ↔ p.Labelled := by
  constructor
  · intro h n b hb
    have hn := congrArg (·[n]?) h
    have hlt : n < p.blockCount := (Array.getElem?_eq_some_iff.mp hb).1
    simpa [hb, hlt] using hn
  · intro h
    refine List.ext_getElem? fun n => ?_
    rw [List.getElem?_map, Array.getElem?_toList]
    cases hb : p.blocks[n]? with
    | none =>
      have hn : p.blockCount ≤ n := Array.getElem?_eq_none_iff.mp hb
      rw [Option.map_none, List.getElem?_eq_none (by simpa using hn)]
    | some b =>
      have hn : n < p.blockCount := (Array.getElem?_eq_some_iff.mp hb).1
      rw [Option.map_some, h n b hb, List.getElem?_range hn]

instance (p : Program) : Decidable p.Labelled := decidable_of_iff _ labels_eq_range_iff

/-- Control can come to the block from the first one. -/
def Reached (p : Program) : Label → Prop := ReflTransGen p.Leads 0

theorem Labelled.getElem?_label (h : p.Labelled) (hb : b ∈ p.blocks) :
    p.blocks[b.label.index]? = some b := by
  obtain ⟨n, hn⟩ := Array.mem_iff_getElem?.mp hb
  rwa [h n b hn]

theorem Labelled.label_eq (h : p.Labelled) (hb : p.blocks[l.index]? = some b) : b.label = l :=
  Label.ext (h _ _ hb)

/-! ## Edges -/

/-- The blocks that control may go to from a block which carries its own number. -/
def outgoing (p : Program) (b : Block) : List Label := b.targets?.getD (p.following b.label)

theorem leads_iff_of_block (hb : p.blocks[l.index]? = some b) :
    p.Leads l m ↔ m ∈ b.targets?.getD (p.following l) := by
  unfold Leads
  rw [successors_of_block hb]
  constructor
  · rintro ⟨targets, heq, hm⟩
    cases heq
    exact hm
  · exact fun hm => ⟨_, rfl, hm⟩

theorem Labelled.leads_iff (h : p.Labelled) (hb : b ∈ p.blocks) :
    p.Leads b.label m ↔ m ∈ p.outgoing b := leads_iff_of_block (h.getElem?_label hb)

theorem Leads.lt (h : p.Leads l m) : l.index < p.blockCount := by
  obtain ⟨targets, hsuccessors, -⟩ := h
  exact lt_blockCount_of_successors hsuccessors

/-- Where the last instruction of a block transfers control to are blocks of the program. -/
def TargetsKnown (p : Program) : Prop :=
  ∀ b ∈ p.blocks, ∀ targets, b.targets? = some targets → ∀ m ∈ targets, m.index < p.blockCount

theorem InRange.targetsKnown (h : p.InRange) : p.TargetsKnown :=
  fun _ hb _ htargets _ hm => h.lt_of_mem_targets hb htargets hm

theorem TargetsKnown.lt_of_leads (hknown : p.TargetsKnown) (h : p.Leads l m) :
    m.index < p.blockCount := by
  obtain ⟨b, hb⟩ := exists_block_of_lt h.lt
  have hm := (leads_iff_of_block hb).mp h
  cases htargets : b.targets? with
  | none =>
    rw [htargets, Option.getD_none] at hm
    exact (mem_following.mp hm).2
  | some targets =>
    rw [htargets, Option.getD_some] at hm
    exact hknown b (Array.mem_of_getElem? hb) targets htargets m hm

theorem InRange.lt_of_leads (hin : p.InRange) (h : p.Leads l m) : m.index < p.blockCount :=
  hin.targetsKnown.lt_of_leads h

theorem checkLabel_eq_ok_iff {site : Site} {n : Nat} :
    p.checkLabel l site = .ok n ↔ l.index < p.blockCount ∧ l.index = n := by
  unfold checkLabel checkLabelM
  by_cases hl : l.index < p.blockCount <;> simp [hl]

/-- The edges from a block are found if the program has every block that control may go to. -/
theorem edgesFrom_eq_ok_iff {row : List (Nat × Nat)} :
    p.edgesFrom b = .ok row ↔ ∃ targets, p.successors b.label = .ok targets ∧
      (∀ m ∈ targets, m.index < p.blockCount) ∧
      row = targets.map fun m => (b.label.index, m.index) := by
  unfold edgesFrom
  cases p.successors b.label with
  | error =>
    constructor
    · intro h
      cases h
    · rintro ⟨targets, h, -⟩
      cases h
  | ok targets =>
    rw [ok_bind]
    have hfound (hall : ∀ m ∈ targets, m.index < p.blockCount) :
        (targets.mapM fun target => do
          let target ← p.checkLabel target (.named "control transfer target")
          return (b.label.index, target)) =
            .ok (targets.map fun m => (b.label.index, m.index)) := by
      refine mapM_eq_ok fun m hm => ?_
      rw [checkLabel_eq_ok_iff.mpr ⟨hall m hm, rfl⟩]
      rfl
    constructor
    · intro h
      have hall : ∀ m ∈ targets, m.index < p.blockCount := by
        intro m hm
        obtain ⟨edge, -, hedge⟩ := (exists_of_mapM_eq_ok h).1 m hm
        cases hcheck : p.checkLabel m (.named "control transfer target") with
        | error =>
          rw [hcheck] at hedge
          cases hedge
        | ok => exact (checkLabel_eq_ok_iff.mp hcheck).1
      rw [hfound hall] at h
      cases h
      exact ⟨targets, rfl, hall, rfl⟩
    · rintro ⟨_, heq, hall, rfl⟩
      cases heq
      exact hfound hall

theorem edgesFrom_eq (hknown : p.TargetsKnown) (hlabel : p.Labelled) (hb : b ∈ p.blocks) :
    p.edgesFrom b = .ok ((p.outgoing b).map fun m => (b.label.index, m.index)) :=
  edgesFrom_eq_ok_iff.mpr ⟨_, successors_of_block (hlabel.getElem?_label hb),
    fun _ hm => hknown.lt_of_leads ((hlabel.leads_iff hb).mpr hm), rfl⟩

theorem exists_controlEdges (hknown : p.TargetsKnown) (hlabel : p.Labelled) :
    ∃ edges, p.controlEdges = .ok edges ∧
      ∀ u v, (u, v) ∈ edges ↔ ∃ l m, p.Leads l m ∧ l.index = u ∧ m.index = v := by
  refine ⟨p.blocks.toList.flatMap fun b => (p.outgoing b).map fun m => (b.label.index, m.index),
    ?_, fun u v => ?_⟩
  · unfold controlEdges
    rw [mapM_eq_ok fun b hb => edgesFrom_eq hknown hlabel (Array.mem_toList_iff.mp hb),
      List.flatMap_def]
    rfl
  · simp only [List.mem_flatMap, List.mem_map, Array.mem_toList_iff, Prod.mk.injEq]
    constructor
    · rintro ⟨b, hb, m, hm, rfl, rfl⟩
      exact ⟨b.label, m, (hlabel.leads_iff hb).mpr hm, rfl, rfl⟩
    · rintro ⟨l, m, hlead, rfl, rfl⟩
      obtain ⟨b, hb⟩ := exists_block_of_lt hlead.lt
      obtain rfl := hlabel.label_eq hb
      have hmem := Array.mem_of_getElem? hb
      exact ⟨b, hmem, m, (hlabel.leads_iff hmem).mp hlead, rfl, rfl⟩

/-- Edges that have been found lie between blocks, whatever numbers the blocks carry. -/
theorem lt_of_edgesFrom {row : List (Nat × Nat)} (h : p.edgesFrom b = .ok row) :
    b.label.index < p.blockCount ∧
      ∀ edge ∈ row, edge.1 < p.blockCount ∧ edge.2 < p.blockCount := by
  obtain ⟨targets, hsuccessors, hall, rfl⟩ := edgesFrom_eq_ok_iff.mp h
  have hlt : b.label.index < p.blockCount := lt_blockCount_of_successors hsuccessors
  refine ⟨hlt, fun edge hedge => ?_⟩
  obtain ⟨m, hm, rfl⟩ := List.mem_map.mp hedge
  exact ⟨hlt, hall m hm⟩

/-- The edges that are found come block by block. -/
theorem exists_rows {edges : List (Nat × Nat)} (h : p.controlEdges = .ok edges) :
    ∃ rows, p.blocks.toList.mapM p.edgesFrom = .ok rows ∧ edges = rows.flatten := by
  unfold controlEdges at h
  cases hrows : p.blocks.toList.mapM p.edgesFrom with
  | error =>
    rw [hrows] at h
    cases h
  | ok rows =>
    rw [hrows] at h
    cases h
    exact ⟨rows, rfl, rfl⟩

/-- Where the edges are found at all, every block carries the number of a block. -/
theorem lt_of_controlEdges {edges : List (Nat × Nat)} (h : p.controlEdges = .ok edges) :
    (∀ b ∈ p.blocks, b.label.index < p.blockCount) ∧
      ∀ edge ∈ edges, edge.1 < p.blockCount ∧ edge.2 < p.blockCount := by
  obtain ⟨rows, hrows, rfl⟩ := exists_rows h
  obtain ⟨hblocks, hfrom⟩ := exists_of_mapM_eq_ok hrows
  constructor
  · intro b hb
    obtain ⟨row, -, hrow⟩ := hblocks b (Array.mem_toList_iff.mpr hb)
    exact (lt_of_edgesFrom hrow).1
  · intro edge hedge
    obtain ⟨row, hrow, hmem⟩ := List.mem_flatten.mp hedge
    obtain ⟨b, -, hb⟩ := hfrom row hrow
    exact (lt_of_edgesFrom hb).2 edge hmem

/-! ## The graph -/

/-- The nodes are the blocks, and an edge stands wherever control can go. -/
structure IsFlowGraph (p : Program) (g : Adjacency) : Prop where
  size_eq : size g = p.blockCount
  closed : Closed g
  edge_iff : ∀ u v, Edge g u v ↔ ∃ l m, p.Leads l m ∧ l.index = u ∧ m.index = v
  mem_predecessors : ∀ u v, u ∈ Graph.predecessors g v ↔ Edge g u v

theorem exists_controlFlow (hknown : p.TargetsKnown) (hlabel : p.Labelled) :
    ∃ g, p.controlFlow = .ok g ∧ p.IsFlowGraph g := by
  obtain ⟨edges, hedges, hmem⟩ := exists_controlEdges hknown hlabel
  refine ⟨.ofEdges p.blockCount edges, ?_, ?_⟩
  · unfold controlFlow
    rw [hedges]
    rfl
  · refine ⟨Adjacency.size_ofEdges_of_lt fun edge hedge => ?_, Adjacency.closed_ofEdges _ _,
      fun u v => Adjacency.edge_ofEdges.trans (hmem u v), fun u v => ?_⟩
    · obtain ⟨l, m, hlead, hl, hm⟩ := (hmem _ _).mp hedge
      have hlt := hlead.lt
      have hlt' := hknown.lt_of_leads hlead
      omega
    · rw [Adjacency.mem_predecessors_ofEdges, Adjacency.edge_ofEdges]

namespace IsFlowGraph

variable (h : p.IsFlowGraph g)

include h

theorem edge_iff_leads : Edge g l.index m.index ↔ p.Leads l m := by
  rw [h.edge_iff]
  constructor
  · rintro ⟨l', m', hlead, hl, hm⟩
    rwa [← Label.ext hl, ← Label.ext hm]
  · exact fun hlead => ⟨l, m, hlead, rfl, rfl⟩

theorem path_iff_reached : ReflTransGen (Edge g) 0 l.index ↔ p.Reached l := by
  constructor
  · intro hpath
    generalize hn : l.index = n at hpath
    induction hpath generalizing l with
    | refl => rw [show l = 0 from Label.ext hn]; exact .refl
    | tail _ hedge ih =>
      obtain ⟨k, m, hlead, hk, hm⟩ := (h.edge_iff _ _).mp hedge
      rw [show l = m from Label.ext (hn.trans hm.symm)]
      exact (ih hk).tail hlead
  · intro hreached
    induction hreached with
    | refl => exact .refl
    | tail _ hlead ih => exact ih.tail (h.edge_iff_leads.mpr hlead)

theorem marked_reachableBlocks_iff (hl : l.index < p.blockCount) :
    Marked (p.reachableBlocks g) l.index ↔ p.Reached l := by
  have hreach : p.reachableBlocks g = reachable g [0] := by
    unfold reachableBlocks reachable
    rw [h.size_eq]
  rw [hreach, marked_reachable_iff h.closed, ← h.path_iff_reached, h.size_eq]
  constructor
  · rintro ⟨s, hs, -, hpath⟩
    rwa [List.mem_singleton.mp hs] at hpath
  · exact fun hpath => ⟨0, List.mem_singleton.mpr rfl, by omega, hpath⟩

end IsFlowGraph

end Program

end MethodFlow
