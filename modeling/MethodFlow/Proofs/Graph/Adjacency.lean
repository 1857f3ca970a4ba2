import MethodFlow.Graph.Adjacency
import Mathlib.Data.List.Sort
import Mathlib.Data.Set.Card
/-!
# The edges of a built graph

A graph built from a list of edges has these edges and no others, and nodes enough for them:

* `edge_ofEdges`: the successors of a node are the ends of the edges that leave it;
* `mem_predecessors_ofEdges`: its predecessors are the starts of the edges that enter it;
* `pairwise_successors_ofEdges`, `pairwise_predecessors_ofEdges`: both lists are strictly ascending;
* `size_ofEdges_of_lt`: edges between the first `size` nodes add no further node;
* `ofEdges_congr`: in which order the edges come, and how often, does not matter.
-/

namespace MethodFlow

namespace Graph

variable {γ : Type} [Graph γ]

def Edge (g : γ) (source target : Nat) : Prop := target ∈ successors g source

/-- No edge leads out of the table of nodes. -/
def Closed (g : γ) : Prop := ∀ {source target : Nat}, Edge g source target → target < size g

end Graph

/-! ## The edges of a graph as a list -/

namespace Graph

variable {γ : Type} [Graph γ] {g : γ} {edge : Nat × Nat}

theorem mem_edges (hout : ∀ u, size g ≤ u → successors g u = []) :
    edge ∈ edges g ↔ edge.2 ∈ successors g edge.1 := by
  unfold edges
  simp only [List.mem_flatMap, List.mem_range, List.mem_map]
  constructor
  · rintro ⟨u, -, v, hv, rfl⟩
    exact hv
  · intro hv
    refine ⟨edge.1, Nat.lt_of_not_le fun hle => ?_, edge.2, hv, rfl⟩
    rw [hout edge.1 hle] at hv
    exact List.not_mem_nil hv

theorem nodup_edges (h : ∀ u, (successors g u).Nodup) : (edges g).Nodup := by
  refine List.nodup_flatMap.mpr ⟨fun u _ => (h u).map (Prod.mk_right_injective u), ?_⟩
  refine List.nodup_range.imp fun {u w} hne => ?_
  rw [Function.onFun, List.disjoint_left]
  rintro edge hu hw
  obtain ⟨_, -, rfl⟩ := List.mem_map.mp hu
  obtain ⟨_, -, heq⟩ := List.mem_map.mp hw
  exact hne (congrArg Prod.fst heq).symm

theorem length_edges (g : γ) : (edges g).length = edgeCount g := by
  simp [edges, edgeCount, List.length_flatMap]

theorem ncard_eq_edgeCount {s : Set (Nat × Nat)} (hout : ∀ u, size g ≤ u → successors g u = [])
    (hnodup : ∀ u, (successors g u).Nodup) (hs : ∀ edge, edge ∈ s ↔ edge.2 ∈ successors g edge.1) :
    s.ncard = edgeCount g := by
  have hedges : s = ↑(edges g).toFinset := by
    ext edge
    rw [List.coe_toFinset, Set.mem_ofPred_eq, mem_edges hout, hs]
  rw [hedges, Set.ncard_coe_finset, List.toFinset_card_of_nodup (nodup_edges hnodup), length_edges]

end Graph

/-! ## Tables of rows

A node beyond the table has an empty row. -/

namespace Graph

variable {table : Array (List Nat)}

theorem row_append_replicate (table : Array (List Nat)) (missing node : Nat) :
    (table ++ .replicate missing [])[node]?.getD [] = table[node]?.getD [] := by
  rw [Array.getElem?_append]
  split
  · rfl
  · next hnode =>
    rw [Array.getElem?_eq_none (Nat.le_of_not_lt hnode), Array.getElem?_replicate]
    split <;> rfl

/-- A row is changed, unless it is missing and the change would fill it. -/
theorem row_modify {changed : Nat} {f : List Nat → List Nat}
    (hchanged : changed < table.size ∨ f [] = []) (node : Nat) :
    (table.modify changed f)[node]?.getD [] =
      if changed = node then f (table[node]?.getD []) else table[node]?.getD [] := by
  rw [Array.getElem?_modify]
  split
  · next heq =>
    subst heq
    rcases Nat.lt_or_ge changed table.size with hlt | hge
    · rw [Array.getElem?_eq_getElem hlt]
      rfl
    · rw [Array.getElem?_eq_none hge]
      exact (hchanged.resolve_left (Nat.not_lt.mpr hge)).symm
  · rfl

/-- A row is changed in a table that has grown to hold it. -/
theorem row_grow_modify {changed missing : Nat} (hchanged : changed < table.size + missing)
    (f : List Nat → List Nat) (node : Nat) :
    ((table ++ .replicate missing []).modify changed f)[node]?.getD [] =
      if changed = node then f (table[node]?.getD []) else table[node]?.getD [] := by
  have hsize : changed < (table ++ Array.replicate missing []).size := by simpa using hchanged
  rw [row_modify (.inl hsize), row_append_replicate]

end Graph

/-! ## Sorted lists without repetitions -/

namespace Ascending

theorem mem_dropRepeats {n : Nat} {l : List Nat} : n ∈ dropRepeats l ↔ n ∈ l := by
  induction l with
  | nil => rfl
  | cons m l ih =>
    show n ∈ (if (dropRepeats l).head? = some m then dropRepeats l else m :: dropRepeats l) ↔ _
    split
    · next hhead =>
      have hm : m ∈ dropRepeats l := List.mem_of_head? hhead
      rw [List.mem_cons, ih]
      constructor
      · exact .inr
      · rintro (rfl | h)
        · exact ih.mp hm
        · exact h
    · rw [List.mem_cons, List.mem_cons, ih]

theorem mem_ofList {n : Nat} {l : List Nat} : n ∈ ofList l ↔ n ∈ l := by
  rw [ofList, mem_dropRepeats, List.mem_mergeSort]

theorem dropRepeats_cons (m : Nat) (l : List Nat) : dropRepeats (m :: l) =
    if (dropRepeats l).head? = some m then dropRepeats l else m :: dropRepeats l := rfl

theorem pairwise_dropRepeats {l : List Nat} (h : l.Pairwise (· ≤ ·)) :
    (dropRepeats l).Pairwise (· < ·) := by
  induction l with
  | nil => exact .nil
  | cons m l ih =>
    obtain ⟨hle, hrest⟩ := List.pairwise_cons.mp h
    rw [dropRepeats_cons]
    split
    · exact ih hrest
    · next hhead =>
      refine List.pairwise_cons.mpr ⟨fun n hn => ?_, ih hrest⟩
      have hmn : m ≤ n := hle n (mem_dropRepeats.mp hn)
      refine Nat.lt_of_le_of_ne hmn fun heq => ?_
      -- The head is the least, so that a number which equals `m` is the head.
      subst heq
      obtain ⟨k, rest, hcons⟩ := List.exists_cons_of_ne_nil (List.ne_nil_of_mem hn)
      have hk : m ≤ k := hle k (mem_dropRepeats.mp (hcons ▸ List.mem_cons_self))
      have hsorted := ih hrest
      rw [hcons] at hn hhead hsorted
      rcases List.mem_cons.mp hn with rfl | hn
      · exact hhead rfl
      · have := (List.pairwise_cons.mp hsorted).1 m hn
        omega

theorem pairwise_mergeSort (l : List Nat) : (l.mergeSort (· ≤ ·)).Pairwise (· ≤ ·) := by
  have hsorted : (l.mergeSort (· ≤ ·)).Pairwise fun m n => decide (m ≤ n) = true :=
    List.pairwise_mergeSort (fun a b c => by simpa using Nat.le_trans)
      (fun a b => by simpa using Nat.le_total a b) l
  exact hsorted.imp of_decide_eq_true

theorem pairwise_ofList (l : List Nat) : (ofList l).Pairwise (· < ·) :=
  pairwise_dropRepeats (pairwise_mergeSort l)

/-- The same numbers make the same list. -/
theorem ofList_congr {l l' : List Nat} (h : ∀ n, n ∈ l ↔ n ∈ l') : ofList l = ofList l' := by
  refine (pairwise_ofList l).eq_of_mem_iff (pairwise_ofList l') fun n => ?_
  rw [mem_ofList, mem_ofList, h]

end Ascending

namespace Adjacency

open MethodFlow.Graph

theorem successors_eq_nil {g : Adjacency} {node : Nat} (h : size g ≤ node) :
    Graph.successors g node = [] := by
  show g.successors[node]?.getD [] = []
  rw [Array.getElem?_eq_none h, Option.getD_none]

/-! ## Builders -/

namespace Builder

variable {b : Builder} {source target u v : Nat}

def row (b : Builder) (node : Nat) : List Nat := b.targets[node]?.getD []

theorem row_ofSize (n node : Nat) : (ofSize n).row node = [] := by
  simp only [row, ofSize, Array.getElem?_replicate]
  split <;> rfl

theorem size_grow (b : Builder) (size : Nat) :
    (b.grow size).targets.size = max b.targets.size size := by
  simp only [grow, Array.size_append, Array.size_replicate]
  omega

theorem size_addEdge (b : Builder) (source target : Nat) :
    (b.addEdge source target).targets.size = max b.targets.size (max source target + 1) := by
  simp only [addEdge, Array.size_modify, size_grow]

theorem row_addEdge (b : Builder) (source target node : Nat) :
    (b.addEdge source target).row node =
      if source = node then target :: b.row node else b.row node :=
  row_grow_modify (by omega) _ node

theorem mem_row_addEdge :
    v ∈ (b.addEdge source target).row u ↔ (u, v) = (source, target) ∨ v ∈ b.row u := by
  rw [row_addEdge]
  split
  · next h =>
    subst h
    simp
  · next h => simp [Ne.symm h]

def addEdges (b : Builder) (edges : List (Nat × Nat)) : Builder :=
  edges.foldl (fun b edge => b.addEdge edge.1 edge.2) b

theorem mem_row_addEdges {edges : List (Nat × Nat)} :
    v ∈ (b.addEdges edges).row u ↔ (u, v) ∈ edges ∨ v ∈ b.row u := by
  induction edges generalizing b with
  | nil => simp [addEdges]
  | cons edge edges ih =>
    rw [addEdges, List.foldl_cons, ← addEdges, ih, mem_row_addEdge, List.mem_cons]
    rw [or_left_comm, ← or_assoc]

theorem size_addEdges_le_iff {edges : List (Nat × Nat)} {size : Nat} :
    (b.addEdges edges).targets.size ≤ size ↔
      b.targets.size ≤ size ∧ ∀ edge ∈ edges, max edge.1 edge.2 < size := by
  induction edges generalizing b with
  | nil => simp [addEdges]
  | cons edge edges ih =>
    rw [addEdges, List.foldl_cons, ← addEdges, ih, size_addEdge, List.forall_mem_cons, Nat.max_le,
      Nat.succ_le_iff, and_assoc]

theorem le_size_addEdges (b : Builder) (edges : List (Nat × Nat)) :
    b.targets.size ≤ (b.addEdges edges).targets.size :=
  (size_addEdges_le_iff.mp (Nat.le_refl _)).1

theorem lt_size_addEdges {edges : List (Nat × Nat)} (h : (u, v) ∈ edges) :
    max u v < (b.addEdges edges).targets.size :=
  (size_addEdges_le_iff.mp (Nat.le_refl _)).2 (u, v) h

theorem size_addEdges_of_lt {edges : List (Nat × Nat)}
    (h : ∀ edge ∈ edges, max edge.1 edge.2 < b.targets.size) :
    (b.addEdges edges).targets.size = b.targets.size :=
  Nat.le_antisymm (size_addEdges_le_iff.mpr ⟨Nat.le_refl _, h⟩) (le_size_addEdges b edges)

theorem size_build (b : Builder) : size b.build = b.targets.size := by
  simp [Graph.size, build]

/-- A graph is built from the rows as sets. -/
theorem build_congr {b' : Builder} (hsize : b.targets.size = b'.targets.size)
    (hrow : ∀ u v, v ∈ b.row u ↔ v ∈ b'.row u) : b.build = b'.build := by
  have hsuccessors : b.targets.map Ascending.ofList = b'.targets.map Ascending.ofList := by
    refine Array.ext (by simpa using hsize) fun u hu hu' => ?_
    rw [Array.size_map] at hu hu'
    rw [Array.getElem_map, Array.getElem_map]
    refine Ascending.ofList_congr fun v => ?_
    have hmem := hrow u v
    rwa [row, row, Array.getElem?_eq_getElem hu, Array.getElem?_eq_getElem hu', Option.getD_some,
      Option.getD_some] at hmem
  unfold build
  rw [hsuccessors]

theorem edge_build : Edge b.build u v ↔ v ∈ b.row u := by
  simp only [Edge, Graph.successors, build, row, Array.getElem?_map]
  cases b.targets[u]? with
  | none => rfl
  | some targets => exact Ascending.mem_ofList

/-! ### Sources, recorded target by target -/

variable {table : Array (List Nat)}

@[simp] theorem size_recordSource (table : Array (List Nat)) (node : Nat) (targets : List Nat) :
    (recordSource table node targets).size = table.size := by
  unfold recordSource
  induction targets generalizing table with
  | nil => rfl
  | cons target targets ih => exact (ih _).trans Array.size_modify

theorem mem_getElem?_modify {node : Nat} :
    u ∈ (table.modify target (node :: ·))[v]?.getD [] ↔
      (u = node ∧ v = target ∧ v < table.size) ∨ u ∈ table[v]?.getD [] := by
  rw [Array.getElem?_modify]
  by_cases hv : target = v
  · subst hv
    rw [if_pos rfl]
    by_cases hlt : target < table.size <;> simp [hlt]
  · simp [hv, Ne.symm hv]

/-- A source is added to the rows of its targets, and to no other row. -/
theorem mem_recordSource {node : Nat} {targets : List Nat} :
    u ∈ (recordSource table node targets)[v]?.getD [] ↔
      (u = node ∧ v ∈ targets ∧ v < table.size) ∨ u ∈ table[v]?.getD [] := by
  unfold recordSource
  induction targets generalizing table with
  | nil => simp
  | cons target targets ih =>
    rw [List.foldl_cons, ih, mem_getElem?_modify, Array.size_modify, List.mem_cons]
    constructor
    · rintro (⟨hu, hv, hlt⟩ | ⟨hu, hv, hlt⟩ | hmem)
      · exact .inl ⟨hu, .inr hv, hlt⟩
      · exact .inl ⟨hu, .inl hv, hlt⟩
      · exact .inr hmem
    · rintro (⟨hu, hv | hv, hlt⟩ | hmem)
      · exact .inr (.inl ⟨hu, hv, hlt⟩)
      · exact .inl ⟨hu, hv, hlt⟩
      · exact .inr (.inr hmem)

theorem mem_foldr_recordSource {row : Nat → List Nat} {nodes : List Nat} :
    u ∈ (nodes.foldr (fun node table => recordSource table node (row node)) table)[v]?.getD [] ↔
      (u ∈ nodes ∧ v ∈ row u ∧ v < table.size) ∨ u ∈ table[v]?.getD [] := by
  have hsize : ∀ nodes : List Nat,
      (nodes.foldr (fun node table => recordSource table node (row node)) table).size =
        table.size := by
    intro nodes
    induction nodes with
    | nil => rfl
    | cons node nodes ih => rw [List.foldr_cons, size_recordSource, ih]
  induction nodes with
  | nil => simp
  | cons node nodes ih =>
    rw [List.foldr_cons, mem_recordSource, hsize, List.mem_cons, or_congr_right ih]
    constructor
    · rintro (⟨rfl, hv, hlt⟩ | ⟨hu, hv, hlt⟩ | hmem)
      · exact .inl ⟨.inl rfl, hv, hlt⟩
      · exact .inl ⟨.inr hu, hv, hlt⟩
      · exact .inr hmem
    · rintro (⟨rfl | hu, hv, hlt⟩ | hmem)
      · exact .inl ⟨rfl, hv, hlt⟩
      · exact .inr (.inl ⟨hu, hv, hlt⟩)
      · exact .inr (.inr hmem)

theorem mem_predecessors_build :
    u ∈ Graph.predecessors b.build v ↔ Edge b.build u v ∧ v < size b.build := by
  have hsize : b.build.successors.size = size b.build := rfl
  have hempty : u ∉ (Array.replicate (size b.build) ([] : List Nat))[v]?.getD [] := by
    rw [Array.getElem?_replicate]
    split <;> simp
  have hrange : Edge b.build u v → u < size b.build := by
    intro hedge
    refine Nat.lt_of_not_le fun hle => ?_
    have hnone : b.build.successors[u]? = none := Array.getElem?_eq_none hle
    simp [Edge, Graph.successors, hnone] at hedge
  show u ∈ ((List.range (size b.build)).foldr
      (fun node table => recordSource table node (Graph.successors b.build node))
      (.replicate (size b.build) []))[v]?.getD [] ↔ _
  rw [mem_foldr_recordSource, or_iff_left hempty, List.mem_range, Array.size_replicate]
  exact ⟨fun h => ⟨h.2.1, h.2.2⟩, fun h => ⟨hrange h.1, h.1, h.2⟩⟩

/-! ### Ascending rows -/

theorem pairwise_successors_build (b : Builder) (u : Nat) :
    (Graph.successors b.build u).Pairwise (· < ·) := by
  show ((b.targets.map Ascending.ofList)[u]?.getD []).Pairwise (· < ·)
  rw [Array.getElem?_map]
  cases b.targets[u]? with
  | none => exact .nil
  | some targets => exact Ascending.pairwise_ofList targets

/-- A source is put in front of each row that it belongs to. -/
theorem row_recordSource {node : Nat} {targets : List Nat} (hnodup : targets.Nodup)
    (hv : v < table.size) :
    (recordSource table node targets)[v]?.getD [] =
      if v ∈ targets then node :: table[v]?.getD [] else table[v]?.getD [] := by
  unfold recordSource
  induction targets generalizing table with
  | nil => rfl
  | cons target targets ih =>
    obtain ⟨hout, hrest⟩ := List.nodup_cons.mp hnodup
    have hmodified : v < (table.modify target (node :: ·)).size := by
      rw [Array.size_modify]
      exact hv
    rw [List.foldl_cons, ih hrest hmodified, Array.getElem?_modify]
    by_cases heq : target = v
    · subst heq
      rw [if_neg hout, if_pos rfl, if_pos List.mem_cons_self, Array.getElem?_eq_getElem hv]
      rfl
    · rw [if_neg heq]
      simp only [List.mem_cons, Ne.symm heq, false_or]

/-- Sources that come downwards leave every row ascending. -/
theorem pairwise_foldr_recordSource {row : Nat → List Nat} {nodes : List Nat}
    (hnodes : nodes.Pairwise (· < ·)) (hrow : ∀ u, (row u).Nodup) (size : Nat) :
    ((nodes.foldr (fun node table => recordSource table node (row node))
      (.replicate size []))[v]?.getD []).Pairwise (· < ·) := by
  have hempty : (Array.replicate size ([] : List Nat))[v]?.getD [] = [] := by
    rw [Array.getElem?_replicate]
    split <;> rfl
  induction nodes with
  | nil =>
    rw [List.foldr_nil, hempty]
    exact .nil
  | cons node nodes ih =>
    obtain ⟨hfirst, hrest⟩ := List.pairwise_cons.mp hnodes
    rw [List.foldr_cons]
    generalize hlater : nodes.foldr (fun node table => recordSource table node (row node))
      (.replicate size []) = later
    rw [hlater] at ih
    rcases Nat.lt_or_ge v later.size with hlt | hge
    · rw [row_recordSource (hrow node) hlt]
      split
      · refine List.pairwise_cons.mpr ⟨fun u hu => hfirst u ?_, ih hrest⟩
        rw [← hlater, mem_foldr_recordSource, hempty] at hu
        exact (hu.resolve_right List.not_mem_nil).1
      · exact ih hrest
    · rw [Array.getElem?_eq_none (by rwa [size_recordSource]), Option.getD_none]
      exact .nil

theorem pairwise_predecessors_build (b : Builder) (v : Nat) :
    (Graph.predecessors b.build v).Pairwise (· < ·) :=
  pairwise_foldr_recordSource List.pairwise_lt_range
    (fun u => (pairwise_successors_build b u).imp Nat.ne_of_lt) _

end Builder

/-! ## Graphs of a list of edges -/

variable {n u v : Nat} {edges : List (Nat × Nat)}

theorem ofEdges_eq_build (n : Nat) (edges : List (Nat × Nat)) :
    ofEdges n edges = ((Builder.ofSize n).addEdges edges).build := rfl

theorem edge_ofEdges : Edge (ofEdges n edges) u v ↔ (u, v) ∈ edges := by
  rw [ofEdges_eq_build, Builder.edge_build, Builder.mem_row_addEdges, Builder.row_ofSize,
    or_iff_left List.not_mem_nil]

theorem closed_ofEdges (n : Nat) (edges : List (Nat × Nat)) : Closed (ofEdges n edges) := by
  intro u v h
  rw [ofEdges_eq_build, Builder.size_build]
  have := Builder.lt_size_addEdges (b := Builder.ofSize n) (edge_ofEdges.mp h)
  omega

theorem mem_predecessors_ofEdges : u ∈ Graph.predecessors (ofEdges n edges) v ↔ (u, v) ∈ edges := by
  rw [← edge_ofEdges (n := n), ofEdges_eq_build, Builder.mem_predecessors_build, ← ofEdges_eq_build]
  exact and_iff_left_of_imp fun hedge => closed_ofEdges n edges hedge

theorem size_ofEdges_of_lt (h : ∀ edge ∈ edges, max edge.1 edge.2 < n) :
    size (ofEdges n edges) = n := by
  have hsize : (Builder.ofSize n).targets.size = n := by simp [Builder.ofSize]
  rw [ofEdges_eq_build, Builder.size_build, Builder.size_addEdges_of_lt, hsize]
  simpa [hsize] using h

theorem pairwise_successors_ofEdges (n : Nat) (edges : List (Nat × Nat)) (u : Nat) :
    (Graph.successors (ofEdges n edges) u).Pairwise (· < ·) :=
  Builder.pairwise_successors_build _ u

theorem pairwise_predecessors_ofEdges (n : Nat) (edges : List (Nat × Nat)) (v : Nat) :
    (Graph.predecessors (ofEdges n edges) v).Pairwise (· < ·) :=
  Builder.pairwise_predecessors_build _ v

/-- A graph depends only on which edges occur. -/
theorem ofEdges_congr {edges' : List (Nat × Nat)} (h : ∀ edge, edge ∈ edges ↔ edge ∈ edges') :
    ofEdges n edges = ofEdges n edges' := by
  rw [ofEdges_eq_build, ofEdges_eq_build]
  refine Builder.build_congr (eq_of_forall_ge_iff fun size => ?_) fun u v => ?_
  · rw [Builder.size_addEdges_le_iff, Builder.size_addEdges_le_iff]
    simp only [h]
  · rw [Builder.mem_row_addEdges, Builder.mem_row_addEdges, h]

end Adjacency

end MethodFlow
