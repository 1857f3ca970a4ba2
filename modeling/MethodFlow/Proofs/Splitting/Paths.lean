import MethodFlow.Proofs.Splitting.Effect
import Mathlib.Data.List.Chain
import Mathlib.Data.List.Permutation
/-!
# Paths through a split program

When the nodes are entered from the domain only, control takes the copies where it took the nodes,
and nothing else about its paths changes:

* `successors_of_live`: where control is, it has the successors that it had before, redirected;
* `follow_split`: every path is the image of one through the split program, block by block, and
  finds the same instructions there and the same values in phis.
-/

namespace MethodFlow.Program

variable {p q : Program} {domain nodes copies : List Label} {pairs : List (Label × Label)}
  {l m node copy : Label}

/-! ## Paths -/

/-- The blocks that control visits, by the position of the successor that it takes at each step. -/
def follow (p : Program) (l : Label) : List Nat → Option (List Label)
  | [] => (p.block l).toOption.map fun _ => [l]
  | position :: rest =>
    ((p.successors l).toOption.bind (·[position]?)).bind fun next =>
      (p.follow next rest).map (l :: ·)

theorem follow_nil_of_block {b : Block} (hb : p.blocks[l.index]? = some b) :
    p.follow l [] = some [l] := by
  unfold follow block
  rw [hb]
  rfl

theorem follow_cons_of_successors {targets : List Label} (h : p.successors l = .ok targets)
    (position : Nat) (rest : List Nat) :
    p.follow l (position :: rest) =
      targets[position]?.bind fun next => (p.follow next rest).map (l :: ·) := by
  rw [follow, h]
  rfl

theorem follow_of_no_block (h : p.blocks[l.index]? = none) (positions : List Nat) :
    p.follow l positions = none := by
  have hblock : ∃ e, p.block l = .error e := by
    unfold block
    rw [h]
    exact ⟨_, rfl⟩
  obtain ⟨e, he⟩ := hblock
  cases positions with
  | nil =>
    rw [follow, he]
    rfl
  | cons position rest =>
    rw [follow, successors, he]
    rfl

theorem follow_head {positions : List Nat} {path : List Label}
    (h : p.follow l positions = some path) : ∃ rest, path = l :: rest := by
  cases positions with
  | nil =>
    obtain ⟨-, -, rfl⟩ := Option.map_eq_some_iff.mp h
    exact ⟨[], rfl⟩
  | cons position rest =>
    cases hsuccessors : p.successors l with
    | error e =>
      rw [follow, hsuccessors] at h
      cases h
    | ok targets =>
      rw [follow_cons_of_successors hsuccessors] at h
      obtain ⟨next, -, h⟩ := Option.bind_eq_some_iff.mp h
      obtain ⟨later, -, rfl⟩ := Option.map_eq_some_iff.mp h
      exact ⟨later, rfl⟩

/-- A path goes along edges. -/
theorem isChain_follow {positions : List Nat} {path : List Label}
    (h : p.follow l positions = some path) : path.IsChain p.Leads := by
  induction positions generalizing l path with
  | nil =>
    obtain ⟨-, -, rfl⟩ := Option.map_eq_some_iff.mp h
    exact .singleton l
  | cons position rest ih =>
    cases hsuccessors : p.successors l with
    | error e =>
      rw [follow, hsuccessors] at h
      cases h
    | ok targets =>
      rw [follow_cons_of_successors hsuccessors] at h
      obtain ⟨next, hnext, h⟩ := Option.bind_eq_some_iff.mp h
      obtain ⟨later, hlater, rfl⟩ := Option.map_eq_some_iff.mp h
      obtain ⟨after, rfl⟩ := follow_head hlater
      exact .cons_cons ⟨targets, hsuccessors, List.mem_of_getElem? hnext⟩ (ih hlater)

/-! ## Projecting -/

/-- The block that a label stands for: the node, if it is that of a copy. -/
def project (pairs : List (Label × Label)) (l : Label) : Label :=
  ((pairs.find? fun pair => pair.2 == l).map (·.1)).getD l

theorem project_of_forall_ne (h : ∀ pair ∈ pairs, pair.2 ≠ l) : project pairs l = l := by
  have hnone : (pairs.find? fun pair => pair.2 == l) = none := by
    rw [List.find?_eq_none]
    intro pair hpair heq
    exact h pair hpair (by simpa using heq)
  unfold project
  rw [hnone, Option.map_none, Option.getD_none]

theorem project_mem (h : (node, copy) ∈ pairs) : (project pairs copy, copy) ∈ pairs := by
  unfold project
  cases hfind : pairs.find? fun pair => pair.2 == copy with
  | none =>
    rw [List.find?_eq_none] at hfind
    exact absurd (beq_self_eq_true copy) (hfind _ h)
  | some found =>
    have hcopy : found.2 = copy := by simpa using List.find?_some hfind
    rw [Option.map_some, Option.getD_some, ← hcopy]
    exact List.mem_of_find?_eq_some hfind

namespace IsSplit

variable (h : IsSplit p domain nodes copies q)

include h

theorem nodup_copies : ((nodes.zip copies).map (·.2)).Nodup := by
  rw [List.map_snd_zip (Nat.le_of_eq h.fresh.length_eq)]
  exact h.fresh.nodup

theorem project_copy (hpair : (node, copy) ∈ nodes.zip copies) :
    project (nodes.zip copies) copy = node :=
  congrArg Prod.fst (List.inj_on_of_nodup_map h.nodup_copies (project_mem hpair) hpair rfl)

theorem project_of_lt (hl : l.index < p.blockCount) : project (nodes.zip copies) l = l := by
  apply project_of_forall_ne
  rintro pair hpair rfl
  have hbound := (h.apart pair hpair).2
  omega

theorem project_redirect (hl : l.index < p.blockCount) :
    project (nodes.zip copies) (redirect (nodes.zip copies) l) = l := by
  rcases redirect_cases (nodes.zip copies) l with ⟨heq, -⟩ | hmem
  · rw [heq, h.project_of_lt hl]
  · exact h.project_copy hmem

/-- Renaming the references of a checked block and projecting them gives them back. -/
theorem mapLabels_redirect_project (hin : p.InRange) {b : Block} (hb : b ∈ p.blocks)
    {i : Instruction} (hi : i ∈ b.instructions) :
    (i.mapLabels (redirect (nodes.zip copies))).mapLabels (project (nodes.zip copies)) = i := by
  rw [Instruction.mapLabels_mapLabels]
  refine Instruction.mapLabels_eq_self fun l hl => ?_
  exact h.project_redirect (hin.target_lt b hb i hi l hl)

theorem mapLabels_project (hin : p.InRange) {b : Block} (hb : b ∈ p.blocks) {i : Instruction}
    (hi : i ∈ b.instructions) : i.mapLabels (project (nodes.zip copies)) = i := by
  refine Instruction.mapLabels_eq_self fun l hl => ?_
  exact h.project_of_lt (hin.target_lt b hb i hi l hl)

end IsSplit

/-! ## Where control can be -/

/-- Control enters the nodes from the domain only, and every block says where it goes next. -/
structure Region (p : Program) (domain nodes : List Label) : Prop where
  transfers : ∀ b ∈ p.blocks, ∃ i, b.last? = some i ∧ i.isControlTransfer = true
  nodup : nodes.Nodup
  entry : ∀ node ∈ nodes, node.index ≠ 0
  disjoint : ∀ l ∈ domain, l ∉ nodes
  entered : ∀ l, l ∉ nodes → (∃ node ∈ nodes, p.Leads l node) → l ∈ domain

theorem Region.exists_targets (hregion : p.Region domain nodes) {b : Block} (hb : b ∈ p.blocks) :
    ∃ targets, b.targets? = some targets := by
  obtain ⟨i, hlast, htransfer⟩ := hregion.transfers b hb
  rw [Instruction.isControlTransfer_eq_isSome_targets?, Option.isSome_iff_exists] at htransfer
  obtain ⟨targets, htargets⟩ := htransfer
  refine ⟨targets, ?_⟩
  unfold Block.targets?
  rw [hlast, Option.bind_some, htargets]

/-- The label is that of a copy, or of an old block that is no node. -/
def Live (p : Program) (nodes copies : List Label) (l : Label) : Prop :=
  l ∈ copies ∨ (l.index < p.blockCount ∧ l ∉ nodes)

namespace IsSplit

variable (h : IsSplit p domain nodes copies q)

include h

theorem not_mem_nodes (hl : p.Live nodes copies l) : l ∉ nodes := by
  rcases hl with hcopy | ⟨-, hout⟩
  · intro hmem
    have hbound := (h.fresh.mem_iff.mp hcopy).1
    have hlt := h.nodes_lt l hmem
    omega
  · exact hout

theorem live_redirect (hl : l.index < p.blockCount) :
    p.Live nodes copies (redirect (nodes.zip copies) l) := by
  by_cases hmem : l ∈ nodes
  · obtain ⟨i, hi⟩ := List.mem_iff_getElem?.mp hmem
    obtain ⟨copy, -, hpair⟩ := h.exists_copy hi
    exact .inl (List.of_mem_zip (redirect_mem hpair)).2
  · rw [(h.redirect_eq_self_iff hl).mpr hmem]
    exact .inr ⟨hl, hmem⟩

theorem redirect_project (hnodup : nodes.Nodup) (hl : p.Live nodes copies l) :
    redirect (nodes.zip copies) (project (nodes.zip copies) l) = l := by
  rcases hl with hcopy | ⟨hlt, hout⟩
  · obtain ⟨node, hpair⟩ := h.exists_node hcopy
    rw [h.project_copy hpair, h.redirect_copy hnodup hpair]
  · rw [h.project_of_lt hlt, (h.redirect_eq_self_iff hlt).mpr hout]

/-- What a block that control can come to is like. -/
theorem block_of_live (hl : p.Live nodes copies l) :
    ∃ b c, p.blocks[(project (nodes.zip copies) l).index]? = some b ∧
      q.blocks[l.index]? = some c ∧
      ((c.phis = (b.mapLabels (redirect (nodes.zip copies))).phis ∧
          c.instructions = (b.mapLabels (redirect (nodes.zip copies))).instructions) ∨
        (l ∉ domain ∧ l.index < p.blockCount ∧
          c = b.extendAll (q.leaving (nodes.zip copies) domain (nodes.zip copies) l.index))) := by
  rcases hl with hcopy | ⟨hlt, hout⟩
  · obtain ⟨node, hpair⟩ := h.exists_node hcopy
    obtain ⟨b, hb, hc⟩ := h.copied _ hpair
    rw [h.project_copy hpair]
    exact ⟨b, _, hb, hc, .inl ⟨rfl, rfl⟩⟩
  · obtain ⟨b, hb⟩ := exists_block_of_lt hlt
    rw [h.project_of_lt hlt]
    by_cases hdomain : l ∈ domain
    · have hc := h.redirected l hdomain
      rw [hb, Option.map_some] at hc
      exact ⟨b, _, hb, hc, .inl ⟨rfl, rfl⟩⟩
    · have hc := h.extended l.index hlt (index_not_mem hdomain)
      rw [hb, Option.map_some] at hc
      exact ⟨b, _, hb, hc, .inr ⟨hdomain, hlt, rfl⟩⟩

/-- Where control is, it has the successors it had before, redirected. -/
theorem successors_of_live (hin : p.InRange) (hregion : p.Region domain nodes)
    (hl : p.Live nodes copies l) :
    ∃ targets, p.successors (project (nodes.zip copies) l) = .ok targets ∧
      q.successors l = .ok (targets.map (redirect (nodes.zip copies))) ∧
      ∀ m ∈ targets, m.index < p.blockCount := by
  have hsuccessors : ∀ {node : Label} {b : Block}, p.blocks[node.index]? = some b →
      ∃ targets, b.targets? = some targets ∧ p.successors node = .ok targets ∧
        ∀ m ∈ targets, m.index < p.blockCount := by
    intro node b hb
    have hmem := Array.mem_of_getElem? hb
    obtain ⟨targets, htargets⟩ := hregion.exists_targets hmem
    refine ⟨targets, htargets, ?_, fun m hm => hin.lt_of_mem_targets hmem htargets hm⟩
    rw [successors_of_block hb, htargets, Option.getD_some]
  rcases hl with hcopy | ⟨hlt, hout⟩
  · obtain ⟨node, hpair⟩ := h.exists_node hcopy
    obtain ⟨b, hb⟩ := exists_block_of_lt (h.nodes_lt _ (List.of_mem_zip hpair).1)
    obtain ⟨targets, htargets, hnode, hrange⟩ := hsuccessors hb
    refine ⟨targets, ?_, ?_, hrange⟩
    · rw [h.project_copy hpair, hnode]
    · rw [h.successors_copy hpair hb, htargets, Option.map_some, Option.getD_some]
  · obtain ⟨b, hb⟩ := exists_block_of_lt hlt
    obtain ⟨targets, htargets, hblock, hrange⟩ := hsuccessors hb
    refine ⟨targets, ?_, ?_, hrange⟩
    · rw [h.project_of_lt hlt, hblock]
    · by_cases hdomain : l ∈ domain
      · rw [h.successors_domain hdomain hb, htargets, Option.map_some, Option.getD_some]
      · -- Outside the domain no target is a node.
        have hkept : targets.map (redirect (nodes.zip copies)) = targets := by
          refine (List.map_congr_left fun m hm => ?_).trans (List.map_id targets)
          refine (h.redirect_eq_self_iff (hrange m hm)).mpr fun hmem => hdomain ?_
          exact hregion.entered l hout ⟨m, hmem, targets, hblock, hm⟩
        rw [h.successors_kept hdomain hb, htargets, Option.getD_some, hkept]

/-- Paths correspond, and control stays where it can be. -/
theorem follow_of_live (hin : p.InRange) (hregion : p.Region domain nodes)
    (hl : p.Live nodes copies l) (positions : List Nat) :
    (q.follow l positions).map (List.map (project (nodes.zip copies))) =
        p.follow (project (nodes.zip copies) l) positions ∧
      ∀ path, q.follow l positions = some path → ∀ m ∈ path, p.Live nodes copies m := by
  induction positions generalizing l with
  | nil =>
    obtain ⟨b, c, hb, hc, -⟩ := h.block_of_live hl
    rw [follow_nil_of_block hb, follow_nil_of_block hc]
    refine ⟨rfl, ?_⟩
    intro path hpath m hm
    cases hpath
    rw [List.mem_singleton] at hm
    exact hm ▸ hl
  | cons position rest ih =>
    obtain ⟨targets, hbefore, hafter, hrange⟩ := h.successors_of_live hin hregion hl
    rw [follow_cons_of_successors hbefore, follow_cons_of_successors hafter, List.getElem?_map]
    cases hnext : targets[position]? with
    | none => exact ⟨rfl, fun path hpath => by cases hpath⟩
    | some next =>
      have hlt := hrange next (List.mem_of_getElem? hnext)
      obtain ⟨heq, hlive⟩ := ih (h.live_redirect hlt)
      rw [h.project_redirect hlt] at heq
      refine ⟨?_, ?_⟩
      · rw [Option.map_some, Option.bind_some, Option.bind_some, ← heq]
        cases q.follow (redirect (nodes.zip copies) next) rest <;> rfl
      · intro path hpath m hm
        obtain ⟨later, hlater, rfl⟩ := Option.map_eq_some_iff.mp hpath
        rcases List.mem_cons.mp hm with rfl | hm
        · exact hl
        · exact hlive later hlater m hm

end IsSplit

/-! ## What control finds there -/

/-- The block has the code of the block it stands for, up to the labels in it. -/
def SameCode (p q : Program) (project : Label → Label) (l : Label) : Prop :=
  ∃ b c, p.blocks[(project l).index]? = some b ∧ q.blocks[l.index]? = some c ∧
    c.instructions.map (·.mapLabels project) = b.instructions ∧
    c.phis.map (·.dest) = b.phis.map (·.dest)

/-- When control comes from one block to the other, the phis take the values that they take in
the blocks these stand for. -/
def SameFlow (p q : Program) (project : Label → Label) (l m : Label) : Prop :=
  ∃ b c, p.blocks[(project m).index]? = some b ∧ q.blocks[m.index]? = some c ∧
    c.phis.map (·.valuesFrom l) = b.phis.map (·.valuesFrom (project l))

theorem valuesFrom_mapLabels {phi : Phi} {f : Label → Label}
    (hsource : ∀ i ∈ phi.incomings, f i.source = l ↔ i.source = m) :
    (phi.mapLabels f).valuesFrom l = phi.valuesFrom m := by
  unfold Phi.valuesFrom Phi.mapLabels
  rw [List.filter_map, List.map_map]
  have hfilter : phi.incomings.filter
      ((fun i : Incoming => i.source == l) ∘ fun i => { i with source := f i.source }) =
        phi.incomings.filter (·.source == m) := by
    refine List.filter_congr fun i hi => ?_
    rw [Function.comp_apply, Bool.eq_iff_iff, beq_iff_eq, beq_iff_eq]
    exact hsource i hi
  rw [hfilter]
  rfl

namespace IsSplit

variable (h : IsSplit p domain nodes copies q)

include h

theorem sameCode_of_live (hin : p.InRange) (hl : p.Live nodes copies l) :
    SameCode p q (project (nodes.zip copies)) l := by
  obtain ⟨b, c, hb, hc, ⟨hphis, hinstructions⟩ | ⟨-, -, rfl⟩⟩ := h.block_of_live hl
  · refine ⟨b, c, hb, hc, ?_, ?_⟩
    · rw [hinstructions, Block.mapLabels, List.map_map]
      refine (List.map_congr_left fun i hi => ?_).trans (List.map_id b.instructions)
      exact h.mapLabels_redirect_project hin (Array.mem_of_getElem? hb) hi
    · rw [hphis, Block.mapLabels, List.map_map]
      rfl
  · refine ⟨b, _, hb, hc, ?_, ?_⟩
    · refine (List.map_congr_left fun i hi => ?_).trans (List.map_id b.instructions)
      exact h.mapLabels_project hin (Array.mem_of_getElem? hb) hi
    · rw [Block.extendAll, List.map_map]
      exact List.map_congr_left fun phi _ => phi.dest_extendAll _

/-- A block outside the region is an exit. -/
theorem isExit_of_live (hm : m.index < p.blockCount) (hnode : m ∉ nodes) (hdomain : m ∉ domain) :
    isExit (nodes.zip copies) domain m = true := by
  have hcopy : m ∉ copies := by
    rw [h.fresh.mem_iff]
    omega
  exact isExit_of_not_mem hnode hcopy hdomain

/-- A copy that leads to a block outside the region leaves for it. -/
theorem mem_leaving_of_leads (hpair : (node, copy) ∈ nodes.zip copies) (hlead : q.Leads copy m)
    (hm : m.index < p.blockCount) (hnode : m ∉ nodes) (hdomain : m ∉ domain) :
    (node, copy) ∈ q.leaving (nodes.zip copies) domain (nodes.zip copies) m.index := by
  obtain ⟨targets, hsuccessors, hmem⟩ := hlead
  exact (mem_leaving hsuccessors).mpr ⟨hpair, hmem, h.isExit_of_live hm hnode hdomain⟩

theorem leads_of_mem_leaving {pair : Label × Label}
    (hpair : pair ∈ q.leaving (nodes.zip copies) domain (nodes.zip copies) m.index) :
    q.Leads pair.2 m := by
  have hmem : pair ∈ nodes.zip copies := (List.mem_filter.mp hpair).1
  obtain ⟨b, hb⟩ := exists_block_of_lt (h.nodes_lt _ (List.of_mem_zip hmem).1)
  have hsuccessors := h.successors_copy hmem hb
  exact ⟨_, hsuccessors, ((mem_leaving hsuccessors).mp hpair).2.1⟩

theorem admits {phi : Phi} (hphi : ∀ i ∈ phi.incomings, i.source.index < p.blockCount)
    {others : List (Label × Label)} (hsub : others.Sublist (nodes.zip copies)) :
    phi.Admits others where
  nodup := h.nodup_copies.sublist (hsub.map _)
  new := by
    rintro pair hpair ⟨i, hi, hsource⟩
    have hbound := (h.apart pair (hsub.subset hpair)).2
    have hlt := hphi i hi
    rw [hsource] at hlt
    omega
  apart := by
    intro pair hpair other hother heq
    have hbound := (h.apart pair (hsub.subset hpair)).2
    have hlt := (h.apart other (hsub.subset hother)).1
    rw [heq] at hbound
    omega

/-- The phis of an exit take from a copy what they took from its node. -/
theorem valuesFrom_exit (hl : p.Live nodes copies l) (hlead : q.Leads l m)
    (hm : m.index < p.blockCount) (hnode : m ∉ nodes) (hdomain : m ∉ domain) {phi : Phi}
    (hphi : ∀ i ∈ phi.incomings, i.source.index < p.blockCount) :
    (phi.extendAll (q.leaving (nodes.zip copies) domain (nodes.zip copies) m.index)).valuesFrom l =
      phi.valuesFrom (project (nodes.zip copies) l) := by
  have hsub : (q.leaving (nodes.zip copies) domain (nodes.zip copies) m.index).Sublist
      (nodes.zip copies) := List.filter_sublist
  rcases hl with hcopy | ⟨hlt, -⟩
  · obtain ⟨node, hpair⟩ := h.exists_node hcopy
    have hleaving := h.mem_leaving_of_leads hpair hlead hm hnode hdomain
    rw [h.project_copy hpair, Phi.valuesFrom_extendAll_copy (h.admits hphi hsub) hleaving]
  · rw [h.project_of_lt hlt]
    apply Phi.valuesFrom_extendAll_of_ne (h.admits hphi hsub)
    intro pair hpair heq
    have hbound := (h.apart pair (hsub.subset hpair)).2
    rw [heq] at hbound
    omega

theorem sameFlow_of_leads (hin : p.InRange) (hnodup : nodes.Nodup)
    (hl : p.Live nodes copies l) (hm : p.Live nodes copies m) (hlead : q.Leads l m) :
    SameFlow p q (project (nodes.zip copies)) l m := by
  obtain ⟨b, c, hb, hc, ⟨hphis, -⟩ | ⟨hdomain, hlt, rfl⟩⟩ := h.block_of_live hm
  · refine ⟨b, c, hb, hc, ?_⟩
    rw [hphis, Block.mapLabels, List.map_map]
    refine List.map_congr_left fun phi hphi => valuesFrom_mapLabels fun i hi => ?_
    have hsource := hin.phi_source b (Array.mem_of_getElem? hb) phi hphi i hi
    constructor
    · intro heq
      rw [← heq, h.project_redirect hsource]
    · intro heq
      rw [heq, h.redirect_project hnodup hl]
  · refine ⟨b, _, hb, hc, ?_⟩
    rw [Block.extendAll, List.map_map]
    refine List.map_congr_left fun phi hphi => ?_
    exact h.valuesFrom_exit hl hlead hlt (h.not_mem_nodes hm) hdomain
      (hin.phi_source b (Array.mem_of_getElem? hb) phi hphi)

end IsSplit

theorem follow_split (hok : p.verifyOperands = .ok ()) (hregion : p.Region domain nodes)
    (hsplit : p.split domain nodes = .ok (.ok copies, q)) (positions : List Nat) :
    (q.follow 0 positions).map (List.map (project (nodes.zip copies))) = p.follow 0 positions ∧
      ∀ path, q.follow 0 positions = some path →
        (∀ l ∈ path, l ∉ nodes ∧ SameCode p q (project (nodes.zip copies)) l) ∧
          path.IsChain (SameFlow p q (project (nodes.zip copies))) := by
  have hin := verifyOperands_eq_ok_iff.mp hok
  have h := isSplit_of_split hin hsplit
  by_cases hblocks : 0 < p.blockCount
  · have hentry : (0 : Label) ∉ nodes := fun hmem => hregion.entry _ hmem rfl
    have hfirst : p.Live nodes copies 0 := .inr ⟨hblocks, hentry⟩
    obtain ⟨heq, hlive⟩ := h.follow_of_live hin hregion hfirst positions
    rw [h.project_of_lt hblocks] at heq
    refine ⟨heq, fun path hpath => ⟨fun l hl => ?_, ?_⟩⟩
    · have hl' := hlive path hpath l hl
      exact ⟨h.not_mem_nodes hl', h.sameCode_of_live hin hl'⟩
    · refine (isChain_follow hpath).imp_of_mem_imp fun l m hl hm hlead => ?_
      exact h.sameFlow_of_leads hin hregion.nodup (hlive path hpath l hl)
        (hlive path hpath m hm) hlead
  · -- Without blocks there are no nodes, and no paths before or after.
    have hnodes : nodes = [] := by
      rw [List.eq_nil_iff_forall_not_mem]
      intro l hl
      have := h.nodes_lt l hl
      omega
    have hcount : q.blockCount = 0 := by
      rw [h.blockCount_eq, hnodes, List.length_nil]
      omega
    have hempty : p.blockCount ≤ 0 := Nat.le_of_not_lt hblocks
    have hp : p.blocks[(0 : Label).index]? = none := Array.getElem?_eq_none hempty
    have hq : q.blocks[(0 : Label).index]? = none := Array.getElem?_eq_none (Nat.le_of_eq hcount)
    rw [follow_of_no_block hp, follow_of_no_block hq]
    exact ⟨rfl, fun path hpath => by cases hpath⟩

/-- Three blocks one after the other, the last of which takes a value from the second. -/
def chain : Program :=
  ⟨#[⟨0, [], [.jump 1]⟩,
    ⟨1, [], [.jump 2]⟩,
    ⟨2, [⟨1, [⟨1, 0⟩]⟩], [.exit (some 1)]⟩], .replicate 2 ⟨none⟩⟩

/-- The same with a copy of the second block, which control takes in its place. -/
def chainSplit : Program :=
  ⟨#[⟨0, [], [.jump 3]⟩,
    ⟨1, [], [.jump 2]⟩,
    ⟨2, [⟨1, [⟨1, 0⟩, ⟨3, 0⟩]⟩], [.exit (some 1)]⟩,
    ⟨3, [], [.jump 2]⟩], .replicate 2 ⟨none⟩⟩

theorem chain_split : chain.split [0] [1] = .ok (.ok [3], chainSplit) := by
  cbv

theorem region_chain : chain.Region [0] [1] where
  transfers b hb := by
    simp only [chain, List.mem_toArray, List.mem_cons, List.not_mem_nil, or_false] at hb
    rcases hb with rfl | rfl | rfl
    · exact ⟨_, rfl, rfl⟩
    · exact ⟨_, rfl, rfl⟩
    · exact ⟨_, rfl, rfl⟩
  nodup := List.nodup_singleton _
  entry := by decide
  disjoint := by decide
  entered l hout hlead := by
    obtain ⟨node, hnode, targets, hsuccessors, hmem⟩ := hlead
    rw [List.mem_singleton] at hnode
    subst hnode
    have hlt : l.index < 3 := lt_blockCount_of_successors hsuccessors
    obtain hfirst | hsecond | hthird : l.index = 0 ∨ l.index = 1 ∨ l.index = 2 := by omega
    · exact List.mem_singleton.mpr (Label.ext hfirst)
    · exact absurd (List.mem_singleton.mpr (Label.ext hsecond)) hout
    · obtain rfl : l = 2 := Label.ext hthird
      cases hsuccessors
      cases hmem

theorem follow_chain :
    chain.verifyOperands = .ok () ∧ chain.Region [0] [1] ∧
      chain.split [0] [1] = .ok (.ok [3], chainSplit) ∧
      chainSplit.follow 0 [0, 0] = some [0, 3, 2] ∧
      SameFlow chain chainSplit (project [(1, 3)]) 3 2 := by
  have hok : chain.verifyOperands = .ok () := rfl
  have hpath : chainSplit.follow 0 [0, 0] = some [0, 3, 2] := rfl
  obtain ⟨-, hall⟩ := follow_split hok region_chain chain_split [0, 0]
  obtain ⟨-, hflow⟩ := hall _ hpath
  rw [List.isChain_cons_cons, List.isChain_cons_cons] at hflow
  exact ⟨hok, region_chain, chain_split, hpath, hflow.2.1⟩

end MethodFlow.Program
