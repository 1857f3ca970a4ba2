import MethodFlow.Proofs.Splitting.Paths
import MethodFlow.Proofs.Verification.WellFormed
/-!
# Split programs are verified

A split under which control enters the nodes from the domain only takes a verified program to a
verified one:

* `IsSplit.wellFormed`: what verification asks of operands, instructions and phis holds again;
* `not_reached_of_mem_nodes`: control comes to none of the nodes any more;
* `verify_split`: such a split succeeds as long as there are labels for the copies, and any number
  of them can follow each other;
* `split_exits_refused`: without a label for a copy it breaks off.
-/

namespace MethodFlow

open Relation

/-! ## Renaming keeps what is checked by instruction -/

namespace Instruction

variable {i : Instruction} {f : Label → Label}

@[simp] theorem coherent_mapLabels : (i.mapLabels f).Coherent ↔ i.Coherent := by
  cases i with
  | switch subject table otherwise => simp [mapLabels, Coherent, Function.comp_def]
  | _ => exact Iff.rfl

end Instruction

/-! ## Sources of extended phis -/

namespace Phi

variable {phi : Phi} {pairs : List (Label × Label)}

/-- A phi takes from a node once at most, and so it does from the copy. -/
theorem nodup_sources_retarget (hnodup : (phi.incomings.map (·.source)).Nodup)
    (pair : Label × Label) : ((phi.retarget pair).map (·.source)).Nodup := by
  have hnode : ((phi.incomings.filter (·.source == pair.1)).map (·.source)).Nodup :=
    hnodup.sublist (List.filter_sublist.map _)
  have hnodes : (phi.incomings.filter (·.source == pair.1)).map (·.source) =
      .replicate (phi.incomings.filter (·.source == pair.1)).length pair.1 := by
    refine List.eq_replicate_iff.mpr ⟨List.length_map _, fun s hs => ?_⟩
    obtain ⟨i, hi, rfl⟩ := List.mem_map.mp hs
    exact eq_of_beq (List.mem_filter.mp hi).2
  have hcopies : (phi.retarget pair).map (·.source) =
      .replicate (phi.incomings.filter (·.source == pair.1)).length pair.2 := by
    unfold retarget
    rw [List.map_map]
    exact List.map_const'
  rw [hnodes, List.nodup_replicate] at hnode
  rw [hcopies, List.nodup_replicate]
  exact hnode

theorem nodup_sources_extendAll (h : phi.Admits pairs)
    (hnodup : (phi.incomings.map (·.source)).Nodup) :
    ((phi.extendAll pairs).incomings.map (·.source)).Nodup := by
  rw [incomings_extendAll h, List.map_append, List.map_flatMap]
  refine List.nodup_append.mpr ⟨hnodup, List.nodup_flatMap.mpr ⟨fun pair _ => ?_, ?_⟩, ?_⟩
  · exact nodup_sources_retarget hnodup pair
  · refine (List.pairwise_map.mp h.nodup).imp fun {pair other} hne s hs hs' => ?_
    obtain ⟨i, hi, rfl⟩ := List.mem_map.mp hs
    obtain ⟨j, hj, heq⟩ := List.mem_map.mp hs'
    rw [(mem_retarget.mp hi).1, (mem_retarget.mp hj).1] at heq
    exact hne heq.symm
  · intro s hs t ht heq
    obtain ⟨i, hi, rfl⟩ := List.mem_map.mp hs
    obtain ⟨pair, hpair, ht⟩ := List.mem_flatMap.mp ht
    obtain ⟨j, hj, rfl⟩ := List.mem_map.mp ht
    exact h.new pair hpair ⟨i, hi, heq.trans (mem_retarget.mp hj).1⟩

end Phi

namespace Program

variable {p q r : Program} {domain nodes copies : List Label} {l m : Label} {b c : Block}

namespace IsSplit

variable (h : IsSplit p domain nodes copies q)

include h

/-! ## Blocks after a split -/

theorem redirect_lt (hl : l.index < p.blockCount) :
    (redirect (nodes.zip copies) l).index < q.blockCount := by
  rw [h.blockCount_eq]
  rcases h.live_redirect hl with hcopy | ⟨hlt, -⟩
  · exact (h.fresh.mem_iff.mp hcopy).2
  · omega

/-- A block from before is redirected, or its phis are extended. -/
theorem exists_image {n : Nat} (hb : p.blocks[n]? = some b) :
    ∃ c, q.blocks[n]? = some c ∧ (c = b.mapLabels (redirect (nodes.zip copies)) ∨
      ∃ others, others.Sublist (nodes.zip copies) ∧ c = b.extendAll others) := by
  have hlt : n < p.blockCount := (Array.getElem?_eq_some_iff.mp hb).1
  by_cases hdomain : n ∈ domain.map (·.index)
  · obtain ⟨l, hl, rfl⟩ := List.mem_map.mp hdomain
    have hblock := h.redirected l hl
    rw [hb, Option.map_some] at hblock
    exact ⟨_, hblock, .inl rfl⟩
  · have hblock := h.extended n hlt hdomain
    rw [hb, Option.map_some] at hblock
    exact ⟨_, hblock, .inr ⟨_, List.filter_sublist, rfl⟩⟩

/-- Every block is a block from before, under the number of its place or the one it had: redirected,
or with its phis extended. -/
theorem exists_original {n : Nat} (hc : q.blocks[n]? = some c) :
    (c.label.index = n ∨ p.blocks[n]?.map (·.label) = some c.label) ∧ ∃ b ∈ p.blocks,
      (c.phis = (b.mapLabels (redirect (nodes.zip copies))).phis ∧
        c.instructions = (b.mapLabels (redirect (nodes.zip copies))).instructions) ∨
      ∃ others, others.Sublist (nodes.zip copies) ∧ c = b.extendAll others := by
  have hn : n < q.blockCount := (Array.getElem?_eq_some_iff.mp hc).1
  rw [h.blockCount_eq] at hn
  by_cases hlt : n < p.blockCount
  · obtain ⟨b, hb⟩ : ∃ b, p.blocks[n]? = some b := ⟨_, Array.getElem?_eq_getElem hlt⟩
    have hmem := Array.mem_of_getElem? hb
    obtain ⟨c', hc', himage⟩ := h.exists_image hb
    rw [hc, Option.some.injEq] at hc'
    subst hc'
    rw [hb]
    rcases himage with rfl | ⟨others, hsub, rfl⟩
    · exact ⟨.inr rfl, b, hmem, .inl ⟨rfl, rfl⟩⟩
    · exact ⟨.inr rfl, b, hmem, .inr ⟨others, hsub, rfl⟩⟩
  · obtain ⟨copy, hcopy⟩ := h.fresh.exists_getElem? (i := n - p.blockCount) (by omega)
    have hindex : copy.index = n := by
      have := h.fresh.index_eq hcopy
      omega
    obtain ⟨node, hpair⟩ := h.exists_node (List.mem_of_getElem? hcopy)
    obtain ⟨b, hb, hblock⟩ := h.copied _ hpair
    rw [hindex, hc, Option.some.injEq] at hblock
    rw [hblock]
    exact ⟨.inl hindex, b, Array.mem_of_getElem? hb, .inl ⟨rfl, rfl⟩⟩

theorem labelled (hlabel : p.Labelled) : q.Labelled := by
  intro n c hc
  rcases (h.exists_original hc).1 with hindex | hold
  · exact hindex
  · obtain ⟨b, hb, heq⟩ := Option.map_eq_some_iff.mp hold
    exact heq ▸ hlabel n b hb

/-- Instructions are those from before, with their labels renamed. -/
theorem exists_instructions (hc : c ∈ q.blocks) :
    ∃ b ∈ p.blocks, ∃ f : Label → Label, c.instructions = b.instructions.map (·.mapLabels f) ∧
      ∀ l : Label, l.index < p.blockCount → (f l).index < q.blockCount := by
  obtain ⟨n, hn⟩ := Array.mem_iff_getElem?.mp hc
  obtain ⟨-, b, hb, ⟨-, hinstructions⟩ | ⟨others, -, rfl⟩⟩ := h.exists_original hn
  · exact ⟨b, hb, _, hinstructions, fun l => h.redirect_lt⟩
  · refine ⟨b, hb, id, ?_, fun l hl => ?_⟩
    · refine ((List.map_congr_left fun i _ => ?_).trans (List.map_id b.instructions)).symm
      exact Instruction.mapLabels_eq_self fun _ _ => rfl
    · rw [h.blockCount_eq]
      exact Nat.lt_add_right _ hl

/-- A phi gives its variable values from before, and its sources are in the table of blocks. -/
theorem exists_phi (hin : p.InRange) (hc : c ∈ q.blocks) {phi' : Phi}
    (hphi' : phi' ∈ c.phis) :
    ∃ b ∈ p.blocks, ∃ phi ∈ b.phis, phi'.dest = phi.dest ∧ ∀ i' ∈ phi'.incomings,
      i'.source.index < q.blockCount ∧ ∃ i ∈ phi.incomings, i'.value = i.value := by
  obtain ⟨n, hn⟩ := Array.mem_iff_getElem?.mp hc
  obtain ⟨-, b, hb, ⟨hphis, -⟩ | ⟨others, hsub, rfl⟩⟩ := h.exists_original hn
  · rw [hphis] at hphi'
    obtain ⟨phi, hphi, rfl⟩ := List.mem_map.mp hphi'
    refine ⟨b, hb, phi, hphi, rfl, fun i' hi' => ?_⟩
    obtain ⟨i, hi, rfl⟩ := List.mem_map.mp hi'
    exact ⟨h.redirect_lt (hin.phi_source b hb phi hphi i hi), i, hi, rfl⟩
  · obtain ⟨phi, hphi, rfl⟩ := List.mem_map.mp hphi'
    have hsource := hin.phi_source b hb phi hphi
    refine ⟨b, hb, phi, hphi, phi.dest_extendAll _, fun i' hi' => ?_⟩
    rw [Phi.incomings_extendAll (h.admits hsource hsub), List.mem_append] at hi'
    rcases hi' with hi' | hi'
    · refine ⟨?_, i', hi', rfl⟩
      have := hsource i' hi'
      rw [h.blockCount_eq]
      omega
    · obtain ⟨pair, hpair, hi'⟩ := List.mem_flatMap.mp hi'
      obtain ⟨hcopy, hvalue⟩ := Phi.mem_retarget.mp hi'
      have hlt := (h.fresh.mem_iff.mp (List.of_mem_zip (hsub.subset hpair)).2).2
      rw [hcopy, h.blockCount_eq]
      exact ⟨hlt, _, hvalue, rfl⟩

theorem inRange (hin : p.InRange) : q.InRange := by
  have hvariables : q.variableCount = p.variableCount := congrArg Array.size h.infos_eq
  refine ⟨fun c hc phi' hphi' => ?_, fun c hc phi' hphi' i' hi' => ?_,
    fun c hc phi' hphi' i' hi' => ?_, fun c hc i' hi' v hv => ?_, fun c hc i' hi' l' hl' => ?_⟩
  · obtain ⟨b, hb, phi, hphi, hdest, -⟩ := h.exists_phi hin hc hphi'
    rw [hdest, hvariables]
    exact hin.phi_dest b hb phi hphi
  · obtain ⟨b, hb, phi, hphi, -, hall⟩ := h.exists_phi hin hc hphi'
    obtain ⟨-, i, hi, hvalue⟩ := hall i' hi'
    rw [hvalue, hvariables]
    exact hin.phi_value b hb phi hphi i hi
  · obtain ⟨b, hb, phi, hphi, -, hall⟩ := h.exists_phi hin hc hphi'
    exact (hall i' hi').1
  · obtain ⟨b, hb, f, hinstructions, -⟩ := h.exists_instructions hc
    rw [hinstructions] at hi'
    obtain ⟨i, hi, rfl⟩ := List.mem_map.mp hi'
    rw [Instruction.vars_mapLabels] at hv
    rw [hvariables]
    exact hin.variable_lt b hb i hi v hv
  · obtain ⟨b, hb, f, hinstructions, hf⟩ := h.exists_instructions hc
    rw [hinstructions] at hi'
    obtain ⟨i, hi, rfl⟩ := List.mem_map.mp hi'
    rw [Instruction.targets_mapLabels] at hl'
    obtain ⟨l, hl, rfl⟩ := List.mem_map.mp hl'
    exact hf l (hin.target_lt b hb i hi l hl)

theorem allFit (hfit : p.AllFit) : q.AllFit := by
  intro c hc position i' hi'
  obtain ⟨b, hb, f, hinstructions, -⟩ := h.exists_instructions hc
  rw [hinstructions, List.getElem?_map] at hi'
  obtain ⟨i, hi, rfl⟩ := Option.map_eq_some_iff.mp hi'
  obtain ⟨hplace, hcoherent⟩ := hfit b hb position i hi
  unfold Block.Fits
  rw [hinstructions, List.length_map, Instruction.isControlTransfer_mapLabels,
    Instruction.coherent_mapLabels]
  exact ⟨hplace, hcoherent⟩

theorem transfers
    (htransfers : ∀ b ∈ p.blocks, ∃ i, b.last? = some i ∧ i.isControlTransfer = true) :
    ∀ c ∈ q.blocks, ∃ i, c.last? = some i ∧ i.isControlTransfer = true := by
  intro c hc
  obtain ⟨b, hb, f, hinstructions, -⟩ := h.exists_instructions hc
  obtain ⟨i, hlast, htransfer⟩ := htransfers b hb
  refine ⟨i.mapLabels f, ?_, by rw [Instruction.isControlTransfer_mapLabels, htransfer]⟩
  unfold Block.last? at hlast ⊢
  rw [hinstructions, List.getLast?_map, hlast, Option.map_some]

/-! ## Where control goes after a split -/

section Flow

variable (hin : p.InRange) (hregion : p.Region domain nodes)

include hin hregion

/-- Where control is, it goes where it did before, and from there to the copy if there is one. -/
theorem leads_iff_of_live (hl : p.Live nodes copies l) (hm : p.Live nodes copies m) :
    q.Leads l m ↔ p.Leads (project (nodes.zip copies) l) (project (nodes.zip copies) m) := by
  obtain ⟨targets, hbefore, hafter, hrange⟩ := h.successors_of_live hin hregion hl
  unfold Leads
  rw [hbefore, hafter]
  simp only [Except.ok.injEq, exists_eq_left', List.mem_map]
  constructor
  · rintro ⟨k, hk, rfl⟩
    rwa [h.project_redirect (hrange k hk)]
  · exact fun hmem => ⟨_, hmem, h.redirect_project hregion.nodup hm⟩

theorem live_of_leads (hl : p.Live nodes copies l) (hlead : q.Leads l m) :
    p.Live nodes copies m := by
  obtain ⟨targets, -, hafter, hrange⟩ := h.successors_of_live hin hregion hl
  obtain ⟨found, hfound, hm⟩ := hlead
  rw [hafter] at hfound
  cases hfound
  obtain ⟨k, hk, rfl⟩ := List.mem_map.mp hm
  exact h.live_redirect (hrange k hk)

/-- Control comes to copies and to old blocks that are no nodes, and only where it came before. -/
theorem live_of_reached (hpos : 0 < p.blockCount) (hreached : q.Reached l) :
    p.Live nodes copies l ∧ p.Reached (project (nodes.zip copies) l) := by
  have hentry : p.Live nodes copies 0 :=
    .inr ⟨hpos, fun hmem => hregion.entry 0 hmem rfl⟩
  induction hreached with
  | refl =>
    rw [h.project_of_lt hpos]
    exact ⟨hentry, .refl⟩
  | tail _ hlead ih =>
    obtain ⟨hl, hbefore⟩ := ih
    have hm := h.live_of_leads hin hregion hl hlead
    exact ⟨hm, hbefore.tail ((h.leads_iff_of_live hin hregion hl hm).mp hlead)⟩

theorem not_reached_of_mem_nodes (hl : l ∈ nodes) : ¬q.Reached l := by
  intro hreached
  have hlt := h.nodes_lt l hl
  exact h.not_mem_nodes (h.live_of_reached hin hregion (by omega) hreached).1 hl

/-- The nodes keep the successors that are no nodes, dead as they are. -/
theorem leads_of_not_mem (hlead : p.Leads l m) (hout : m ∉ nodes) : q.Leads l m := by
  obtain ⟨b, hb⟩ := exists_block_of_lt hlead.lt
  obtain ⟨targets, htargets⟩ := hregion.exists_targets (Array.mem_of_getElem? hb)
  have hm : m ∈ targets := by
    have hmem := (leads_iff_of_block hb).mp hlead
    rwa [htargets, Option.getD_some] at hmem
  by_cases hdomain : l ∈ domain
  · refine ⟨_, h.successors_domain hdomain hb, ?_⟩
    rw [htargets, Option.map_some, Option.getD_some, List.mem_map]
    exact ⟨m, hm, (h.redirect_eq_self_iff (hin.lt_of_leads hlead)).mpr hout⟩
  · refine ⟨_, h.successors_kept hdomain hb, ?_⟩
    rwa [htargets, Option.getD_some]

/-! ## Phis after a split -/

theorem agrees_redirected (hpos : 0 < p.blockCount) (hl : p.Live nodes copies l) {phi : Phi}
    (hagrees : phi.Agrees p (project (nodes.zip copies) l)) :
    (phi.mapLabels (redirect (nodes.zip copies))).Agrees q l := by
  have hsource : ∀ i ∈ phi.incomings, i.source.index < p.blockCount :=
    fun i hi => (hagrees.leads i hi).lt
  refine ⟨fun i' hi' => ?_, ?_, fun m hlead hreached => ?_⟩
  · obtain ⟨i, hi, rfl⟩ := List.mem_map.mp hi'
    refine (h.leads_iff_of_live hin hregion (h.live_redirect (hsource i hi)) hl).mpr ?_
    rw [h.project_redirect (hsource i hi)]
    exact hagrees.leads i hi
  · have hmap : (phi.mapLabels (redirect (nodes.zip copies))).incomings.map (·.source) =
        (phi.incomings.map (·.source)).map (redirect (nodes.zip copies)) := by
      simp [Phi.mapLabels]
    rw [hmap]
    refine hagrees.nodup.map_on fun s hs t ht heq => ?_
    obtain ⟨i, hi, rfl⟩ := List.mem_map.mp hs
    obtain ⟨j, hj, rfl⟩ := List.mem_map.mp ht
    rw [← h.project_redirect (hsource i hi), heq, h.project_redirect (hsource j hj)]
  · obtain ⟨hm, hbefore⟩ := h.live_of_reached hin hregion hpos hreached
    obtain ⟨i, hi, hproject⟩ := hagrees.complete _
      ((h.leads_iff_of_live hin hregion hm hl).mp hlead) hbefore
    refine ⟨_, List.mem_map_of_mem hi, ?_⟩
    rw [hproject]
    exact h.redirect_project hregion.nodup hm

/-- An exit has as new sources the copies that leave for it, each of them once. -/
theorem agrees_extended (hpos : 0 < p.blockCount) (hl : l.index < p.blockCount) (hnode : l ∉ nodes)
    (hdomain : l ∉ domain) {phi : Phi} (hagrees : phi.Agrees p l) :
    (phi.extendAll
      (q.leaving (nodes.zip copies) domain (nodes.zip copies) l.index)).Agrees q l := by
  have hsource : ∀ i ∈ phi.incomings, i.source.index < p.blockCount :=
    fun i hi => (hagrees.leads i hi).lt
  have hlive : p.Live nodes copies l := .inr ⟨hl, hnode⟩
  have hsub : (q.leaving (nodes.zip copies) domain (nodes.zip copies) l.index).Sublist
      (nodes.zip copies) := List.filter_sublist
  have hadmits := h.admits hsource hsub
  refine ⟨fun i hi => ?_, ?_, fun m hlead hreached => ?_⟩
  · rw [Phi.incomings_extendAll hadmits, List.mem_append] at hi
    rcases hi with hi | hi
    · exact h.leads_of_not_mem hin hregion (hagrees.leads i hi) hnode
    · obtain ⟨pair, hpair, hi⟩ := List.mem_flatMap.mp hi
      rw [(Phi.mem_retarget.mp hi).1]
      exact h.leads_of_mem_leaving hpair
  · exact Phi.nodup_sources_extendAll hadmits hagrees.nodup
  · obtain ⟨hm, hbefore⟩ := h.live_of_reached hin hregion hpos hreached
    have hprojected := (h.leads_iff_of_live hin hregion hm hlive).mp hlead
    rw [h.project_of_lt hl] at hprojected
    obtain ⟨i, hi, hproject⟩ := hagrees.complete _ hprojected hbefore
    rw [Phi.incomings_extendAll hadmits]
    rcases hm with hcopy | ⟨hlt, -⟩
    · obtain ⟨node, hpair⟩ := h.exists_node hcopy
      rw [h.project_copy hpair] at hproject
      have hleaving := h.mem_leaving_of_leads hpair hlead hl hnode hdomain
      have hretarget : ⟨m, i.value⟩ ∈ phi.retarget (node, m) :=
        Phi.mem_retarget.mpr ⟨rfl, hproject ▸ hi⟩
      exact ⟨_, List.mem_append_right _ (List.mem_flatMap.mpr ⟨_, hleaving, hretarget⟩), rfl⟩
    · rw [h.project_of_lt hlt] at hproject
      exact ⟨i, List.mem_append_left _ hi, hproject⟩

theorem phisAgree (hlabel : p.Labelled) (hagree : p.PhisAgree) : q.PhisAgree := by
  intro c hc hreached phi' hphi'
  have hpos : 0 < p.blockCount := by
    have hlt := (h.labelled hlabel).lt hc
    rw [h.blockCount_eq] at hlt
    rcases Nat.eq_zero_or_pos p.blockCount with hzero | hpos
    · -- Without blocks there are no nodes, and no copies of them.
      have hnodes : nodes = [] := by
        rw [List.eq_nil_iff_forall_not_mem]
        intro l hl
        have := h.nodes_lt l hl
        omega
      rw [hnodes, List.length_nil] at hlt
      omega
    · exact hpos
  obtain ⟨hlive, hbefore⟩ := h.live_of_reached hin hregion hpos hreached
  obtain ⟨b, c', hb, hc', hcases⟩ := h.block_of_live hlive
  rw [(h.labelled hlabel).getElem?_label hc, Option.some.injEq] at hc'
  subst hc'
  have hphis := hagree b (Array.mem_of_getElem? hb)
  unfold Block.PhisAgree at hphis
  rw [hlabel.label_eq hb] at hphis
  rcases hcases with ⟨hredirected, -⟩ | ⟨hdomain, hlt, hextended⟩
  · rw [hredirected] at hphi'
    obtain ⟨phi, hphi, rfl⟩ := List.mem_map.mp hphi'
    exact h.agrees_redirected hin hregion hpos hlive (hphis hbefore phi hphi)
  · rw [hextended] at hphi'
    obtain ⟨phi, hphi, rfl⟩ := List.mem_map.mp hphi'
    rw [h.project_of_lt hlt] at hphis hbefore
    exact h.agrees_extended hin hregion hpos hlt (h.not_mem_nodes hlive) hdomain
      (hphis hbefore phi hphi)

end Flow

theorem wellFormed (hlabel : p.Labelled) (hregion : p.Region domain nodes)
    (hwell : p.WellFormed) : q.WellFormed where
  inRange := h.inRange hwell.inRange
  allFit := h.allFit hwell.allFit
  phisAgree := h.phisAgree hwell.inRange hregion hlabel hwell.phisAgree

end IsSplit

/-! ## Splits one after the other -/

/-- A verified program whose blocks carry their own numbers and say where control goes next. -/
structure Splittable (p : Program) : Prop where
  verified : p.verify = .ok ()
  labelled : p.Labelled
  transfers : ∀ b ∈ p.blocks, ∃ i, b.last? = some i ∧ i.isControlTransfer = true

/-- The second program is the first one after a split of nodes that are entered from the domain
only. -/
def SplitStep (p q : Program) : Prop :=
  ∃ domain nodes copies, p.Region domain nodes ∧ p.split domain nodes = .ok (.ok copies, q)

namespace Splittable

variable (hp : p.Splittable)

include hp

theorem wellFormed : p.WellFormed := (verify_eq_ok_iff_wellFormed hp.labelled).mp hp.verified

theorem step (hstep : p.SplitStep q) : q.Splittable := by
  obtain ⟨domain, nodes, copies, hregion, hsplit⟩ := hstep
  have h := isSplit_of_split hp.wellFormed.inRange hsplit
  have hlabelled := h.labelled hp.labelled
  have hwell := h.wellFormed hp.labelled hregion hp.wellFormed
  exact ⟨(verify_eq_ok_iff_wellFormed hlabelled).mpr hwell, hlabelled,
    h.transfers hp.transfers⟩

theorem steps (hsteps : ReflTransGen SplitStep p r) : r.Splittable := by
  induction hsteps with
  | refl => exact hp
  | tail _ hstep ih => exact ih.step hstep

end Splittable

theorem verify_split (hp : p.Splittable) (hregion : p.Region domain nodes)
    (hnodes : ∀ l ∈ nodes, l.index < p.blockCount)
    (hdomain : ∀ l ∈ domain, l.index < p.blockCount)
    (hroom : p.blockCount + nodes.length ≤ indexLimit) :
    ∃ copies q, p.split domain nodes = .ok (.ok copies, q) ∧ q.verify = .ok () ∧
      (∀ node ∈ nodes, ¬q.Reached node) ∧ q.Splittable ∧
      ∀ r, ReflTransGen SplitStep q r → r.Splittable := by
  have hin := hp.wellFormed.inRange
  obtain ⟨copies, q, hsplit⟩ := exists_split hin hnodes hdomain hroom
  have hq : q.Splittable := hp.step ⟨domain, nodes, copies, hregion, hsplit⟩
  have h := isSplit_of_split hin hsplit
  exact ⟨copies, q, hsplit, hq.verified, fun node => h.not_reached_of_mem_nodes hin hregion,
    hq, fun r => hq.steps⟩

theorem chainSplit_verified :
    chain.Splittable ∧ chain.Region [0] [1] ∧ chain.blockCount + 1 ≤ indexLimit ∧
      chainSplit.verify = .ok () ∧ ¬chainSplit.Reached 1 := by
  have hp : chain.Splittable := ⟨by cbv, by decide, region_chain.transfers⟩
  have hroom : chain.blockCount + 1 ≤ indexLimit := by decide
  obtain ⟨copies, q, hsplit, hverify, hnode, -⟩ :=
    verify_split hp region_chain (by decide) (by decide) hroom
  rw [chain_split] at hsplit
  cases hsplit
  exact ⟨hp, region_chain, hroom, hverify, hnode 1 List.mem_cons_self⟩

/-! ## Where labels run out -/

/-- So many blocks, each of which leaves the method. -/
def exits (count : Nat) (h : count ≤ indexLimit) : Program :=
  ⟨.ofFn fun n : Fin count => .add (.empty ⟨n, Nat.lt_of_lt_of_le n.isLt h⟩) (.exit none), #[]⟩

section Exits

variable {count : Nat} {hcount : count ≤ indexLimit}

@[simp] theorem blockCount_exits : (exits count hcount).blockCount = count := Array.size_ofFn

theorem eq_of_mem_exits (hb : b ∈ (exits count hcount).blocks) :
    b = .add (.empty b.label) (.exit none) := by
  obtain ⟨n, rfl⟩ := Array.mem_ofFn.mp hb
  rfl

theorem labelled_exits : (exits count hcount).Labelled := by
  intro n b hb
  obtain ⟨hn, rfl⟩ := Array.getElem?_eq_some_iff.mp hb
  simp [exits, Block.add, Block.empty]

theorem wellFormed_exits : (exits count hcount).WellFormed where
  inRange := by
    constructor
    all_goals
      intro b hb
      rw [eq_of_mem_exits hb]
      simp [Block.add, Block.empty, Instruction.vars, Instruction.targets, Instruction.dest?,
        Instruction.uses, Instruction.targets?]
  allFit b hb position i hi := by
    rw [eq_of_mem_exits hb] at hi ⊢
    obtain ⟨hposition, rfl⟩ := List.getElem?_eq_some_iff.mp hi
    have hfirst : position = 0 := Nat.lt_one_iff.mp hposition
    subst hfirst
    exact ⟨fun _ => rfl, trivial⟩
  phisAgree b hb := by
    rw [eq_of_mem_exits hb]
    exact fun _ _ hphi => absurd hphi List.not_mem_nil

theorem transfers_exits :
    ∀ b ∈ (exits count hcount).blocks, ∃ i, b.last? = some i ∧ i.isControlTransfer = true := by
  intro b hb
  rw [eq_of_mem_exits hb]
  exact ⟨_, rfl, rfl⟩

theorem splittable_exits : (exits count hcount).Splittable :=
  ⟨(verify_eq_ok_iff_wellFormed labelled_exits).mpr wellFormed_exits, labelled_exits,
    transfers_exits⟩

theorem not_leads_exits : ¬(exits count hcount).Leads l m := by
  intro hlead
  obtain ⟨b, hb⟩ := exists_block_of_lt hlead.lt
  rw [leads_iff_of_block hb, eq_of_mem_exits (Array.mem_of_getElem? hb)] at hlead
  exact List.not_mem_nil hlead

/-- No block leads anywhere, so that any of them but the first may be split for no domain. -/
theorem region_exits (hm : m.index ≠ 0) : (exits count hcount).Region [] [m] where
  transfers := transfers_exits
  nodup := List.nodup_singleton _
  entry := List.forall_mem_singleton.mpr hm
  disjoint _ hl := absurd hl List.not_mem_nil
  entered _ _ hlead := by
    obtain ⟨node, -, hlead⟩ := hlead
    exact absurd hlead not_leads_exits

end Exits

/-- As many blocks as there are labels, so that none is left for a copy. -/
theorem split_exits_refused :
    (exits indexLimit le_rfl).Splittable ∧ (exits indexLimit le_rfl).Region [] [1] ∧
      (∀ l ∈ [(1 : Label)], l.index < (exits indexLimit le_rfl).blockCount) ∧
      (exits indexLimit le_rfl).split [] [1] = .error .labelTooLarge := by
  have hnode : ∀ l ∈ [(1 : Label)], l.index < (exits indexLimit le_rfl).blockCount := by
    rw [blockCount_exits]
    exact fun l _ => l.index_lt
  refine ⟨splittable_exits, region_exits (by decide), hnode, ?_⟩
  apply split_eq_labelTooLarge hnode
  · exact fun _ hl => absurd hl List.not_mem_nil
  · exact List.cons_ne_nil _ _
  · rw [blockCount_exits]
    exact Nat.lt_succ_self _

end Program

end MethodFlow
