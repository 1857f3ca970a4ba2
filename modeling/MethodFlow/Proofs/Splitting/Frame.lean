import MethodFlow.Proofs.Splitting.Verified
/-!
# The whole effect of a split

What a split makes of every block of a program, with nothing asked of the nodes but that none is
named twice. Control may enter them from anywhere, and they may be in the domain themselves.

* `mem_leaving_iff`: a copy leaves for a block outside the region exactly if its last instruction
  names that block, as it falls through to copies only;
* `IsSplit.splitEffect`: the blocks of a program after a split, one by one;
* `IsSplit.not_mem_nodes_of_mem_labels`: a redirected block refers to no node any more;
* `exists_split_effect`: a split of a checked program succeeds and does just that.
-/

namespace MethodFlow

/-! ## Renaming a block -/

namespace Block

/-- Two blocks define and read the same variables, phi by phi and instruction by instruction. -/
structure SameVariables (b c : Block) : Prop where
  phi_dests : c.phis.map (·.dest) = b.phis.map (·.dest)
  phi_uses : c.phis.map (·.uses) = b.phis.map (·.uses)
  dests : c.instructions.map (·.dest?) = b.instructions.map (·.dest?)
  uses : c.instructions.map (·.uses) = b.instructions.map (·.uses)

theorem sameVariables_mapLabels (f : Label → Label) (b : Block) :
    b.SameVariables (b.mapLabels f) := by
  constructor <;> simp [mapLabels, Phi.mapLabels, Phi.uses, Function.comp_def]

theorem labels_mapLabels (f : Label → Label) (b : Block) :
    (b.mapLabels f).labels = b.labels.map f := by
  simp [mapLabels, labels, List.flatMap_map, List.map_flatMap, Phi.mapLabels, Function.comp_def]

end Block

/-! ## Taking from several copies -/

/-- The phi takes from each copy, one after the other, what it takes from the node. -/
def Phi.joinedBy (phi : Phi) (pairs : List (Label × Label)) : Phi :=
  { phi with incomings := phi.incomings ++ pairs.flatMap phi.retarget }

theorem Phi.extendAll_eq_joinedBy {phi : Phi} {pairs : List (Label × Label)}
    (h : phi.Admits pairs) : phi.extendAll pairs = phi.joinedBy pairs := by
  have hdest := phi.dest_extendAll pairs
  have hincomings := incomings_extendAll h
  cases hphi : phi.extendAll pairs with
  | mk dest incomings =>
    rw [hphi] at hdest hincomings
    unfold joinedBy
    rw [← hdest, ← hincomings]

def Block.joinedBy (b : Block) (pairs : List (Label × Label)) : Block :=
  { b with phis := b.phis.map (·.joinedBy pairs) }

theorem Block.extendAll_eq_joinedBy {b : Block} {pairs : List (Label × Label)}
    (h : ∀ phi ∈ b.phis, phi.Admits pairs) : b.extendAll pairs = b.joinedBy pairs := by
  unfold extendAll joinedBy
  rw [List.map_congr_left fun phi hphi => Phi.extendAll_eq_joinedBy (h phi hphi)]

namespace Program

variable {p q : Program} {domain nodes copies : List Label} {l m : Label}

structure SplitEffect (p : Program) (domain nodes copies : List Label) (q : Program) : Prop where
  /-- The copies are the next blocks, in the order of the nodes. -/
  copies_eq : copies.map (·.index) = List.range' p.blockCount nodes.length
  blockCount_eq : q.blockCount = p.blockCount + nodes.length
  infos_eq : q.infos = p.infos
  redirect_node : ∀ pair ∈ nodes.zip copies, redirect (nodes.zip copies) pair.1 = pair.2
  redirect_other : ∀ l, l ∉ nodes → redirect (nodes.zip copies) l = l
  /-- A copy has the phis and instructions that its node had before, redirected. -/
  copied : ∀ pair ∈ nodes.zip copies, ∃ b, p.blocks[pair.1.index]? = some b ∧
    q.blocks[pair.2.index]? =
      some (Block.mapLabels (redirect (nodes.zip copies)) { b with label := pair.2 })
  redirected : ∀ l ∈ domain, q.blocks[l.index]? =
    p.blocks[l.index]?.map (·.mapLabels (redirect (nodes.zip copies)))
  kept : ∀ l ∈ nodes, l ∉ domain → q.blocks[l.index]? = p.blocks[l.index]?
  /-- Any other block takes from the copies that go to it what it takes from their nodes. -/
  joined : ∀ l : Label, l.index < p.blockCount → l ∉ domain → l ∉ nodes →
    q.blocks[l.index]? = p.blocks[l.index]?.map
      (·.joinedBy ((nodes.zip copies).filter fun pair => l ∈ q.targetsAt pair.2))

namespace IsSplit

variable (h : IsSplit p domain nodes copies q)

include h

/-! ## Which copies leave for a block -/

theorem isExit_iff (hl : l.index < p.blockCount) (hdomain : l ∉ domain) :
    isExit (nodes.zip copies) domain l = true ↔ l ∉ nodes := by
  refine ⟨fun hexit hmem => ?_, fun hnode => h.isExit_of_live hl hnode hdomain⟩
  obtain ⟨copy, hpair⟩ := h.fresh.exists_pair rfl hmem
  have hany : (nodes.zip copies).any (fun pair => pair.1 == l) = true :=
    List.any_eq_true.mpr ⟨_, hpair, beq_self_eq_true l⟩
  unfold isExit at hexit
  rw [hany] at hexit
  cases hexit

/-- Among the old blocks a copy goes to those that its last instruction names. -/
theorem mem_successors_copy_iff {pair : Label × Label} (hpair : pair ∈ nodes.zip copies)
    (hl : l.index < p.blockCount) :
    ∃ targets, q.successors pair.2 = .ok targets ∧ (l ∈ targets ↔ l ∈ q.targetsAt pair.2) := by
  obtain ⟨b, -, hcopy⟩ := h.copied pair hpair
  refine ⟨_, successors_of_block hcopy, ?_⟩
  unfold targetsAt
  rw [hcopy, Option.bind_some]
  cases Block.targets? _ with
  | some targets => exact Iff.rfl
  | none =>
    -- The block after a copy is no old block.
    have hbound := (h.apart pair hpair).2
    have hfollowing : l ∉ q.following pair.2 := by
      intro hmem
      have hindex := (mem_following.mp hmem).1
      omega
    exact iff_of_false hfollowing List.not_mem_nil

theorem mem_leaving_iff {pair : Label × Label} (hpair : pair ∈ nodes.zip copies)
    (hl : l.index < p.blockCount) (hdomain : l ∉ domain) :
    pair ∈ q.leaving (nodes.zip copies) domain (nodes.zip copies) l.index ↔
      l ∈ q.targetsAt pair.2 ∧ l ∉ nodes := by
  obtain ⟨targets, hsuccessors, htargets⟩ := h.mem_successors_copy_iff hpair hl
  rw [mem_leaving hsuccessors, htargets, h.isExit_iff hl hdomain, and_iff_right hpair]

theorem leaving_of_mem_nodes (hl : l ∈ nodes) (hdomain : l ∉ domain) :
    q.leaving (nodes.zip copies) domain (nodes.zip copies) l.index = [] := by
  rw [List.eq_nil_iff_forall_not_mem]
  intro pair hleaving
  have hpair : pair ∈ nodes.zip copies := (List.mem_filter.mp hleaving).1
  exact ((h.mem_leaving_iff hpair (h.nodes_lt l hl) hdomain).mp hleaving).2 hl

theorem leaving_of_not_mem_nodes (hl : l.index < p.blockCount) (hdomain : l ∉ domain)
    (hnode : l ∉ nodes) :
    q.leaving (nodes.zip copies) domain (nodes.zip copies) l.index =
      (nodes.zip copies).filter fun pair => l ∈ q.targetsAt pair.2 := by
  refine List.filter_congr fun pair hpair => ?_
  have hmem := h.mem_leaving_iff hpair hl hdomain
  unfold leaving at hmem
  rw [List.mem_filter, and_iff_right hpair, and_iff_left hnode] at hmem
  rw [Bool.eq_iff_iff, hmem, decide_eq_true_iff]

/-! ## Block by block -/

theorem splitEffect (hin : p.InRange) (hnodup : nodes.Nodup) :
    SplitEffect p domain nodes copies q where
  copies_eq := h.fresh
  blockCount_eq := h.blockCount_eq
  infos_eq := h.infos_eq
  redirect_node _ hpair := h.redirect_copy hnodup hpair
  redirect_other _ hl := redirect_of_forall_ne fun _ hpair heq =>
    hl (heq ▸ (List.of_mem_zip hpair).1)
  copied := h.copied
  redirected := h.redirected
  kept l hl hdomain := by
    rw [h.extended l.index (h.nodes_lt l hl) (index_not_mem hdomain),
      h.leaving_of_mem_nodes hl hdomain]
    simp
  joined l hl hdomain hnode := by
    rw [h.extended l.index hl (index_not_mem hdomain), h.leaving_of_not_mem_nodes hl hdomain hnode]
    refine Option.map_congr fun b hb => Block.extendAll_eq_joinedBy fun phi hphi => ?_
    exact h.admits (hin.phi_source b (Array.mem_of_getElem? hb) phi hphi) List.filter_sublist

theorem redirect_not_mem_nodes (l : Label) : redirect (nodes.zip copies) l ∉ nodes := by
  intro hmem
  have hlt := h.nodes_lt _ hmem
  rcases redirect_cases (nodes.zip copies) l with ⟨heq, -⟩ | hpair
  · rw [heq] at hmem hlt
    exact (h.redirect_eq_self_iff hlt).mp heq hmem
  · have hbound : p.blockCount ≤ (redirect (nodes.zip copies) l).index := (h.apart _ hpair).2
    omega

theorem not_mem_nodes_of_mem_labels {b : Block}
    (hm : m ∈ (b.mapLabels (redirect (nodes.zip copies))).labels) : m ∉ nodes := by
  rw [Block.labels_mapLabels] at hm
  obtain ⟨l, -, rfl⟩ := List.mem_map.mp hm
  exact h.redirect_not_mem_nodes l

/-- Neither a copy nor a block of the domain refers to a node. -/
theorem not_mem_nodes_of_mem_region (hl : l ∈ copies ++ domain) :
    ∃ c, q.blocks[l.index]? = some c ∧ ∀ m ∈ c.labels, m ∉ nodes := by
  rcases List.mem_append.mp hl with hcopy | hdomain
  · obtain ⟨node, hpair⟩ := h.exists_node hcopy
    obtain ⟨b, -, hc⟩ := h.copied _ hpair
    exact ⟨_, hc, fun m => h.not_mem_nodes_of_mem_labels⟩
  · obtain ⟨b, hb⟩ := exists_block_of_lt (h.domain_lt l hdomain)
    have hc := h.redirected l hdomain
    rw [hb, Option.map_some] at hc
    exact ⟨_, hc, fun m => h.not_mem_nodes_of_mem_labels⟩

/-- An old block still calls itself what it did. -/
theorem label_eq (hl : l.index < p.blockCount) :
    q.blocks[l.index]?.map (·.label) = p.blocks[l.index]?.map (·.label) := by
  by_cases hdomain : l ∈ domain
  · rw [h.redirected l hdomain, Option.map_map]
    rfl
  · rw [h.extended l.index hl (index_not_mem hdomain), Option.map_map]
    rfl

theorem sameVariables_copy {pair : Label × Label} (hpair : pair ∈ nodes.zip copies) :
    ∃ b c, p.blocks[pair.1.index]? = some b ∧ q.blocks[pair.2.index]? = some c ∧
      b.SameVariables c := by
  obtain ⟨b, hb, hc⟩ := h.copied pair hpair
  have hsame := Block.sameVariables_mapLabels (redirect (nodes.zip copies)) { b with label := pair.2 }
  exact ⟨b, _, hb, hc, hsame.phi_dests, hsame.phi_uses, hsame.dests, hsame.uses⟩

end IsSplit

theorem exists_split_effect (hok : p.verifyOperands = .ok ()) (hnodup : nodes.Nodup)
    (hnodes : ∀ l ∈ nodes, l.index < p.blockCount)
    (hdomain : ∀ l ∈ domain, l.index < p.blockCount)
    (hroom : p.blockCount + nodes.length ≤ indexLimit) :
    ∃ copies q, p.split domain nodes = .ok (.ok copies, q) ∧
      SplitEffect p domain nodes copies q ∧
      (∀ l : Label, l.index < p.blockCount →
        q.blocks[l.index]?.map (·.label) = p.blocks[l.index]?.map (·.label)) ∧
      (∀ pair ∈ nodes.zip copies, ∃ b c, p.blocks[pair.1.index]? = some b ∧
        q.blocks[pair.2.index]? = some c ∧ b.SameVariables c) ∧
      ∀ l ∈ copies ++ domain, ∃ c, q.blocks[l.index]? = some c ∧ ∀ m ∈ c.labels, m ∉ nodes := by
  have hin := verifyOperands_eq_ok_iff.mp hok
  obtain ⟨copies, q, hsplit⟩ := exists_split hin hnodes hdomain hroom
  have h := isSplit_of_split hin hsplit
  exact ⟨copies, q, hsplit, h.splitEffect hin hnodup, fun _ => h.label_eq,
    fun _ => h.sameVariables_copy, fun _ => h.not_mem_nodes_of_mem_region⟩

/-- A loop that is entered at both of its blocks and left from both, from one of them by two rows
of a table. -/
def entangled : Program :=
  ⟨#[⟨0, [], [.branch .null 0 1 2]⟩,
    ⟨1, [⟨1, [⟨0, 0⟩, ⟨2, 2⟩]⟩], [.branch .notNull 1 2 3]⟩,
    ⟨2, [⟨2, [⟨0, 0⟩, ⟨1, 1⟩]⟩], [.switch 2 [⟨5, 3⟩, ⟨6, 1⟩] 3]⟩,
    ⟨3, [⟨3, [⟨2, 2⟩, ⟨1, 1⟩]⟩], [.exit (some 3)]⟩], .replicate 4 ⟨none⟩⟩

/-- The same with copies of both blocks of the loop. -/
def entangledSplit : Program :=
  ⟨#[⟨0, [], [.branch .null 0 4 5]⟩,
    ⟨1, [⟨1, [⟨0, 0⟩, ⟨2, 2⟩]⟩], [.branch .notNull 1 2 3]⟩,
    ⟨2, [⟨2, [⟨0, 0⟩, ⟨1, 1⟩]⟩], [.switch 2 [⟨5, 3⟩, ⟨6, 1⟩] 3]⟩,
    ⟨3, [⟨3, [⟨2, 2⟩, ⟨1, 1⟩, ⟨4, 1⟩, ⟨5, 2⟩]⟩], [.exit (some 3)]⟩,
    ⟨4, [⟨1, [⟨0, 0⟩, ⟨5, 2⟩]⟩], [.branch .notNull 1 5 3]⟩,
    ⟨5, [⟨2, [⟨0, 0⟩, ⟨4, 1⟩]⟩], [.switch 2 [⟨5, 3⟩, ⟨6, 4⟩] 3]⟩], .replicate 4 ⟨none⟩⟩

theorem entangled_split :
    entangled.split [0] [1, 2] = .ok (.ok [4, 5], entangledSplit) := by
  cbv

theorem entangled_effect :
    entangled.verifyOperands = .ok () ∧
      entangled.split [0] [1, 2] = .ok (.ok [4, 5], entangledSplit) ∧
      SplitEffect entangled [0] [1, 2] [4, 5] entangledSplit ∧
      entangledSplit.blocks[3]? =
        some (Block.joinedBy ⟨3, [⟨3, [⟨2, 2⟩, ⟨1, 1⟩]⟩], [.exit (some 3)]⟩ [(1, 4), (2, 5)]) := by
  have hok : entangled.verifyOperands = .ok () := rfl
  have hnodup : [(1 : Label), 2].Nodup := by decide
  have hnodes : ∀ l ∈ [(1 : Label), 2], l.index < entangled.blockCount := by decide
  have hdomain : ∀ l ∈ [(0 : Label)], l.index < entangled.blockCount := by decide
  obtain ⟨copies, q, hsplit, heffect, -⟩ :=
    exists_split_effect hok hnodup hnodes hdomain (by decide)
  rw [entangled_split] at hsplit
  cases hsplit
  exact ⟨hok, entangled_split, heffect, heffect.joined 3 (by decide) (by decide) (by decide)⟩

end Program

end MethodFlow
