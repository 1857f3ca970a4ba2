import MethodFlow.Proofs.Splitting.Copies
import MethodFlow.Proofs.Splitting.Exits
/-!
# What a split does

The effect of a split on every block of the program:

* `isSplit_of_split`: a split that succeeds has that effect;
* `exists_split`: a split succeeds if the program has the blocks and there are labels for the
  copies.
-/

namespace MethodFlow.Program

variable {p q : Program} {domain nodes copies : List Label} {pairs : List (Label × Label)}
  {l : Label}

structure IsSplit (p : Program) (domain nodes copies : List Label) (q : Program) : Prop where
  nodes_lt : ∀ l ∈ nodes, l.index < p.blockCount
  domain_lt : ∀ l ∈ domain, l.index < p.blockCount
  fresh : p.Fresh nodes.length copies
  infos_eq : q.infos = p.infos
  blockCount_eq : q.blockCount = p.blockCount + nodes.length
  copied : ∀ pair ∈ nodes.zip copies, ∃ b, p.blocks[pair.1.index]? = some b ∧
    q.blocks[pair.2.index]? =
      some (Block.mapLabels (redirect (nodes.zip copies)) { b with label := pair.2 })
  redirected : ∀ l ∈ domain, q.blocks[l.index]? =
    p.blocks[l.index]?.map (·.mapLabels (redirect (nodes.zip copies)))
  extended : ∀ n : Nat, n < p.blockCount → n ∉ domain.map (·.index) → q.blocks[n]? =
    p.blocks[n]?.map (·.extendAll (q.leaving (nodes.zip copies) domain (nodes.zip copies) n))

/-! ## Redirected blocks have no exits to extend -/

theorem Apart.not_takes_mapLabels {bound : Nat} (h : Apart pairs bound) {pair : Label × Label}
    (hpair : pair ∈ pairs) (phi : Phi) : ¬(phi.mapLabels (redirect pairs)).Takes pair.1 := by
  rintro ⟨i, hi, hsource⟩
  obtain ⟨j, -, rfl⟩ := List.mem_map.mp hi
  change redirect pairs j.source = pair.1 at hsource
  rcases redirect_cases pairs j.source with ⟨heq, hne⟩ | hmem
  · exact hne pair hpair (heq ▸ hsource.symm)
  · have hnode := (h pair hpair).1
    have hcopy : bound ≤ (redirect pairs j.source).index := (h _ hmem).2
    rw [hsource] at hcopy
    omega

theorem Apart.extendAll_mapLabels {bound : Nat} (h : Apart pairs bound)
    {others : List (Label × Label)} (hsub : others ⊆ pairs) (b : Block) :
    (b.mapLabels (redirect pairs)).extendAll others = b.mapLabels (redirect pairs) := by
  have hphis : ∀ phi : Phi,
      (phi.mapLabels (redirect pairs)).extendAll others = phi.mapLabels (redirect pairs) :=
    fun phi => Phi.extendAll_eq_self fun pair hpair => h.not_takes_mapLabels (hsub hpair) phi
  simp [Block.extendAll, Block.mapLabels, hphis]

/-! ## Checks -/

theorem index_not_mem (hl : l ∉ domain) : l.index ∉ domain.map (·.index) := by
  intro hmem
  obtain ⟨m, hm, heq⟩ := List.mem_map.mp hmem
  exact hl (Label.ext heq ▸ hm)

theorem firstUnknown?_eq_none {what : String} {labels : List Label} :
    p.firstUnknown? what labels = none ↔ ∀ l ∈ labels, l.index < p.blockCount := by
  unfold firstUnknown?
  rw [List.findSome?_eq_none_iff]
  refine forall_congr' fun l => imp_congr_right fun _ => ?_
  unfold checkLabel checkLabelM
  by_cases hl : l.index < p.blockCount
  · simp [hl]
  · simp [hl]

/-! ## The steps put together -/

section Steps

variable {copied : Program} (hnodes : ∀ l ∈ nodes, l.index < p.blockCount)
  (hcopied : Copied p nodes copies copied)

def redirected (copied : Program) (domain nodes copies : List Label) : Program :=
  copied.redirectBlocks (nodes.zip copies) (copies ++ domain)

include hcopied

theorem blockCount_redirected :
    (redirected copied domain nodes copies).blockCount = p.blockCount + nodes.length := by
  rw [redirected, blockCount_redirectBlocks, hcopied.blockCount_eq]

include hnodes

theorem redirected_copy (domain : List Label) {pair : Label × Label}
    (hpair : pair ∈ nodes.zip copies) :
    ∃ b, p.blocks[pair.1.index]? = some b ∧
      (redirected copied domain nodes copies).blocks[pair.2.index]? =
        some (Block.mapLabels (redirect (nodes.zip copies)) { b with label := pair.2 }) := by
  obtain ⟨hnode, hcopy⟩ := List.of_mem_zip hpair
  obtain ⟨b, hb⟩ := exists_block_of_lt (hnodes _ hnode)
  refine ⟨b, hb, ?_⟩
  unfold redirected
  rw [getElem?_redirectBlocks (hcopied.fresh.apart hnodes), if_pos, hcopied.getElem?_copy hpair]
  · unfold copyOf
    rw [hb, Option.getD_some, Option.map_some]
  · exact List.mem_map_of_mem (List.mem_append_left _ hcopy)

theorem redirected_of_lt {n : Nat} (hn : n < p.blockCount) :
    (redirected copied domain nodes copies).blocks[n]? =
      if n ∈ domain.map (·.index) then
        p.blocks[n]?.map (·.mapLabels (redirect (nodes.zip copies)))
      else p.blocks[n]? := by
  have hcopies : n ∉ copies.map (·.index) := by
    rw [hcopied.fresh, List.mem_range'_1]
    omega
  unfold redirected
  rw [getElem?_redirectBlocks (hcopied.fresh.apart hnodes), hcopied.getElem?_of_lt hn]
  simp only [List.map_append, List.mem_append, hcopies, false_or]

/-- Beyond the copies, a copy goes where its node did. -/
theorem successors_redirected_copy (domain : List Label) {pair : Label × Label}
    (hpair : pair ∈ nodes.zip copies) :
    ∃ targets, (redirected copied domain nodes copies).successors pair.2 = .ok targets ∧
      ∀ l : Label, p.blockCount + nodes.length ≤ l.index →
        (l ∈ targets ↔ l ∈ p.targetsAt pair.1) := by
  obtain ⟨b, hb, hcopy⟩ := redirected_copy hnodes hcopied domain hpair
  refine ⟨_, successors_of_block hcopy, fun l hl => ?_⟩
  rw [targetsAt_of_block hb, Block.targets?_mapLabels]
  change l ∈ (b.targets?.map (List.map _)).getD _ ↔ _
  cases b.targets? with
  | none =>
    refine iff_of_false (fun hmem => ?_) List.not_mem_nil
    have hlt := (mem_following.mp hmem).2
    rw [blockCount_redirected hcopied] at hlt
    omega
  | some targets =>
    rw [Option.map_some, Option.getD_some, Option.getD_some, List.mem_map]
    constructor
    · rintro ⟨m, hm, rfl⟩
      rcases redirect_cases (nodes.zip copies) m with ⟨heq, -⟩ | hmem
      · rwa [heq]
      · have hlt := (hcopied.fresh.mem_iff.mp (List.of_mem_zip hmem).2).2
        omega
    · intro hmem
      exact ⟨l, hmem, (hcopied.fresh.apart hnodes).redirect_of_le (by omega)⟩

theorem isSplit_of_extended (hdomain : ∀ l ∈ domain, l.index < p.blockCount)
    (hextended : Extended (redirected copied domain nodes copies)
      ((redirected copied domain nodes copies).leaving (nodes.zip copies) domain
        (nodes.zip copies)) q) :
    IsSplit p domain nodes copies q where
  nodes_lt := hnodes
  domain_lt := hdomain
  fresh := hcopied.fresh
  infos_eq := by
    rw [hextended.infos_eq, redirected, infos_redirectBlocks, hcopied.infos_eq]
  blockCount_eq := by
    rw [hextended.blockCount_eq, blockCount_redirected hcopied]
  copied pair hpair := by
    obtain ⟨b, hb, hcopy⟩ := redirected_copy hnodes hcopied domain hpair
    refine ⟨b, hb, ?_⟩
    rw [hextended.getElem?_eq, hcopy, Option.map_some]
    exact congrArg some ((hcopied.fresh.apart hnodes).extendAll_mapLabels
      (List.filter_subset_self _) _)
  redirected l hl := by
    rw [hextended.getElem?_eq, redirected_of_lt hnodes hcopied (hdomain l hl),
      if_pos (List.mem_map_of_mem hl), Option.map_map]
    congr 1
    funext b
    exact (hcopied.fresh.apart hnodes).extendAll_mapLabels (List.filter_subset_self _) b
  extended n hn hout := by
    have hleaving : q.leaving (nodes.zip copies) domain (nodes.zip copies) n =
        (redirected copied domain nodes copies).leaving (nodes.zip copies) domain
          (nodes.zip copies) n := by
      unfold leaving
      simp only [hextended.exitsOf_eq]
    rw [hextended.getElem?_eq, redirected_of_lt hnodes hcopied hn, if_neg hout, hleaving]

end Steps

/-- Once the labels are known and the copies made, what is left is to extend the exits. -/
theorem split_eq_extendExits (hnodes : ∀ l ∈ nodes, l.index < p.blockCount)
    (hdomain : ∀ l ∈ domain, l.index < p.blockCount) {copied : Program} {result : Except MethodError Unit}
    (h : p.copyBlocks nodes = .ok (copies, copied))
    (hexits : (redirected copied domain nodes copies).extendExits (nodes.zip copies) domain
      (nodes.zip copies) = (result, q)) :
    p.split domain nodes = .ok (result.map fun _ => copies, q) := by
  unfold split
  rw [firstUnknown?_eq_none.mpr hnodes, firstUnknown?_eq_none.mpr hdomain, h]
  unfold redirected at hexits
  show Except.ok ((extendExits _ _ domain _).1.map _, (extendExits _ _ domain _).2) = _
  rw [hexits]

theorem split_of_copyBlocks (hnodes : ∀ l ∈ nodes, l.index < p.blockCount)
    (hdomain : ∀ l ∈ domain, l.index < p.blockCount)
    (htargets : ∀ l ∈ nodes, ∀ m ∈ p.targetsAt l, m.index < p.blockCount + nodes.length)
    {copied : Program} (h : p.copyBlocks nodes = .ok (copies, copied)) :
    ∃ q, p.split domain nodes = .ok (.ok copies, q) ∧ IsSplit p domain nodes copies q := by
  have hcopied := copied_of_copyBlocks hnodes h
  have hinside : ∀ pair ∈ nodes.zip copies, ∃ targets,
      (redirected copied domain nodes copies).successors pair.2 = .ok targets ∧
        ∀ l ∈ targets, l.index < (redirected copied domain nodes copies).blockCount := by
    intro pair hpair
    obtain ⟨targets, hsuccessors, hmem⟩ := successors_redirected_copy hnodes hcopied domain hpair
    refine ⟨targets, hsuccessors, fun l hl => ?_⟩
    rw [blockCount_redirected hcopied]
    by_contra hout
    have hnamed : l ∈ p.targetsAt pair.1 := (hmem l (Nat.le_of_not_lt hout)).mp hl
    exact hout (htargets _ (List.of_mem_zip hpair).1 l hnamed)
  obtain ⟨q, hq, hextended⟩ := extendExits_spec (nodes.zip copies) domain hinside
  exact ⟨q, split_eq_extendExits hnodes hdomain h hq,
    isSplit_of_extended hnodes hcopied hdomain hextended⟩

theorem isSplit_of_split (hin : p.InRange) (h : p.split domain nodes = .ok (.ok copies, q)) :
    IsSplit p domain nodes copies q := by
  cases hunknown : p.firstUnknown? "split node" nodes with
  | some e =>
    unfold split at h
    rw [hunknown] at h
    cases h
  | none =>
    cases hunknown' : p.firstUnknown? "split domain" domain with
    | some e =>
      unfold split at h
      rw [hunknown, hunknown'] at h
      cases h
    | none =>
      have hnodes := firstUnknown?_eq_none.mp hunknown
      have hdomain := firstUnknown?_eq_none.mp hunknown'
      cases hcopies : p.copyBlocks nodes with
      | error e =>
        unfold split at h
        rw [hunknown, hunknown', hcopies] at h
        cases h
      | ok made =>
        obtain ⟨q', hq', hsplit⟩ := split_of_copyBlocks hnodes hdomain
          (fun _ _ _ hm => Nat.lt_add_right _ (hin.lt_of_mem_targetsAt hm)) hcopies
        rw [hq'] at h
        cases h
        exact hsplit

theorem exists_split (hin : p.InRange) (hnodes : ∀ l ∈ nodes, l.index < p.blockCount)
    (hdomain : ∀ l ∈ domain, l.index < p.blockCount)
    (hroom : p.blockCount + nodes.length ≤ indexLimit) :
    ∃ copies q, p.split domain nodes = .ok (.ok copies, q) := by
  obtain ⟨copies, copied, h⟩ := exists_copyBlocks hroom
  obtain ⟨q, hq, -⟩ := split_of_copyBlocks hnodes hdomain
    (fun _ _ _ hm => Nat.lt_add_right _ (hin.lt_of_mem_targetsAt hm)) h
  exact ⟨copies, q, hq⟩

theorem split_eq_error (hnodes : ∀ l ∈ nodes, l.index < p.blockCount)
    (hdomain : ∀ l ∈ domain, l.index < p.blockCount) {violation : Violation}
    (h : p.copyBlocks nodes = .error violation) : p.split domain nodes = .error violation := by
  unfold split
  rw [firstUnknown?_eq_none.mpr hnodes, firstUnknown?_eq_none.mpr hdomain, h]
  rfl

theorem split_eq_labelTooLarge (hnodes : ∀ l ∈ nodes, l.index < p.blockCount)
    (hdomain : ∀ l ∈ domain, l.index < p.blockCount) (hne : nodes ≠ [])
    (hlarge : indexLimit < p.blockCount + nodes.length) :
    p.split domain nodes = .error .labelTooLarge :=
  split_eq_error hnodes hdomain (copyBlocks_eq_error_of_ne_nil hne hlarge)

/-! ## Successors after a split -/

namespace IsSplit

variable (h : IsSplit p domain nodes copies q) {b : Block}

include h

theorem apart : Apart (nodes.zip copies) p.blockCount := h.fresh.apart h.nodes_lt

theorem exists_copy {i : Nat} (hnode : nodes[i]? = some l) :
    ∃ copy, copies[i]? = some copy ∧ (l, copy) ∈ nodes.zip copies :=
  h.fresh.exists_copy rfl hnode

theorem exists_node (hl : l ∈ copies) : ∃ node, (node, l) ∈ nodes.zip copies := by
  obtain ⟨i, hi⟩ := List.mem_iff_getElem?.mp hl
  have hlt : i < nodes.length := h.fresh.length_eq ▸ (List.getElem?_eq_some_iff.mp hi).1
  exact ⟨_, mem_zip_of_getElem? (List.getElem?_eq_getElem hlt) hi⟩

theorem redirect_eq_self_iff (hl : l.index < p.blockCount) :
    redirect (nodes.zip copies) l = l ↔ l ∉ nodes := by
  constructor
  · intro heq hmem
    obtain ⟨copy, hpair⟩ := h.fresh.exists_pair rfl hmem
    have hbound : p.blockCount ≤ (redirect (nodes.zip copies) l).index :=
      (h.apart _ (redirect_mem hpair)).2
    rw [heq] at hbound
    omega
  · intro hout
    apply redirect_of_forall_ne
    rintro pair hpair rfl
    exact hout (List.of_mem_zip hpair).1

theorem redirect_copy (hnodup : nodes.Nodup) {node copy : Label}
    (hpair : (node, copy) ∈ nodes.zip copies) : redirect (nodes.zip copies) node = copy := by
  refine redirect_eq_of_mem ?_ hpair
  rw [List.map_fst_zip (Nat.le_of_eq h.fresh.length_eq.symm)]
  exact hnodup

theorem successors_copy {pair : Label × Label} (hpair : pair ∈ nodes.zip copies)
    (hb : p.blocks[pair.1.index]? = some b) :
    q.successors pair.2 = .ok ((b.targets?.map (List.map (redirect (nodes.zip copies)))).getD
      (q.following pair.2)) := by
  obtain ⟨c, hc, hcopy⟩ := h.copied pair hpair
  rw [hb] at hc
  cases hc
  rw [successors_of_block hcopy, Block.targets?_mapLabels]
  rfl

theorem successors_domain (hl : l ∈ domain) (hb : p.blocks[l.index]? = some b) :
    q.successors l = .ok ((b.targets?.map (List.map (redirect (nodes.zip copies)))).getD
      (q.following l)) := by
  have hblock := h.redirected l hl
  rw [hb, Option.map_some] at hblock
  rw [successors_of_block hblock, Block.targets?_mapLabels]

theorem successors_kept (hl : l ∉ domain) (hb : p.blocks[l.index]? = some b) :
    q.successors l = .ok (b.targets?.getD (q.following l)) := by
  have hblock := h.extended l.index (lt_blockCount_of_block hb) (index_not_mem hl)
  rw [hb, Option.map_some] at hblock
  rw [successors_of_block hblock, Block.targets?_extendAll]

end IsSplit

end MethodFlow.Program
