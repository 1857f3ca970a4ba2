import MethodFlow.Proofs.Splitting.Renaming
/-!
# Extending the phis of the exits

A copy is a new predecessor of the blocks it leaves for.  What that does to a program:

* `incomings_extendAll`: a phi takes from each copy, in the order of the nodes, what it took from
  the node;
* `extendExits_spec`: the phis of a block are extended for exactly the copies that leave for it.
-/

namespace MethodFlow

/-! ## Lists without repetitions -/

theorem mem_eraseReps_loop {α : Type} [BEq α] [LawfulBEq α] {a x : α} {l earlier : List α} :
    x ∈ List.eraseRepsBy.loop (· == ·) a l earlier ↔ x = a ∨ x ∈ l ∨ x ∈ earlier := by
  induction l generalizing a earlier with
  | nil => simp [List.eraseRepsBy.loop, or_comm]
  | cons b l ih =>
    unfold List.eraseRepsBy.loop
    split
    · next heq =>
      rw [ih, List.mem_cons, (eq_of_beq heq : a = b)]
      tauto
    · rw [ih, List.mem_cons, List.mem_cons]
      tauto

theorem mem_eraseReps {α : Type} [BEq α] [LawfulBEq α] {x : α} {l : List α} :
    x ∈ l.eraseReps ↔ x ∈ l := by
  unfold List.eraseReps
  cases l with
  | nil => rfl
  | cons a l =>
    rw [List.eraseRepsBy, mem_eraseReps_loop, List.mem_cons]
    simp

/-! ## Phis -/

namespace Phi

variable {phi : Phi} {node copy source : Label} {pairs : List (Label × Label)}

def valuesFrom (phi : Phi) (source : Label) : List Variable :=
  (phi.incomings.filter (·.source == source)).map (·.value)

/-- What a phi takes from a node, said of a copy. -/
def retarget (phi : Phi) (pair : Label × Label) : List Incoming :=
  (phi.incomings.filter (·.source == pair.1)).map fun i => { i with source := pair.2 }

def extendAll (phi : Phi) (pairs : List (Label × Label)) : Phi :=
  pairs.foldl (fun phi pair => phi.extend pair.1 pair.2) phi

/-- The block is a source of the phi. -/
def Takes (phi : Phi) (source : Label) : Prop := ∃ i ∈ phi.incomings, i.source = source

theorem takes_iff_any :
    phi.Takes source ↔ (phi.incomings.any fun i => i.source == source) = true := by
  simp [Takes]

theorem extend_of_takes (h : phi.Takes copy) : phi.extend node copy = phi := by
  unfold extend
  rw [if_pos (takes_iff_any.mp h)]

theorem extend_of_not_takes (h : ¬phi.Takes copy) :
    phi.extend node copy = { phi with incomings := phi.incomings ++ phi.retarget (node, copy) } := by
  unfold extend
  rw [if_neg (mt takes_iff_any.mpr h)]
  rfl

theorem extend_extend (phi : Phi) (node copy : Label) :
    (phi.extend node copy).extend node copy = phi.extend node copy := by
  by_cases h : (phi.extend node copy).Takes copy
  · exact extend_of_takes h
  · -- Nothing was taken from the node, or the copy would be a source now.
    have hphi : ¬phi.Takes copy := by
      intro htakes
      rw [extend_of_takes htakes] at h
      exact h htakes
    rw [extend_of_not_takes hphi] at h ⊢
    have hnil : phi.retarget (node, copy) = [] := by
      rw [List.eq_nil_iff_forall_not_mem]
      intro i hi
      obtain ⟨j, -, rfl⟩ := List.mem_map.mp hi
      exact h ⟨_, List.mem_append_right _ hi, rfl⟩
    rw [hnil, List.append_nil]
    show phi.extend node copy = phi
    rw [extend_of_not_takes hphi, hnil, List.append_nil]

theorem retarget_eq_nil {pair : Label × Label} (h : ¬phi.Takes pair.1) : phi.retarget pair = [] := by
  unfold retarget
  rw [List.map_eq_nil_iff, List.filter_eq_nil_iff]
  intro i hi heq
  exact h ⟨i, hi, by simpa using heq⟩

/-- A phi that takes nothing from a node takes nothing from the copy. -/
theorem extend_eq_self (h : ¬phi.Takes node) : phi.extend node copy = phi := by
  by_cases hcopy : phi.Takes copy
  · exact extend_of_takes hcopy
  · rw [extend_of_not_takes hcopy, retarget_eq_nil h, List.append_nil]

theorem extendAll_eq_self (h : ∀ pair ∈ pairs, ¬phi.Takes pair.1) : phi.extendAll pairs = phi := by
  unfold extendAll
  induction pairs with
  | nil => rfl
  | cons pair rest ih =>
    rw [List.foldl_cons, extend_eq_self (h pair List.mem_cons_self)]
    exact ih fun other hother => h other (List.mem_cons_of_mem _ hother)

theorem mem_retarget {pair : Label × Label} {i : Incoming} :
    i ∈ phi.retarget pair ↔ i.source = pair.2 ∧ ⟨pair.1, i.value⟩ ∈ phi.incomings := by
  unfold retarget
  simp only [List.mem_map, List.mem_filter, beq_iff_eq]
  constructor
  · rintro ⟨j, ⟨hj, hsource⟩, rfl⟩
    refine ⟨rfl, ?_⟩
    rw [← hsource]
    exact hj
  · rintro ⟨hsource, hmem⟩
    refine ⟨_, ⟨hmem, rfl⟩, ?_⟩
    rw [← hsource]

theorem retarget_congr {phi' : Phi} {later : List Incoming} (pair : Label × Label)
    (h : phi'.incomings = phi.incomings ++ later) (hlater : ∀ i ∈ later, i.source ≠ pair.1) :
    phi'.retarget pair = phi.retarget pair := by
  have hnil : later.filter (·.source == pair.1) = [] := by
    rw [List.filter_eq_nil_iff]
    intro i hi heq
    exact hlater i hi (by simpa using heq)
  unfold retarget
  rw [h, List.filter_append, hnil, List.append_nil]

theorem dest_extendAll (phi : Phi) (pairs : List (Label × Label)) :
    (phi.extendAll pairs).dest = phi.dest := by
  unfold extendAll
  induction pairs generalizing phi with
  | nil => rfl
  | cons pair rest ih =>
    rw [List.foldl_cons, ih]
    unfold extend
    split <;> rfl

/-- The copies are different blocks, none of them a node or a source yet. -/
structure Admits (phi : Phi) (pairs : List (Label × Label)) : Prop where
  nodup : (pairs.map (·.2)).Nodup
  new : ∀ pair ∈ pairs, ¬phi.Takes pair.2
  apart : ∀ pair ∈ pairs, ∀ other ∈ pairs, pair.2 ≠ other.1

theorem Admits.extend {pair : Label × Label} {rest : List (Label × Label)}
    (h : phi.Admits (pair :: rest)) : (phi.extend pair.1 pair.2).Admits rest := by
  obtain ⟨hpair, hrest⟩ := List.nodup_cons.mp h.nodup
  refine ⟨hrest, ?_, ?_⟩
  · rintro other hother ⟨i, hi, hsource⟩
    rw [extend_of_not_takes (h.new pair List.mem_cons_self)] at hi
    rcases List.mem_append.mp hi with hi | hi
    · exact h.new other (List.mem_cons_of_mem _ hother) ⟨i, hi, hsource⟩
    · rw [(mem_retarget.mp hi).1] at hsource
      exact hpair (List.mem_map.mpr ⟨other, hother, hsource.symm⟩)
  · intro other hother another hanother
    exact h.apart other (List.mem_cons_of_mem _ hother) another (List.mem_cons_of_mem _ hanother)

theorem incomings_extendAll (h : phi.Admits pairs) :
    (phi.extendAll pairs).incomings = phi.incomings ++ pairs.flatMap phi.retarget := by
  unfold extendAll
  induction pairs generalizing phi with
  | nil => exact (List.append_nil _).symm
  | cons pair rest ih =>
    have hextend : phi.extend pair.1 pair.2 =
        { phi with incomings := phi.incomings ++ phi.retarget pair } :=
      extend_of_not_takes (h.new pair List.mem_cons_self)
    have hretarget : ∀ other ∈ rest,
        (phi.extend pair.1 pair.2).retarget other = phi.retarget other := by
      intro other hother
      apply retarget_congr other (congrArg Phi.incomings hextend)
      intro i hi
      rw [(mem_retarget.mp hi).1]
      exact h.apart pair List.mem_cons_self other (List.mem_cons_of_mem _ hother)
    rw [List.foldl_cons, ih h.extend, List.flatMap_congr hretarget, hextend, List.append_assoc,
      List.flatMap_cons]

/-! ### What flows in -/

theorem map_value_retarget (pair : Label × Label) :
    (phi.retarget pair).map (·.value) = phi.valuesFrom pair.1 := by
  unfold retarget valuesFrom
  rw [List.map_map]
  rfl

theorem filter_retarget (pair : Label × Label) :
    (phi.retarget pair).filter (·.source == source) =
      if pair.2 = source then phi.retarget pair else [] := by
  split
  · next heq =>
    rw [List.filter_eq_self]
    intro i hi
    simp [(mem_retarget.mp hi).1, heq]
  · next hne =>
    rw [List.filter_eq_nil_iff]
    intro i hi
    simp [(mem_retarget.mp hi).1, hne]

theorem valuesFrom_eq_nil (h : ¬phi.Takes source) : phi.valuesFrom source = [] := by
  unfold valuesFrom
  rw [List.map_eq_nil_iff, List.filter_eq_nil_iff]
  intro i hi heq
  exact h ⟨i, hi, by simpa using heq⟩

theorem valuesFrom_extendAll (h : phi.Admits pairs) :
    (phi.extendAll pairs).valuesFrom source = phi.valuesFrom source ++
      pairs.flatMap fun pair => if pair.2 = source then phi.valuesFrom pair.1 else [] := by
  have hlater : ((pairs.flatMap phi.retarget).filter (·.source == source)).map (·.value) =
      pairs.flatMap fun pair => if pair.2 = source then phi.valuesFrom pair.1 else [] := by
    rw [List.filter_flatMap, List.map_flatMap]
    refine List.flatMap_congr fun pair _ => ?_
    rw [filter_retarget]
    split
    · exact map_value_retarget pair
    · rfl
  rw [← hlater]
  unfold valuesFrom
  rw [incomings_extendAll h, List.filter_append, List.map_append]

/-- From a block that is no copy flows in what did before. -/
theorem valuesFrom_extendAll_of_ne (h : phi.Admits pairs)
    (hsource : ∀ pair ∈ pairs, pair.2 ≠ source) :
    (phi.extendAll pairs).valuesFrom source = phi.valuesFrom source := by
  have hnil : (pairs.flatMap fun pair =>
      if pair.2 = source then phi.valuesFrom pair.1 else []) = [] := by
    rw [List.flatMap_eq_nil_iff]
    exact fun pair hpair => if_neg (hsource pair hpair)
  rw [valuesFrom_extendAll h, hnil, List.append_nil]

/-- From a copy flows in what does from its node. -/
theorem valuesFrom_extendAll_copy (h : phi.Admits pairs) (hpair : (node, copy) ∈ pairs) :
    (phi.extendAll pairs).valuesFrom copy = phi.valuesFrom node := by
  rw [valuesFrom_extendAll h, valuesFrom_eq_nil (h.new _ hpair), List.nil_append]
  obtain ⟨before, after, rfl⟩ := List.append_of_mem hpair
  have hnodup := h.nodup
  rw [List.map_append, List.map_cons, List.nodup_middle, List.nodup_cons, List.mem_append] at hnodup
  have hnil : ∀ others : List (Label × Label), copy ∉ others.map (·.2) →
      (others.flatMap fun pair => if pair.2 = copy then phi.valuesFrom pair.1 else []) = [] := by
    intro others hout
    rw [List.flatMap_eq_nil_iff]
    exact fun other hother => if_neg fun heq => hout (List.mem_map.mpr ⟨other, hother, heq⟩)
  have hbefore := hnil before fun hmem => hnodup.1 (.inl hmem)
  have hafter := hnil after fun hmem => hnodup.1 (.inr hmem)
  rw [List.flatMap_append, List.flatMap_cons, if_pos rfl, hbefore, hafter, List.nil_append,
    List.append_nil]

end Phi

/-! ## Blocks -/

namespace Block

variable {b : Block} {pairs : List (Label × Label)}

def extendAll (b : Block) (pairs : List (Label × Label)) : Block :=
  { b with phis := b.phis.map (·.extendAll pairs) }

@[simp] theorem extendAll_nil (b : Block) : b.extendAll [] = b := by
  simp [extendAll, Phi.extendAll]

theorem extendAll_append (b : Block) (pairs others : List (Label × Label)) :
    b.extendAll (pairs ++ others) = (b.extendAll pairs).extendAll others := by
  simp [extendAll, Phi.extendAll]

/-- Extending twice for one copy is extending once. -/
theorem extendAll_pair_pair (b : Block) (pair : Label × Label) :
    b.extendAll [pair, pair] = b.extendAll [pair] := by
  simp [extendAll, Phi.extendAll, Phi.extend_extend]

@[simp] theorem targets?_extendAll (b : Block) (pairs : List (Label × Label)) :
    (b.extendAll pairs).targets? = b.targets? := rfl

end Block

/-! ## Programs -/

namespace Program

variable {p q r : Program} {pairs rest : List (Label × Label)} {domain exits targets : List Label}
  {node copy l : Label} {more others : Nat → List (Label × Label)}

structure Extended (p : Program) (more : Nat → List (Label × Label)) (q : Program) : Prop where
  infos_eq : q.infos = p.infos
  blockCount_eq : q.blockCount = p.blockCount
  getElem?_eq : ∀ n : Nat, q.blocks[n]? = p.blocks[n]?.map (·.extendAll (more n))

namespace Extended

theorem trans (h : Extended p more q) (h' : Extended q others r) :
    Extended p (fun n => more n ++ others n) r where
  infos_eq := h'.infos_eq.trans h.infos_eq
  blockCount_eq := h'.blockCount_eq.trans h.blockCount_eq
  getElem?_eq n := by
    rw [h'.getElem?_eq, h.getElem?_eq, Option.map_map]
    congr 1
    funext b
    exact (b.extendAll_append _ _).symm

theorem congr (h : Extended p more q)
    (heq : ∀ n b, Block.extendAll b (more n) = b.extendAll (others n)) : Extended p others q where
  infos_eq := h.infos_eq
  blockCount_eq := h.blockCount_eq
  getElem?_eq n := by
    rw [h.getElem?_eq]
    congr 1
    exact funext (heq n)

theorem successors_eq (h : Extended p more q) (l : Label) : q.successors l = p.successors l := by
  apply successors_congr h.blockCount_eq
  rw [h.getElem?_eq, Option.map_map]
  rfl

theorem exitsOf_eq (h : Extended p more q) (pairs : List (Label × Label)) (domain : List Label)
    (copy : Label) : q.exitsOf pairs domain copy = p.exitsOf pairs domain copy := by
  unfold exitsOf
  rw [h.successors_eq]

end Extended

/-! ### The exits of a copy -/

theorem isExit_of_not_mem {nodes copies : List Label} (hnode : l ∉ nodes) (hcopy : l ∉ copies)
    (hdomain : l ∉ domain) : isExit (nodes.zip copies) domain l = true := by
  have hfirst : (nodes.zip copies).any (fun pair => pair.1 == l) = false := by
    rw [List.any_eq_false]
    intro pair hpair heq
    exact hnode (beq_iff_eq.mp heq ▸ (List.of_mem_zip hpair).1)
  have hsecond : (nodes.zip copies).any (fun pair =>
      pair.2 == l && copyOf? (nodes.zip copies) pair.1 == some l) = false := by
    rw [List.any_eq_false]
    intro pair hpair heq
    have hfound := (Bool.and_eq_true_iff.mp heq).1
    exact hcopy (beq_iff_eq.mp hfound ▸ (List.of_mem_zip hpair).2)
  unfold isExit
  rw [hfirst, hsecond, List.contains_eq_mem]
  simp [hdomain]

theorem exists_exitsOf (pairs : List (Label × Label)) (domain : List Label)
    (h : p.successors copy = .ok targets) :
    ∃ exits, p.exitsOf pairs domain copy = .ok exits ∧
      ∀ l, l ∈ exits ↔ l ∈ targets ∧ isExit pairs domain l = true := by
  unfold exitsOf
  rw [h]
  refine ⟨_, rfl, fun l => ?_⟩
  rw [List.mem_filter, mem_eraseReps, List.mem_mergeSort]

/-- The copies that control leaves the region from for a block, with their nodes. -/
def leaving (p : Program) (pairs : List (Label × Label)) (domain : List Label)
    (among : List (Label × Label)) (n : Nat) : List (Label × Label) :=
  among.filter fun pair =>
    match p.exitsOf pairs domain pair.2 with
    | .ok exits => exits.any (·.index == n)
    | .error _ => false

theorem mem_leaving {pair : Label × Label} (h : p.successors pair.2 = .ok targets) :
    pair ∈ p.leaving pairs domain rest l.index ↔
      pair ∈ rest ∧ l ∈ targets ∧ isExit pairs domain l = true := by
  obtain ⟨exits, hexits, hmem⟩ := exists_exitsOf pairs domain h
  unfold leaving
  rw [List.mem_filter, hexits, ← hmem]
  simp only [List.any_eq_true, beq_iff_eq]
  refine and_congr_right fun _ => ?_
  constructor
  · rintro ⟨m, hm, hindex⟩
    exact Label.ext hindex ▸ hm
  · exact fun hl => ⟨l, hl, rfl⟩

/-! ### Extending -/

theorem extendPhis_spec (node copy : Label) (h : ∀ l ∈ exits, l.index < p.blockCount) :
    ∃ q, p.extendPhis node copy exits = (.ok (), q) ∧
      Extended p (fun n => if exits.any (·.index == n) then [(node, copy)] else []) q := by
  induction exits generalizing p with
  | nil => exact ⟨p, rfl, rfl, rfl, fun n => by simp⟩
  | cons exit rest ih =>
    obtain ⟨b, hb⟩ := exists_block_of_lt (h exit List.mem_cons_self)
    have hmodify : p.modifyBlock exit (fun b => { b with phis := b.phis.map (·.extend node copy) }) =
        .ok (p.setBlock exit (b.extendAll [(node, copy)])) := by
      unfold modifyBlock block
      rw [hb]
      rfl
    have hfirst : Extended p (fun n => if exit.index = n then [(node, copy)] else [])
        (p.setBlock exit (b.extendAll [(node, copy)])) := by
      refine ⟨rfl, Array.size_setIfInBounds, fun n => ?_⟩
      unfold setBlock
      rw [Array.getElem?_setIfInBounds]
      split
      · next heq =>
        rw [← heq, hb, if_pos (Array.getElem?_eq_some_iff.mp hb).1]
        rfl
      · simp
    obtain ⟨q, hq, hrest⟩ := ih fun l hl =>
      hfirst.blockCount_eq.symm ▸ h l (List.mem_cons_of_mem _ hl)
    refine ⟨q, ?_, (hfirst.trans hrest).congr fun n b => ?_⟩
    · unfold extendPhis
      rw [hmodify]
      exact hq
    · by_cases hn : exit.index = n
      · subst hn
        by_cases hagain : (rest.any (·.index == exit.index)) = true
        · simp [hagain, Block.extendAll_pair_pair]
        · simp [hagain]
      · simp [hn]

theorem extendExits_spec (pairs : List (Label × Label)) (domain : List Label)
    (h : ∀ pair ∈ rest, ∃ targets, p.successors pair.2 = .ok targets ∧
      ∀ l ∈ targets, l.index < p.blockCount) :
    ∃ q, p.extendExits pairs domain rest = (.ok (), q) ∧
      Extended p (p.leaving pairs domain rest) q := by
  induction rest generalizing p with
  | nil => exact ⟨p, rfl, rfl, rfl, fun n => by simp [leaving]⟩
  | cons pair rest ih =>
    obtain ⟨targets, hsuccessors, htargets⟩ := h pair List.mem_cons_self
    obtain ⟨exits, hexits, hmem⟩ := exists_exitsOf pairs domain hsuccessors
    obtain ⟨middle, hmiddle, hfirst⟩ := extendPhis_spec pair.1 pair.2
      fun l hl => htargets l ((hmem l).mp hl).1
    obtain ⟨q, hq, hrest⟩ := ih (p := middle) fun other hother => by
      rw [hfirst.successors_eq, hfirst.blockCount_eq]
      exact h other (List.mem_cons_of_mem _ hother)
    refine ⟨q, ?_, (hfirst.trans hrest).congr fun n b => ?_⟩
    · unfold extendExits
      rw [hexits]
      simp only [hmiddle]
      exact hq
    · congr 1
      unfold leaving
      rw [List.filter_cons, hexits]
      simp only [hfirst.exitsOf_eq]
      split <;> rfl

end Program

end MethodFlow
