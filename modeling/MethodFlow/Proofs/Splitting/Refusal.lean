import MethodFlow.Proofs.Splitting.Effect
import Mathlib.Data.List.Permutation
/-!
# Splits that are refused

A split checks the labels that it is given before it changes anything, but not those that it meets
in the blocks it copies.  A copy that leaves for a block beyond the copies is found out only when
the phis of that block are to be extended, and the program is left as it is then:

* `extendExits_of_stray`: extending stops at a copy that leaves for a block out of range;
* `BreaksOff.exists_split_error`: what is left of a split that breaks off;
* `split_keeps_iff`: every other split that is refused leaves the program alone.
-/

namespace MethodFlow.Program

variable {p q : Program} {domain nodes copies exits : List Label}
  {pairs rest : List (Label × Label)} {l : Label}

/-! ## Where extending stops -/

def lookupError (p : Program) (l : Label) : MethodError :=
  .danglingLabel l.index p.blockCount (.named "block lookup")

theorem extendPhis_of_stray (node copy : Label) (h : ∃ l ∈ exits, p.blockCount ≤ l.index) :
    ∃ l ∈ exits, p.blockCount ≤ l.index ∧ ∃ q, q.blockCount = p.blockCount ∧
      p.extendPhis node copy exits = (.error (p.lookupError l), q) := by
  induction exits generalizing p with
  | nil =>
    obtain ⟨l, hl, -⟩ := h
    cases hl
  | cons exit rest ih =>
    unfold extendPhis modifyBlock block
    cases hb : p.blocks[exit.index]? with
    | none =>
      exact ⟨exit, List.mem_cons_self, Array.getElem?_eq_none_iff.mp hb, p, rfl, rfl⟩
    | some b =>
      have hcount : ∀ c, (p.setBlock exit c).blockCount = p.blockCount :=
        fun c => Array.size_setIfInBounds
      have hrest : ∃ l ∈ rest, p.blockCount ≤ l.index := by
        obtain ⟨l, hl, hout⟩ := h
        rcases List.mem_cons.mp hl with rfl | hl
        · have hlt := lt_blockCount_of_block hb
          omega
        · exact ⟨l, hl, hout⟩
      obtain ⟨l, hl, hout, q, hq, hstop⟩ :=
        ih (p := p.setBlock exit { b with phis := b.phis.map (·.extend node copy) })
          (by rwa [hcount])
      unfold lookupError at hstop
      rw [hcount] at hout hq hstop
      exact ⟨l, List.mem_cons_of_mem _ hl, hout, q, hq, hstop⟩

theorem extendExits_of_stray
    (hsuccessors : ∀ pair ∈ rest, ∃ targets, p.successors pair.2 = .ok targets)
    (hexit : ∀ l : Label, p.blockCount ≤ l.index → isExit pairs domain l = true)
    (h : ∃ pair ∈ rest, ∃ l, p.Leads pair.2 l ∧ p.blockCount ≤ l.index) :
    ∃ pair ∈ rest, ∃ l, p.Leads pair.2 l ∧ p.blockCount ≤ l.index ∧
      ∃ q, q.blockCount = p.blockCount ∧
        p.extendExits pairs domain rest = (.error (p.lookupError l), q) := by
  induction rest generalizing p with
  | nil =>
    obtain ⟨pair, hpair, -⟩ := h
    cases hpair
  | cons pair rest ih =>
    obtain ⟨targets, htargets⟩ := hsuccessors pair List.mem_cons_self
    obtain ⟨exits, hexits, hmem⟩ := exists_exitsOf pairs domain htargets
    unfold extendExits
    rw [hexits]
    by_cases hstray : ∃ l ∈ exits, p.blockCount ≤ l.index
    · obtain ⟨l, hl, hout, q, hq, hstop⟩ := extendPhis_of_stray pair.1 pair.2 hstray
      refine ⟨pair, List.mem_cons_self, l, ⟨targets, htargets, ((hmem l).mp hl).1⟩, hout, q, hq, ?_⟩
      simp only [hstop]
    · have hinside : ∀ l ∈ exits, l.index < p.blockCount := by
        intro l hl
        by_contra hout
        exact hstray ⟨l, hl, Nat.le_of_not_lt hout⟩
      obtain ⟨middle, hmiddle, hfirst⟩ := extendPhis_spec pair.1 pair.2 hinside
      -- Extending changes phis only, so that the stray label is still ahead.
      have hleads : ∀ l m, middle.Leads l m ↔ p.Leads l m := by
        intro l m
        unfold Leads
        rw [hfirst.successors_eq]
      have hrest : ∃ pair ∈ rest, ∃ l, p.Leads pair.2 l ∧ p.blockCount ≤ l.index := by
        obtain ⟨other, hother, l, ⟨found, hfound, hl⟩, hout⟩ := h
        rcases List.mem_cons.mp hother with rfl | hother
        · rw [htargets] at hfound
          cases hfound
          exact absurd ⟨l, (hmem l).mpr ⟨hl, hexit l hout⟩, hout⟩ hstray
        · exact ⟨other, hother, l, ⟨found, hfound, hl⟩, hout⟩
      obtain ⟨other, hother, l, hlead, hout, q, hq, hstop⟩ := ih (p := middle)
        (fun other hother => by
          rw [hfirst.successors_eq]
          exact hsuccessors other (List.mem_cons_of_mem _ hother))
        (by rwa [hfirst.blockCount_eq])
        (by simpa only [hleads, hfirst.blockCount_eq] using hrest)
      unfold lookupError at hstop
      rw [hfirst.blockCount_eq] at hout hq hstop
      refine ⟨other, List.mem_cons_of_mem _ hother, l, (hleads _ _).mp hlead, hout, q, hq, ?_⟩
      simp only [hmiddle]
      exact hstop

/-! ## Splits that break off -/

section Steps

variable {copied : Program} (hnodes : ∀ l ∈ nodes, l.index < p.blockCount)
  (hcopied : Copied p nodes copies copied)

include hnodes hcopied

/-- Control leaves a copy for a block beyond the copies where the node names it. -/
theorem leads_redirected_copy_iff (domain : List Label) {pair : Label × Label}
    (hpair : pair ∈ nodes.zip copies) (hl : p.blockCount + nodes.length ≤ l.index) :
    (redirected copied domain nodes copies).Leads pair.2 l ↔ l ∈ p.targetsAt pair.1 := by
  obtain ⟨targets, htargets, hmem⟩ := successors_redirected_copy hnodes hcopied domain hpair
  unfold Leads
  simp only [htargets, Except.ok.injEq, exists_eq_left']
  exact hmem l hl

/-- A block beyond the copies is an exit. -/
theorem isExit_of_le (hdomain : ∀ l ∈ domain, l.index < p.blockCount)
    (hl : p.blockCount + nodes.length ≤ l.index) : isExit (nodes.zip copies) domain l = true := by
  refine isExit_of_not_mem (fun hmem => ?_) (fun hmem => ?_) (fun hmem => ?_)
  · have hlt := hnodes l hmem
    omega
  · have hlt := (hcopied.fresh.mem_iff.mp hmem).2
    omega
  · have hlt := hdomain l hmem
    omega

end Steps

/-- The labels are known, but the last instruction of a node names a block beyond the copies. -/
structure BreaksOff (p : Program) (domain nodes : List Label) : Prop where
  nodes_lt : ∀ l ∈ nodes, l.index < p.blockCount
  domain_lt : ∀ l ∈ domain, l.index < p.blockCount
  strays : ∃ l ∈ nodes, ∃ m ∈ p.targetsAt l, p.blockCount + nodes.length ≤ m.index

/-- The copies stay, and the error names the block that is missing. -/
theorem BreaksOff.exists_split_error (h : p.BreaksOff domain nodes) :
    ∃ l ∈ nodes, ∃ m ∈ p.targetsAt l, ∃ q, q.blockCount = p.blockCount + nodes.length ∧
      q.blockCount ≤ m.index ∧ p.split domain nodes = .ok (.error (q.lookupError m), q) := by
  obtain ⟨node, hnode, m, hm, hfar⟩ := h.strays
  -- A label is never too large, so that there are labels for the copies below it.
  have hroom : p.blockCount + nodes.length ≤ indexLimit := Nat.le_of_lt (hfar.trans_lt m.index_lt)
  obtain ⟨copies, copied, hcopies⟩ := exists_copyBlocks hroom
  have hcopied := copied_of_copyBlocks h.nodes_lt hcopies
  have hcount : (redirected copied domain nodes copies).blockCount = p.blockCount + nodes.length :=
    blockCount_redirected hcopied
  have hsuccessors : ∀ pair ∈ nodes.zip copies,
      ∃ targets, (redirected copied domain nodes copies).successors pair.2 = .ok targets :=
    fun pair hpair => (successors_redirected_copy h.nodes_lt hcopied domain hpair).imp
      fun _ htargets => htargets.1
  have hexit : ∀ l : Label, (redirected copied domain nodes copies).blockCount ≤ l.index →
      isExit (nodes.zip copies) domain l = true :=
    fun l hl => isExit_of_le h.nodes_lt hcopied h.domain_lt (hcount ▸ hl)
  obtain ⟨copy, hcopy⟩ := hcopied.fresh.exists_pair rfl hnode
  have hstray := (leads_redirected_copy_iff h.nodes_lt hcopied domain hcopy hfar).mpr hm
  obtain ⟨pair, hpair, l, hlead, hout, q, hq, hstop⟩ :=
    extendExits_of_stray hsuccessors hexit ⟨_, hcopy, m, hstray, hcount.le.trans hfar⟩
  rw [hcount] at hout hq
  have hnamed := (leads_redirected_copy_iff h.nodes_lt hcopied domain hpair hout).mp hlead
  refine ⟨pair.1, (List.of_mem_zip hpair).1, l, hnamed, q, hq, hq ▸ hout, ?_⟩
  rw [split_eq_extendExits h.nodes_lt h.domain_lt hcopies hstop]
  unfold lookupError
  rw [hq, hcount]
  rfl

/-! ## All splits -/

theorem exists_firstUnknown (what : String) {labels : List Label}
    (h : ∃ l ∈ labels, p.blockCount ≤ l.index) : ∃ e, p.firstUnknown? what labels = some e := by
  cases hunknown : p.firstUnknown? what labels with
  | some e => exact ⟨e, rfl⟩
  | none =>
    obtain ⟨l, hl, hout⟩ := h
    have hlt := firstUnknown?_eq_none.mp hunknown l hl
    omega

/-- A label that the program does not have is found before anything is changed. -/
theorem exists_split_error_of_unknown (h : ∃ l ∈ nodes ++ domain, p.blockCount ≤ l.index) :
    ∃ e, p.split domain nodes = .ok (.error e, p) := by
  obtain ⟨l, hl, hout⟩ := h
  unfold split
  cases hunknown : p.firstUnknown? "split node" nodes with
  | some e => exact ⟨e, rfl⟩
  | none =>
    have hdomain : l ∈ domain := by
      refine (List.mem_append.mp hl).resolve_left fun hnode => ?_
      have hlt := firstUnknown?_eq_none.mp hunknown l hnode
      omega
    obtain ⟨e, he⟩ := exists_firstUnknown "split domain" ⟨l, hdomain, hout⟩
    rw [he]
    exact ⟨e, rfl⟩

/-- A split of labels that the program has, and that leaves for no block beyond the copies, is not
refused. -/
theorem split_ne_error (hknown : ∀ l ∈ nodes ++ domain, l.index < p.blockCount)
    (hkept : ¬p.BreaksOff domain nodes) {e : MethodError} :
    p.split domain nodes ≠ .ok (.error e, q) := by
  intro hsplit
  obtain ⟨hnodes, hdomain⟩ := List.forall_mem_append.mp hknown
  cases hcopies : p.copyBlocks nodes with
  | error violation =>
    rw [split_eq_error hnodes hdomain hcopies] at hsplit
    cases hsplit
  | ok made =>
    obtain ⟨copies, copied⟩ := made
    have htargets : ∀ l ∈ nodes, ∀ m ∈ p.targetsAt l, m.index < p.blockCount + nodes.length := by
      intro l hl m hm
      by_contra hout
      exact hkept ⟨hnodes, hdomain, l, hl, m, hm, Nat.le_of_not_lt hout⟩
    obtain ⟨r, hr, -⟩ := split_of_copyBlocks hnodes hdomain htargets hcopies
    rw [hr] at hsplit
    cases hsplit

/-- A refused split leaves the program alone unless it breaks off, and then the copies stay. -/
theorem split_keeps_iff (p : Program) (domain nodes : List Label) :
    ((∀ e q, p.split domain nodes = .ok (.error e, q) → q = p) ↔ ¬p.BreaksOff domain nodes) ∧
    ((∃ e, p.split domain nodes = .ok (.error e, p)) ↔
      ∃ l ∈ nodes ++ domain, p.blockCount ≤ l.index) ∧
    (p.BreaksOff domain nodes → ∃ l ∈ nodes, ∃ m ∈ p.targetsAt l, ∃ q,
      q.blockCount = p.blockCount + nodes.length ∧ q.blockCount ≤ m.index ∧
      p.split domain nodes = .ok (.error (q.lookupError m), q)) := by
  have hgrown : p.BreaksOff domain nodes → ∀ e q, p.split domain nodes = .ok (.error e, q) →
      q ≠ p := by
    rintro h e q hsplit rfl
    obtain ⟨l, hl, m, -, r, hcount, -, hr⟩ := h.exists_split_error
    rw [hsplit] at hr
    cases hr
    have hpos : 0 < nodes.length := List.length_pos_of_mem hl
    omega
  refine ⟨⟨fun hkeeps h => ?_, fun hkept e q hsplit => ?_⟩, ⟨?_, exists_split_error_of_unknown⟩,
    BreaksOff.exists_split_error⟩
  · obtain ⟨-, -, m, -, q, -, -, hsplit⟩ := h.exists_split_error
    exact hgrown h _ q hsplit (hkeeps _ q hsplit)
  · by_cases hunknown : ∃ l ∈ nodes ++ domain, p.blockCount ≤ l.index
    · obtain ⟨e', he'⟩ := exists_split_error_of_unknown hunknown
      rw [he'] at hsplit
      cases hsplit
      rfl
    · simp only [not_exists, not_and, Nat.not_le] at hunknown
      exact absurd hsplit (split_ne_error hunknown hkept)
  · rintro ⟨e, hsplit⟩
    by_contra hknown
    simp only [not_exists, not_and, Nat.not_le] at hknown
    exact split_ne_error hknown (fun h => hgrown h e p hsplit rfl) hsplit

/-- A node that goes to a block far beyond the copies. -/
def straying : Program := ⟨#[⟨0, [], [.jump 1]⟩, ⟨1, [], [.jump 9]⟩], #[]⟩

/-- The labels are those of blocks, but the program comes back with the copy and redirected. -/
theorem straying_not_kept :
    straying.split [0] [1] = .ok (.error (.danglingLabel 9 3 (.named "block lookup")),
        ⟨#[⟨0, [], [.jump 2]⟩, ⟨1, [], [.jump 9]⟩, ⟨2, [], [.jump 9]⟩], #[]⟩) ∧
      straying ≠ ⟨#[⟨0, [], [.jump 2]⟩, ⟨1, [], [.jump 9]⟩, ⟨2, [], [.jump 9]⟩], #[]⟩ :=
  ⟨by cbv, by decide⟩

end MethodFlow.Program
