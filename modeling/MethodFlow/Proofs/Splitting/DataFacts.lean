import MethodFlow.Proofs.Escape.Sinks
import MethodFlow.Proofs.Splitting.Frame
/-!
# A split keeps the facts about data

A split repeats instructions and takes more often at phis what was taken there before.  Analyses
that ask which statements occur, and not how often or where, see no difference:

* `IsSplit.sameStatements`: the same values flow into the same variables, and the same instructions
  occur;
* `split_keeps_facts`: a split of a program in range keeps its escape facts, whatever the nodes and
  the domain, if there are labels for the copies;
* `split_replicate_refused`: as nodes may repeat, labels can run out for one block.
-/

namespace MethodFlow

namespace Program

variable {p q : Program} {domain nodes copies : List Label}

namespace IsSplit

variable (h : IsSplit p domain nodes copies q)

include h

theorem flowsInto_iff (hin : p.InRange) (value dest : Variable) :
    q.FlowsInto value dest ↔ p.FlowsInto value dest := by
  constructor
  · rintro ⟨c, hc, phi', hphi', i', hi', rfl, rfl⟩
    obtain ⟨b, hb, phi, hphi, hdest, hall⟩ := h.exists_phi hin hc hphi'
    obtain ⟨-, i, hi, hvalue⟩ := hall i' hi'
    exact ⟨b, hb, phi, hphi, i, hi, hdest.symm, hvalue.symm⟩
  · rintro ⟨b, hb, phi, hphi, i, hi, rfl, rfl⟩
    obtain ⟨n, hn⟩ := Array.mem_iff_getElem?.mp hb
    obtain ⟨c, hc, rfl | ⟨others, hsub, rfl⟩⟩ := h.exists_image hn
    · exact ⟨_, Array.mem_of_getElem? hc, _, List.mem_map_of_mem hphi, _, List.mem_map_of_mem hi,
        rfl, rfl⟩
    · have hadmits := h.admits (hin.phi_source b hb phi hphi) hsub
      refine ⟨_, Array.mem_of_getElem? hc, _, List.mem_map_of_mem hphi, i, ?_, phi.dest_extendAll _, rfl⟩
      rw [Phi.incomings_extendAll hadmits]
      exact List.mem_append_left _ hi

theorem performs_iff (i : Instruction) : q.Performs i ↔ p.Performs i := by
  constructor
  · rintro ⟨c, hc, j', hj', rfl⟩
    obtain ⟨b, hb, f, hinstructions, -⟩ := h.exists_instructions hc
    rw [hinstructions] at hj'
    obtain ⟨j, hj, rfl⟩ := List.mem_map.mp hj'
    exact ⟨b, hb, j, hj, (j.withoutLabels_mapLabels f).symm⟩
  · rintro ⟨b, hb, j, hj, rfl⟩
    obtain ⟨n, hn⟩ := Array.mem_iff_getElem?.mp hb
    obtain ⟨c, hc, rfl | ⟨others, -, rfl⟩⟩ := h.exists_image hn
    · exact ⟨_, Array.mem_of_getElem? hc, _, List.mem_map_of_mem hj, j.withoutLabels_mapLabels _⟩
    · exact ⟨_, Array.mem_of_getElem? hc, j, hj, rfl⟩

theorem sameStatements (hin : p.InRange) : p.SameStatements q where
  variableCount_eq := congrArg Array.size h.infos_eq
  flowsInto_iff := h.flowsInto_iff hin
  performs_iff := h.performs_iff

end IsSplit

/-! ## Analyses -/

/-- Without a check of the whole program, operands in range are enough for the analysis. -/
theorem passes_of_verifyOperands {config : EscapeConfig} (hverify : config.verifyFirst = false)
    (hok : p.verifyOperands = .ok ()) : p.Passes config := by
  unfold Passes
  rwa [hverify, if_neg Bool.false_ne_true]

/-- A split of labels that the program has succeeds if there are labels for the copies, and every
analysis of data says of the result what it said of the program. -/
theorem split_keeps_facts (hok : p.verifyOperands = .ok ())
    (hnodes : ∀ l ∈ nodes, l.index < p.blockCount)
    (hdomain : ∀ l ∈ domain, l.index < p.blockCount)
    (hroom : nodes = [] ∨ p.blockCount + nodes.length ≤ indexLimit) :
    ∃ copies q, p.split domain nodes = .ok (.ok copies, q) ∧ q.verifyOperands = .ok () ∧
      (∀ (parameterCount : Nat) (config : EscapeConfig), config.verifyFirst = false →
        ∃ facts, EscapeFacts.analyze p parameterCount config = .ok facts ∧
          EscapeFacts.analyze q parameterCount config = .ok facts) ∧
      ∃ flags, p.sinkFlags = .ok flags ∧ q.sinkFlags = .ok flags := by
  have hin := verifyOperands_eq_ok_iff.mp hok
  obtain ⟨copies, copied, hcopies⟩ : ∃ copies copied, p.copyBlocks nodes = .ok (copies, copied) := by
    rcases hroom with rfl | hroom
    · exact ⟨[], p, rfl⟩
    · exact exists_copyBlocks hroom
  have htargets : ∀ l ∈ nodes, ∀ m ∈ p.targetsAt l, m.index < p.blockCount + nodes.length :=
    fun _ _ _ hm => Nat.lt_add_right _ (hin.lt_of_mem_targetsAt hm)
  obtain ⟨q, hsplit, h⟩ := split_of_copyBlocks hnodes hdomain htargets hcopies
  have hsame := h.sameStatements hin
  have hq : q.verifyOperands = .ok () := verifyOperands_eq_ok_iff.mpr (h.inRange hin)
  refine ⟨_, q, hsplit, hq, fun parameterCount config hverify => ?_, ?_⟩
  · have hbefore := analyze_eq_of_passes (passes_of_verifyOperands hverify hok) parameterCount
    have hafter := analyze_eq_of_passes (passes_of_verifyOperands hverify hq) parameterCount
    rw [hsame.variableCount_eq, ← EscapeFacts.ofFacts_congr hsame.mem_facts_iff] at hafter
    exact ⟨_, hbefore, hafter⟩
  · have hbefore := sinkFlags_of_verifyOperands hok
    exact ⟨_, hbefore, (hsame.sinkFlags_eq hok hq).trans hbefore⟩

/-- Two new objects, one stored in the other, and a loop that is entered with the second. -/
def sheltering : Program :=
  ⟨#[⟨0, [], [.construct 1 "Box", .construct 2 "Box",
      .putField (some 1) 2 ⟨"Box", "next"⟩ "LBox;", .jump 1]⟩,
    ⟨1, [⟨3, [⟨0, 1⟩, ⟨1, 3⟩]⟩], [.branch .null 3 1 2]⟩,
    ⟨2, [], [.exit none]⟩], .replicate 4 ⟨none⟩⟩

/-- The loop is split twice for a domain that it belongs to, and still nothing escapes. -/
theorem sheltering_facts_kept :
    sheltering.verifyOperands = .ok () ∧ sheltering.blockCount + 2 ≤ indexLimit ∧
      ∃ copies q, sheltering.split [0, 1] [1, 1] = .ok (.ok copies, q) ∧
        EscapeFacts.analyze q 0 ⟨true, false, false⟩ =
          .ok ⟨#[0, 1, 2, 1], #[false, false, false], #[false, true, true, false], 1⟩ ∧
        q.sinkFlags = .ok #[false, true, true, true] := by
  have hok : sheltering.verifyOperands = .ok () := rfl
  have hanalysis : EscapeFacts.analyze sheltering 0 ⟨true, false, false⟩ =
      .ok ⟨#[0, 1, 2, 1], #[false, false, false], #[false, true, true, false], 1⟩ := by
    cbv
  have hsinks : sheltering.sinkFlags = .ok #[false, true, true, true] := by
    cbv
  have hnodes : ∀ l ∈ [(1 : Label), 1], l.index < sheltering.blockCount := by decide
  have hdomain : ∀ l ∈ [(0 : Label), 1], l.index < sheltering.blockCount := by decide
  have hroom : sheltering.blockCount + 2 ≤ indexLimit := by decide
  obtain ⟨copies, q, hsplit, -, hfacts, flags, hbefore, hflags⟩ :=
    split_keeps_facts hok hnodes hdomain (.inr hroom)
  obtain ⟨facts, hp, hq⟩ := hfacts 0 ⟨true, false, false⟩ rfl
  rw [hanalysis] at hp
  rw [hsinks] at hbefore
  cases hp
  cases hbefore
  exact ⟨hok, hroom, copies, q, hsplit, hq, hflags⟩

/-- A single block, to be copied once for each label that there is. -/
theorem split_replicate_refused :
    (exits 1 (by decide)).verifyOperands = .ok () ∧
      (∀ l ∈ List.replicate indexLimit (0 : Label), l.index < (exits 1 (by decide)).blockCount) ∧
      (exits 1 (by decide)).split [] (.replicate indexLimit 0) = .error .labelTooLarge := by
  have hnodes : ∀ l ∈ List.replicate indexLimit (0 : Label),
      l.index < (exits 1 (by decide)).blockCount := by
    intro l hl
    rw [List.eq_of_mem_replicate hl, blockCount_exits]
    exact Nat.one_pos
  refine ⟨verifyOperands_eq_ok_iff.mpr wellFormed_exits.inRange, hnodes, ?_⟩
  apply split_eq_labelTooLarge hnodes
  · exact fun _ hl => absurd hl List.not_mem_nil
  · rw [Ne, List.replicate_eq_nil_iff]
    decide
  · rw [blockCount_exits, List.length_replicate]
    exact Nat.lt_one_add_iff.mpr le_rfl

end Program

end MethodFlow
