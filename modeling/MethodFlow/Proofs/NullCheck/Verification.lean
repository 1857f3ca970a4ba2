import MethodFlow.Proofs.NullCheck.EscapeFacts
import MethodFlow.Proofs.Verification.Instructions
/-!
# Null checks do not disturb verification

A check stands in front of a call, so that a block ends as it did, and phis and labels are not
touched:

* `Guards.pairwise_not_transfer`, `Guards.coherent`: every instruction still fits its place;
* `Inserts.controlFlow_eq`: control goes where it went;
* `verify_insertNullChecks`: what has been verified stays verified.
-/

namespace MethodFlow

/-! ## Instructions -/

namespace Block

variable {b : Block}

/-- Nothing follows a transfer of control, and every instruction makes sense by itself. -/
theorem allFit_iff : b.AllFit ↔
    b.instructions.Pairwise (fun i _ => i.isControlTransfer = false) ∧
      ∀ i ∈ b.instructions, i.Coherent := by
  constructor
  · intro h
    refine ⟨List.pairwise_iff_getElem.mpr fun n m hn hm hlt => ?_, fun i hi => ?_⟩
    · by_contra htransfer
      have hlast := (h n _ (List.getElem?_eq_getElem hn)).1 (Bool.eq_true_of_not_eq_false htransfer)
      omega
    · obtain ⟨n, hn⟩ := List.mem_iff_getElem?.mp hi
      exact (h n i hn).2
  · rintro ⟨hplace, hcoherent⟩ n i hi
    obtain ⟨hn, rfl⟩ := List.getElem?_eq_some_iff.mp hi
    refine ⟨fun htransfer => ?_, hcoherent _ (List.getElem_mem hn)⟩
    by_contra hlast
    have hnext := List.pairwise_iff_getElem.mp hplace n (n + 1) hn (by omega) (by omega)
    rw [htransfer] at hnext
    cases hnext

end Block

namespace Guards

variable {kinds : List Dispatch} {is js : List Instruction} {checks : Checks}
  (h : Guards kinds is js checks)

include h

theorem eq_nil_iff : js = [] ↔ is = [] := by
  cases h <;> simp

/-- What is added stands in front of a call and transfers no control. -/
theorem pairwise_not_transfer (hplace : is.Pairwise fun i _ => i.isControlTransfer = false) :
    js.Pairwise fun j _ => j.isControlTransfer = false := by
  induction h with
  | nil => exact .nil
  | @keep i is js checks _ hrest ih =>
    obtain ⟨hfirst, hplace⟩ := List.pairwise_cons.mp hplace
    refine List.pairwise_cons.mpr ⟨fun j hj => ?_, ih hplace⟩
    obtain ⟨i', hi'⟩ := List.exists_mem_of_ne_nil is fun hnil => by
      rw [hrest.eq_nil_iff.mpr hnil] at hj
      cases hj
    exact hfirst i' hi'
  | check _ _ _ ih =>
    obtain ⟨-, hplace⟩ := List.pairwise_cons.mp hplace
    exact List.pairwise_cons.mpr ⟨fun _ _ => rfl, List.pairwise_cons.mpr ⟨fun _ _ => rfl,
      ih hplace⟩⟩

/-- A guarded call has an object before and after. -/
theorem coherent (hcoherent : ∀ i ∈ is, i.Coherent) : ∀ j ∈ js, j.Coherent := by
  induction h with
  | nil => exact hcoherent
  | keep _ _ ih =>
    obtain ⟨hfirst, hrest⟩ := List.forall_mem_cons.mp hcoherent
    exact List.forall_mem_cons.mpr ⟨hfirst, ih hrest⟩
  | @check call checked object is js checks _ hobject _ ih =>
    obtain ⟨hfirst, hrest⟩ := List.forall_mem_cons.mp hcoherent
    have hcall : call.dispatch = .static ↔ call.object = none := hfirst
    have hguarded : (Instruction.invoke { call with object := some checked }).Coherent := by
      show call.dispatch = .static ↔ some checked = none
      rw [hcall, hobject]
      simp
    exact List.forall_mem_cons.mpr ⟨trivial, List.forall_mem_cons.mpr ⟨hguarded, ih hrest⟩⟩

/-- The last instruction transfers control to where it did. -/
theorem map_targets?_getLast? :
    js.getLast?.map Instruction.targets? = is.getLast?.map Instruction.targets? := by
  induction h with
  | nil => rfl
  | keep _ _ ih =>
    rw [List.getLast?_cons, List.getLast?_cons, Option.map_some, Option.map_some,
      ← Option.getD_map Instruction.targets?, ← Option.getD_map Instruction.targets?, ih]
  | check _ _ _ ih =>
    rw [List.getLast?_cons, List.getLast?_cons, List.getLast?_cons, Option.getD_some,
      Option.map_some, Option.map_some, ← Option.getD_map Instruction.targets?,
      ← Option.getD_map Instruction.targets?, ih]
    rfl

end Guards

/-! ## Blocks -/

namespace Block.Guards

variable {kinds : List Dispatch} {b b' : Block} {checks : Checks} (h : b.Guards kinds b' checks)

include h

theorem allFit (hfit : b.AllFit) : b'.AllFit := by
  rw [allFit_iff] at *
  exact ⟨h.instructions.pairwise_not_transfer hfit.1, h.instructions.coherent hfit.2⟩

theorem targets?_eq : b'.targets? = b.targets? := by
  have hbind : ∀ b : Block,
      b.targets? = (b.instructions.getLast?.map Instruction.targets?).bind id :=
    fun b => by rw [Option.bind_map, Function.id_comp]; rfl
  rw [hbind, hbind, h.instructions.map_targets?_getLast?]

theorem invalidPhi?_eq (g : Adjacency) (reachable : Array Bool) :
    b'.invalidPhi? g reachable = b.invalidPhi? g reachable := by
  unfold invalidPhi?
  rw [h.label_eq, h.phis_eq]

end Block.Guards

/-! ## Programs -/

namespace Program.Inserts

variable {p q : Program} {kinds : List Dispatch} {checks : Checks}
  (h : p.Inserts kinds q checks)

include h

theorem allFit (hfit : p.AllFit) : q.AllFit := by
  intro b' hb'
  obtain ⟨b, hb, own, -, hguards⟩ := h.blocks.exists_of_mem (Array.mem_toList_iff.mpr hb')
  exact hguards.allFit (hfit b (Array.mem_toList_iff.mp hb))

theorem successors_eq (l : Label) : q.successors l = p.successors l := by
  refine successors_congr h.blockCount_eq ?_
  rw [← Array.getElem?_toList, ← Array.getElem?_toList, ← List.getElem?_map, ← List.getElem?_map,
    h.blocks.map_eq fun hb => hb.targets?_eq]

theorem controlEdges_eq : q.controlEdges = p.controlEdges := by
  have hedges : q.edgesFrom = p.edgesFrom := by
    funext b
    unfold edgesFrom checkLabel checkLabelM
    rw [h.successors_eq, h.blockCount_eq]
  have hmap : q.blocks.toList.map p.edgesFrom = p.blocks.toList.map p.edgesFrom :=
    h.blocks.map_eq fun hb => by rw [edgesFrom, edgesFrom, hb.label_eq]
  have hmapM : ∀ bs : List Block, bs.mapM p.edgesFrom = (bs.map p.edgesFrom).mapM id :=
    fun bs => by rw [List.mapM_map, Function.id_comp]
  unfold controlEdges
  rw [hedges, hmapM, hmap, ← hmapM]

theorem controlFlow_eq : q.controlFlow = p.controlFlow := by
  unfold controlFlow
  rw [h.controlEdges_eq, h.blockCount_eq]

theorem findSome_invalidPhi_eq (g : Adjacency) (reachable : Array Bool) :
    q.blocks.toList.findSome? (·.invalidPhi? g reachable) =
      p.blocks.toList.findSome? (·.invalidPhi? g reachable) := by
  have hmap : q.blocks.toList.map (·.invalidPhi? g reachable) =
      p.blocks.toList.map (·.invalidPhi? g reachable) :=
    h.blocks.map_eq fun hb => hb.invalidPhi?_eq g reachable
  have hfind : ∀ bs : List Block, bs.findSome? (·.invalidPhi? g reachable) =
      (bs.map (·.invalidPhi? g reachable)).findSome? id := fun bs => by
        rw [List.findSome?_map, Function.id_comp]
  rw [hfind, hmap, ← hfind]

/-- A verified program stays verified. -/
theorem verify_eq_ok (hverify : p.verify = .ok ()) : q.verify = .ok () := by
  obtain ⟨hin, hfit, g, hg, hphis⟩ := verify_eq_ok_iff_stages.mp hverify
  have hreachable : q.reachableBlocks g = p.reachableBlocks g := by
    unfold reachableBlocks
    rw [h.blockCount_eq]
  refine verify_eq_ok_iff_stages.mpr ⟨h.inRange_iff.mpr (hin.grow _), h.allFit hfit, g, ?_, ?_⟩
  · rw [h.controlFlow_eq, hg]
  · rw [h.findSome_invalidPhi_eq, hreachable, hphis]

end Program.Inserts

namespace Program

/-- Guarding the calls of a verified program gives a verified program, in which control goes from
every block to where it went. -/
theorem verify_insertNullChecks (p : Program) (kinds : List Dispatch) (hverify : p.verify = .ok ())
    (hroom : p.variableCount + (p.objectCalls kinds).length ≤ indexLimit) :
    ∃ q, p.insertNullChecks kinds = .ok ((p.objectCalls kinds).length, q) ∧
      q.verify = .ok () ∧
      q.blockCount = p.blockCount ∧
      ∀ l, q.successors l = p.successors l := by
  rw [← guardCount_eq_length] at hroom ⊢
  obtain ⟨q, checks, hinsert, h, -⟩ := exists_insertNullChecks (.inr hroom)
  exact ⟨q, hinsert, h.verify_eq_ok hverify, h.blockCount_eq, h.successors_eq⟩

/-- A block that ends in a call and falls through to a phi. -/
def calling : Program :=
  ⟨#[⟨0, [], [.nullConstant 1, .invoke ⟨.virtual, ⟨"A", "g", [], "V"⟩, some 0, [1], none⟩]⟩,
    ⟨1, [⟨2, [⟨0, 1⟩]⟩], [.invoke ⟨.special, ⟨"A", "g", [], "V"⟩, some 2, [1], none⟩, .exit none]⟩],
    .replicate 3 ⟨none⟩⟩

theorem calling_stays_verified :
    calling.verify = .ok () ∧
      calling.variableCount + (calling.objectCalls [.virtual, .special]).length ≤ indexLimit ∧
      ∃ q, calling.insertNullChecks [.virtual, .special] = .ok (2, q) ∧ q.verify = .ok () ∧
        q.successors 0 = .ok [1] := by
  have hverify : calling.verify = .ok () := by cbv
  have hroom : calling.variableCount + (calling.objectCalls [.virtual, .special]).length ≤
      indexLimit := by decide
  obtain ⟨q, hinsert, hq, -, hsuccessors⟩ :=
    verify_insertNullChecks calling [.virtual, .special] hverify hroom
  refine ⟨hverify, hroom, q, hinsert, hq, ?_⟩
  rw [hsuccessors]
  cbv

end Program

end MethodFlow
