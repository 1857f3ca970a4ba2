import MethodFlow.Proofs.NullCheck.Insertion
/-!
# What an inserted check looks like

Insertion said by the places of the calls, and undone:

* `Guards.exists_fresh`: an instruction list is rewritten call by call, each with the variable of
  its place;
* `Block.Guards.withoutChecks_eq`: without the checks a block is what it was;
* `insertNullChecks_eq_withChecks`: the program that insertion makes, block by block, the order in
  which its variables are numbered, and the way back.
-/

namespace MethodFlow

/-! ## Calls and their checks -/

namespace Instruction

/-- A call of one of these kinds on an object. -/
def isObjectCall (kinds : List Dispatch) : Instruction → Bool
  | .invoke call => call.object.isSome && kinds.contains call.dispatch
  | _ => false

/-- Makes a call of one of these kinds on the fresh variable, after a check that gives it the
object. -/
def withCheck (kinds : List Dispatch) (fresh : Variable) : Instruction → List Instruction
  | .invoke call =>
    match call.object with
    | some object =>
      if call.dispatch ∈ kinds then
        [.nullCheck fresh object, .invoke { call with object := some fresh }]
      else [.invoke call]
    | none => [.invoke call]
  | i => [i]

/-- The variable and the object of a null check, if the variable has a number from the bound on. -/
def checkFrom? (bound : Nat) : Instruction → Option (Variable × Variable)
  | .nullCheck dest object => if bound ≤ dest.index then some (dest, object) else none
  | _ => none

def mapObject (f : Variable → Variable) : Instruction → Instruction
  | .invoke call => .invoke { call with object := call.object.map f }
  | i => i

variable {kinds : List Dispatch} {i : Instruction}

theorem isObjectCall_eq_isSome (kinds : List Dispatch) (i : Instruction) :
    i.isObjectCall kinds = (i.guarded? kinds).isSome := by
  cases i with
  | invoke call =>
    cases hobject : call.object with
    | none => simp [isObjectCall, guarded?, hobject]
    | some object =>
      by_cases hkind : call.dispatch ∈ kinds <;> simp [isObjectCall, guarded?, hobject, hkind]
  | _ => rfl

theorem withCheck_of_guarded_eq_none (hi : i.guarded? kinds = none) (fresh : Variable) :
    i.withCheck kinds fresh = [i] := by
  cases i with
  | invoke call =>
    cases hobject : call.object with
    | none => simp [withCheck, hobject]
    | some object =>
      have hkind : call.dispatch ∉ kinds := by
        intro hkind
        have hsome := guarded_eq_some_iff.mpr ⟨Eq.refl (Instruction.invoke call), hkind, hobject⟩
        rw [hi] at hsome
        cases hsome
      simp [withCheck, hobject, hkind]
  | _ => rfl

theorem checkFrom?_of_vars {bound : Nat} (hi : ∀ v ∈ i.vars, v.index < bound) :
    i.checkFrom? bound = none := by
  cases i with
  | nullCheck dest object =>
    have hlt := hi dest List.mem_cons_self
    exact if_neg (by omega)
  | _ => rfl

theorem mapObject_of_vars {f : Variable → Variable} (hi : ∀ v ∈ i.vars, f v = v) :
    i.mapObject f = i := by
  cases i with
  | invoke call =>
    have hobject : call.object.map f = call.object := by
      refine (Option.map_congr fun v hv => hi v ?_).trans (congrFun Option.map_id call.object)
      have hmem : v ∈ call.object.toList := by simp [hv]
      exact List.mem_append_right _ (List.mem_append_right _ hmem)
    simp only [mapObject, hobject]
  | _ => rfl

end Instruction

/-- The checks among some instructions whose variables have numbers from the bound on. -/
def checksFrom (bound : Nat) (is : List Instruction) : Checks :=
  is.filterMap (·.checkFrom? bound)

namespace Block

/-- The block with a check in front of every call; the variable of a check follows from the place of
the call. -/
def withChecks (kinds : List Dispatch) (fresh : Nat → Variable) (b : Block) : Block :=
  { b with instructions := (b.instructions.mapIdx fun n i => i.withCheck kinds (fresh n)).flatten }

def callPlaces (kinds : List Dispatch) (b : Block) : List Nat :=
  b.instructions.findIdxs (·.isObjectCall kinds)

/-- The block without the checks that give a variable from the bound on its object, and with the
object in the place of that variable. -/
def withoutChecks (bound : Nat) (b : Block) : Block :=
  { b with
    instructions := (b.instructions.filter fun i => (i.checkFrom? bound).isNone).map
      (Instruction.mapObject (checksFrom bound b.instructions).origin) }

end Block

/-! ## Instructions -/

namespace Guards

variable {kinds : List Dispatch} {is js : List Instruction} {checks : Checks}
  (h : Guards kinds is js checks)

include h

/-- Every place has its variable, and the variables are taken from the end. -/
theorem exists_fresh : ∃ fresh : Nat → Variable,
    js = (is.mapIdx fun n i => i.withCheck kinds (fresh n)).flatten ∧
      (is.findIdxs (·.isObjectCall kinds)).reverse.map fresh = checks.map (·.1) := by
  induction h with
  | nil => exact ⟨fun _ => 0, rfl, rfl⟩
  | @keep i is js checks hi _ ih =>
    obtain ⟨fresh, rfl, hplaces⟩ := ih
    have hcall : i.isObjectCall kinds = false := by
      rw [i.isObjectCall_eq_isSome, hi]
      rfl
    -- Places move by one; the one in front is no call, so that its variable is never asked for.
    refine ⟨fun n => fresh (n - 1), ?_, ?_⟩
    · rw [List.mapIdx_cons, List.flatten_cons, Instruction.withCheck_of_guarded_eq_none hi]
      rfl
    · rw [List.findIdxs_cons, hcall, if_neg Bool.false_ne_true, List.findIdxs_start,
        ← List.map_reverse, List.map_map, ← hplaces]
      rfl
  | @check call checked object is js checks hkind hobject _ ih =>
    obtain ⟨fresh, rfl, hplaces⟩ := ih
    have hcall : (Instruction.invoke call).isObjectCall kinds = true := by
      simp [Instruction.isObjectCall, hobject, hkind]
    have hcheck : (Instruction.invoke call).withCheck kinds checked =
        [.nullCheck checked object, .invoke { call with object := some checked }] := by
      simp [Instruction.withCheck, hobject, hkind]
    refine ⟨fun | 0 => checked | n + 1 => fresh n, ?_, ?_⟩
    · rw [List.mapIdx_cons, List.flatten_cons, hcheck]
      rfl
    · rw [List.findIdxs_cons, hcall, if_pos rfl, List.findIdxs_start, List.reverse_cons,
        ← List.map_reverse, List.map_append, List.map_map, List.map_append, ← hplaces]
      rfl

section Back

variable {bound : Nat} (hin : ∀ i ∈ is, ∀ v ∈ i.vars, v.index < bound)
  (hadded : ∀ c ∈ checks, bound ≤ c.1.index)

include hin hadded

/-- The checks are found in the list, from the end. -/
theorem checksFrom_eq : checksFrom bound js = checks.reverse := by
  induction h with
  | nil => rfl
  | keep _ _ ih =>
    obtain ⟨hfirst, hrest⟩ := List.forall_mem_cons.mp hin
    unfold checksFrom
    rw [List.filterMap_cons_none (Instruction.checkFrom?_of_vars hfirst)]
    exact ih hrest hadded
  | @check call checked object is js checks _ _ _ ih =>
    obtain ⟨-, hrest⟩ := List.forall_mem_cons.mp hin
    obtain ⟨hbefore, hlast⟩ := List.forall_mem_append.mp hadded
    have hcheck : (Instruction.nullCheck checked object).checkFrom? bound =
        some (checked, object) := if_pos (hlast _ (List.mem_singleton.mpr rfl))
    unfold checksFrom
    rw [List.filterMap_cons_some hcheck, List.filterMap_cons_none rfl, List.reverse_append]
    exact congrArg ((checked, object) :: ·) (ih hrest hbefore)

/-- Without the checks, and with the objects back in their places, the list is what it was. -/
theorem map_mapObject_eq {f : Variable → Variable} (hf : ∀ v : Variable, v.index < bound → f v = v)
    (hback : ∀ c ∈ checks, f c.1 = c.2) :
    (js.filter fun i => (i.checkFrom? bound).isNone).map (Instruction.mapObject f) = is := by
  induction h with
  | nil => rfl
  | @keep i is js checks _ _ ih =>
    obtain ⟨hfirst, hrest⟩ := List.forall_mem_cons.mp hin
    have hkept : (i.checkFrom? bound).isNone = true := by
      rw [Instruction.checkFrom?_of_vars hfirst]
      rfl
    rw [List.filter_cons, if_pos hkept, List.map_cons, ih hrest hadded hback,
      Instruction.mapObject_of_vars fun v hv => hf v (hfirst v hv)]
  | @check call checked object is js checks _ hobject _ ih =>
    obtain ⟨-, hrest⟩ := List.forall_mem_cons.mp hin
    obtain ⟨hbefore, hlast⟩ := List.forall_mem_append.mp hadded
    obtain ⟨hbackBefore, hbackLast⟩ := List.forall_mem_append.mp hback
    have hmem : (checked, object) ∈ [(checked, object)] := List.mem_singleton.mpr rfl
    have hdropped : ¬((Instruction.nullCheck checked object).checkFrom? bound).isNone = true := by
      simp [Instruction.checkFrom?, hlast _ hmem]
    have hcall : (Instruction.invoke { call with object := some checked }).mapObject f =
        .invoke call := by
      have hobject' : f checked = object := hbackLast _ hmem
      simp only [Instruction.mapObject, Option.map_some, hobject', ← hobject]
    have hkept : ((Instruction.invoke { call with object := some checked }).checkFrom?
        bound).isNone = true := rfl
    rw [List.filter_cons, if_neg hdropped, List.filter_cons, if_pos hkept, List.map_cons, hcall,
      ih hrest hbefore hbackBefore]

end Back

end Guards

/-! ## Blocks -/

namespace Block.Guards

variable {kinds : List Dispatch} {b b' : Block} {checks : Checks} (h : b.Guards kinds b' checks)

include h

theorem exists_fresh : ∃ fresh : Nat → Variable, b' = b.withChecks kinds fresh ∧
    (b.callPlaces kinds).reverse.map fresh = checks.map (·.1) := by
  obtain ⟨fresh, hinstructions, hplaces⟩ := h.instructions.exists_fresh
  exact ⟨fresh, h.eq_of_instructions hinstructions, hplaces⟩

theorem withoutChecks_eq {bound : Nat} (hin : ∀ v ∈ b.vars, v.index < bound)
    (hadded : ∀ c ∈ checks, bound ≤ c.1.index) (hnodup : (checks.map (·.1)).Nodup) :
    b'.withoutChecks bound = b := by
  have hvars : ∀ i ∈ b.instructions, ∀ v ∈ i.vars, v.index < bound :=
    fun i hi v hv => hin v (List.mem_append_right _ (List.mem_flatMap.mpr ⟨i, hi, hv⟩))
  have hchecks := h.instructions.checksFrom_eq hvars hadded
  have hreverse : ((checks.reverse).map (·.1)).Nodup := by
    rw [List.map_reverse]
    exact List.nodup_reverse.mpr hnodup
  have hold : ∀ v : Variable, v.index < bound → Checks.origin checks.reverse v = v :=
    fun v => Checks.origin_of_lt fun c hc => hadded c (List.mem_reverse.mp hc)
  have hback : ∀ c ∈ checks, Checks.origin checks.reverse c.1 = c.2 :=
    fun c hc => Checks.origin_of_mem hreverse (List.mem_reverse.mpr hc)
  unfold withoutChecks
  rw [hchecks, h.instructions.map_mapObject_eq hvars hadded hold hback, h.label_eq, h.phis_eq]

end Block.Guards

namespace GuardsBlocks

variable {kinds : List Dispatch} {bs bs' : List Block} {checks : Checks}
  (h : GuardsBlocks kinds bs bs' checks)

include h

theorem exists_fresh : ∃ fresh : Nat → Nat → Variable,
    bs' = bs.mapIdx (fun n b => b.withChecks kinds (fresh n)) ∧
      (bs.mapIdx fun n b => (b.callPlaces kinds).reverse.map (fresh n)).flatten =
        checks.map (·.1) := by
  induction h with
  | nil => exact ⟨fun _ _ => 0, rfl, rfl⟩
  | cons hb _ ih =>
    obtain ⟨own, rfl, hown⟩ := hb.exists_fresh
    obtain ⟨fresh, rfl, hplaces⟩ := ih
    refine ⟨fun | 0 => own | n + 1 => fresh n, ?_, ?_⟩
    · rw [List.mapIdx_cons]
    · rw [List.mapIdx_cons, List.flatten_cons, List.map_append, ← hown, ← hplaces]

theorem map_withoutChecks_eq {bound : Nat} (hin : ∀ b ∈ bs, ∀ v ∈ b.vars, v.index < bound)
    (hadded : ∀ c ∈ checks, bound ≤ c.1.index) (hnodup : (checks.map (·.1)).Nodup) :
    bs'.map (Block.withoutChecks bound) = bs := by
  induction h with
  | nil => rfl
  | cons hb _ ih =>
    obtain ⟨hfirst, hrest⟩ := List.forall_mem_cons.mp hin
    obtain ⟨hown, hmore⟩ := List.forall_mem_append.mp hadded
    rw [List.map_append] at hnodup
    have hnodups := List.nodup_append.mp hnodup
    rw [List.map_cons, hb.withoutChecks_eq hfirst hown hnodups.1, ih hrest hmore hnodups.2.1]

end GuardsBlocks

/-! ## Programs -/

namespace Program

def checkVariables (p : Program) (kinds : List Dispatch) (fresh : Nat → Nat → Variable) :
    List Variable :=
  (p.blocks.toList.mapIdx fun n b => (b.callPlaces kinds).reverse.map (fresh n)).flatten

/-- Insertion puts a check in front of every call of the kinds, on the variables that follow those
of the program, and what it puts in can be taken out again. -/
theorem insertNullChecks_eq_withChecks (p : Program) (kinds : List Dispatch)
    (hroom : p.variableCount + (p.objectCalls kinds).length ≤ indexLimit) :
    ∃ q fresh, p.insertNullChecks kinds = .ok ((p.objectCalls kinds).length, q) ∧
      q.blocks = p.blocks.mapIdx (fun n b => b.withChecks kinds (fresh n)) ∧
      q.infos = p.infos ++ .replicate (p.objectCalls kinds).length ⟨none⟩ ∧
      (p.checkVariables kinds fresh).map (·.index) =
        List.range' p.variableCount (p.objectCalls kinds).length ∧
      ((∀ b ∈ p.blocks, ∀ v ∈ b.vars, v.index < p.variableCount) →
        q.blocks.map (Block.withoutChecks p.variableCount) = p.blocks) := by
  rw [← guardCount_eq_length] at hroom ⊢
  obtain ⟨q, checks, hinsert, h, hlength⟩ := exists_insertNullChecks (.inr hroom)
  obtain ⟨fresh, hblocks, hvariables⟩ := h.blocks.exists_fresh
  refine ⟨q, fresh, hinsert, ?_, hlength ▸ h.infos_eq, ?_, fun hin => ?_⟩
  · rw [← Array.toList_inj, hblocks, Array.toList_mapIdx]
  · unfold checkVariables
    rw [hvariables, List.map_map, ← hlength]
    exact h.numbered
  · have hadded : ∀ c ∈ checks, p.variableCount ≤ c.1.index :=
      fun c hc => (h.numbered.index_bounds (v := c.2) hc).1
    have hvars : ∀ b ∈ p.blocks.toList, ∀ v ∈ b.vars, v.index < p.variableCount :=
      fun b hb => hin b (Array.mem_toList_iff.mp hb)
    rw [← Array.toList_inj, Array.toList_map]
    exact h.blocks.map_withoutChecks_eq hvars hadded h.numbered.nodup

/-- A call without arguments, on the object if there is one. -/
def callOn (dispatch : Dispatch) (object : Option Variable) : Instruction :=
  .invoke ⟨dispatch, ⟨"A", "g", [], "V"⟩, object, [], none⟩

/-- Two calls in a row among others, and one in the next block. -/
def conversing : Program :=
  ⟨#[⟨0, [], [callOn .static none, callOn .virtual (some 0), callOn .virtual (some 1),
      callOn .special (some 0), .jump 1]⟩,
    ⟨1, [⟨1, [⟨0, 0⟩]⟩], [callOn .virtual (some 1), .exit none]⟩], .replicate 2 ⟨none⟩⟩

def conversingChecked : Program :=
  ⟨#[⟨0, [], [callOn .static none, .nullCheck 3 0, callOn .virtual (some 3), .nullCheck 2 1,
      callOn .virtual (some 2), callOn .special (some 0), .jump 1]⟩,
    ⟨1, [⟨1, [⟨0, 0⟩]⟩], [.nullCheck 4 1, callOn .virtual (some 4), .exit none]⟩],
    .replicate 5 ⟨none⟩⟩

theorem conversing_rewritten :
    conversing.variableCount + (conversing.objectCalls [.virtual]).length ≤ indexLimit ∧
      conversing.insertNullChecks [.virtual] = .ok (3, conversingChecked) ∧
      (∃ fresh, conversingChecked.blocks =
          conversing.blocks.mapIdx (fun n b => b.withChecks [.virtual] (fresh n)) ∧
        (conversing.checkVariables [.virtual] fresh).map (·.index) = [2, 3, 4]) ∧
      conversingChecked.blocks.map (Block.withoutChecks 2) = conversing.blocks := by
  have hroom : conversing.variableCount + (conversing.objectCalls [.virtual]).length ≤ indexLimit := by
    decide
  have hinsert : conversing.insertNullChecks [.virtual] = .ok (3, conversingChecked) := by
    cbv
  obtain ⟨q, fresh, hinsert', hblocks, -, hvariables, hback⟩ :=
    insertNullChecks_eq_withChecks conversing [.virtual] hroom
  rw [hinsert] at hinsert'
  cases hinsert'
  exact ⟨hroom, hinsert, ⟨fresh, hblocks, hvariables⟩, hback (by decide)⟩

end Program

end MethodFlow
