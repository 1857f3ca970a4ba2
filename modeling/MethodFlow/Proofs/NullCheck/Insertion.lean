import MethodFlow.NullCheck
import MethodFlow.Proofs.Verification.Operands
import Mathlib.Data.List.Nodup
/-!
# What the insertion of null checks does

Insertion is said once, by the checks that it adds; the rest is read off that:

* `exists_insertNullChecks`, `insertNullChecks_eq_error`: it adds one check for every guarded call,
  and fails exactly if there are not enough numbers for their variables;
* `Inserts.inRange_iff`: the operands of the result are in range exactly if those of the program
  are after its table has grown.
-/

namespace MethodFlow

/-! ## The checks -/

/-- Variables that are added, each with the object that it checks. -/
abbrev Checks := List (Variable × Variable)

/-- The variables of the checks have the next numbers, in order. -/
def Checks.Numbered (next : Nat) (checks : Checks) : Prop :=
  checks.map (·.1.index) = List.range' next checks.length

/-- The variable itself, or the object that it checks if it was added. -/
def Checks.origin (checks : Checks) (v : Variable) : Variable := (checks.lookup v).getD v

theorem Checks.origin_of_mem {checks : Checks} {v w : Variable} (hnodup : (checks.map (·.1)).Nodup)
    (hmem : (w, v) ∈ checks) : checks.origin w = v := by
  obtain ⟨before, after, heq⟩ := List.append_of_mem hmem
  rw [heq, List.map_append, List.nodup_append] at hnodup
  have hlookup : checks.lookup w = some v := by
    refine List.lookup_eq_some_iff.mpr ⟨before, after, heq, fun c hc => ?_⟩
    have hne : c.1 ≠ w :=
      hnodup.2.2 c.1 (List.mem_map.mpr ⟨c, hc, rfl⟩) w (by simp)
    simpa using hne.symm
  rw [origin, hlookup, Option.getD_some]

theorem Checks.origin_of_lt {checks : Checks} {v : Variable} {bound : Nat}
    (hbound : ∀ c ∈ checks, bound ≤ c.1.index) (hlt : v.index < bound) : checks.origin v = v := by
  have hlookup : checks.lookup v = none := by
    refine List.lookup_eq_none_iff.mpr fun c hc => ?_
    have hle := hbound c hc
    have hne : v ≠ c.1 := by
      intro heq
      rw [heq] at hlt
      omega
    simpa using hne
  rw [origin, hlookup, Option.getD_none]

/-- There are numbers for so many variables. -/
def HasRoom (next count : Nat) : Prop := count = 0 ∨ next + count ≤ indexLimit

theorem hasRoom_add {next first second : Nat} :
    HasRoom next (first + second) ↔ HasRoom next first ∧ HasRoom (next + first) second := by
  unfold HasRoom
  omega

namespace Checks.Numbered

variable {next : Nat} {checks more : Checks} {w v : Variable}

theorem nil (next : Nat) : Numbered next [] := rfl

theorem append (h : Numbered next checks) (hmore : Numbered (next + checks.length) more) :
    Numbered next (checks ++ more) := by
  unfold Numbered at *
  rw [List.map_append, h, hmore, List.length_append, List.range'_append_1]

theorem singleton (w v : Variable) : Numbered w.index [(w, v)] := rfl

theorem index_bounds (h : Numbered next checks) (hmem : (w, v) ∈ checks) :
    next ≤ w.index ∧ w.index < next + checks.length := by
  have hindex : w.index ∈ checks.map (·.1.index) := List.mem_map.mpr ⟨_, hmem, rfl⟩
  rw [h] at hindex
  exact List.mem_range'_1.mp hindex

theorem exists_mem (h : Numbered next checks) (hle : next ≤ w.index)
    (hlt : w.index < next + checks.length) : ∃ v, (w, v) ∈ checks := by
  have hindex : w.index ∈ checks.map (·.1.index) := h ▸ List.mem_range'_1.mpr ⟨hle, hlt⟩
  obtain ⟨⟨u, v⟩, hmem, heq⟩ := List.mem_map.mp hindex
  cases Variable.ext heq
  exact ⟨v, hmem⟩

/-- No variable is added twice. -/
theorem nodup (h : Numbered next checks) : (checks.map (·.1)).Nodup := by
  have hnodup : ((checks.map (·.1)).map (·.index)).Nodup := by
    rw [List.map_map]
    exact h ▸ List.nodup_range'
  exact hnodup.of_map _

theorem origin_of_mem (h : Numbered next checks) (hmem : (w, v) ∈ checks) : checks.origin w = v :=
  Checks.origin_of_mem h.nodup hmem

theorem origin_of_lt (h : Numbered next checks) (hlt : v.index < next) : checks.origin v = v :=
  Checks.origin_of_lt (fun c hc => (h.index_bounds (v := c.2) hc).1) hlt

end Checks.Numbered

/-! ## Instructions -/

section Instructions

variable {kinds : List Dispatch} {i : Instruction} {is js : List Instruction} {checks : Checks}
  {v w : Variable}

def guardCount (kinds : List Dispatch) (is : List Instruction) : Nat :=
  is.countP fun i => (i.guarded? kinds).isSome

/-- The second list is the first with a check in front of every guarded call; checks are numbered
from the end. -/
inductive Guards (kinds : List Dispatch) : List Instruction → List Instruction → Checks → Prop
  | nil : Guards kinds [] [] []
  | keep {i : Instruction} {is js : List Instruction} {checks : Checks}
    (hi : i.guarded? kinds = none) (h : Guards kinds is js checks) :
    Guards kinds (i :: is) (i :: js) checks
  | check {call : Invocation} {checked object : Variable} {is js : List Instruction}
    {checks : Checks} (hkind : call.dispatch ∈ kinds) (hobject : call.object = some object)
    (h : Guards kinds is js checks) :
    Guards kinds (.invoke call :: is)
      (.nullCheck checked object :: .invoke { call with object := some checked } :: js)
      (checks ++ [(checked, object)])

theorem guarded_eq_some_iff {call : Invocation} {object : Variable} :
    i.guarded? kinds = some (call, object) ↔
      i = .invoke call ∧ call.dispatch ∈ kinds ∧ call.object = some object := by
  unfold Instruction.guarded?
  split
  · next call' =>
    simp only [Instruction.invoke.injEq]
    split
    · next hkind =>
      rw [Option.map_eq_some_iff]
      constructor
      · rintro ⟨object', hobject, heq⟩
        cases heq
        exact ⟨rfl, hkind, hobject⟩
      · rintro ⟨rfl, -, hobject⟩
        exact ⟨object, hobject, rfl⟩
    · next hkind =>
      constructor
      · intro h
        cases h
      · rintro ⟨rfl, hmem, -⟩
        exact absurd hmem hkind
  · next hother =>
    constructor
    · intro h
      cases h
    · rintro ⟨rfl, -, -⟩
      exact absurd rfl (hother call)

theorem guarded_nil (i : Instruction) : i.guarded? [] = none := by
  cases i <;> simp [Instruction.guarded?]

theorem guardInstructions_cons (kinds : List Dispatch) (i : Instruction) (is : List Instruction)
    (next : Nat) :
    guardInstructions kinds (i :: is) next =
      (guardInstructions kinds is next).bind fun done => guardInstruction kinds i done.1 done.2 :=
  rfl

/-- One check is added for every guarded call. -/
theorem exists_guardInstructions (kinds : List Dispatch) (is : List Instruction) {next : Nat}
    (hroom : HasRoom next (guardCount kinds is)) :
    ∃ js checks, guardInstructions kinds is next = .ok (js, next + checks.length) ∧
      Guards kinds is js checks ∧ checks.Numbered next ∧ checks.length = guardCount kinds is := by
  induction is with
  | nil => exact ⟨[], [], rfl, .nil, .nil next, rfl⟩
  | cons i is ih =>
    rw [guardCount, List.countP_cons, ← guardCount, hasRoom_add] at hroom
    obtain ⟨js, checks, hrest, hguards, hnumbered, hlength⟩ := ih hroom.1
    rw [guardInstructions_cons, hrest]
    show ∃ js' checks', guardInstruction kinds i js (next + checks.length) = _ ∧ _
    unfold guardInstruction
    cases hi : i.guarded? kinds with
    | none =>
      refine ⟨i :: js, checks, rfl, .keep hi hguards, hnumbered, ?_⟩
      simp [guardCount, hi, hlength]
    | some guarded =>
      obtain ⟨call, object⟩ := guarded
      obtain ⟨rfl, hkind, hobject⟩ := guarded_eq_some_iff.mp hi
      have hlimit : next + checks.length < indexLimit := by
        have hlast := hroom.2
        rw [hi, ← hlength] at hlast
        rcases hlast with hlast | hlast
        · cases hlast
        · exact hlast
      refine ⟨_, checks ++ [(⟨next + checks.length, hlimit⟩, object)], ?_,
        .check hkind hobject hguards, hnumbered.append (.singleton _ _), ?_⟩
      · simp only [Variable.ofIndex, dif_pos hlimit, List.length_append, List.length_singleton,
          ← Nat.add_assoc]
        rfl
      · simp [guardCount, hi, hlength]

theorem guardInstructions_eq_error (kinds : List Dispatch) (is : List Instruction) {next : Nat}
    (hroom : ¬ HasRoom next (guardCount kinds is)) :
    guardInstructions kinds is next = .error .variableTooLarge := by
  induction is with
  | nil => exact absurd (.inl rfl) hroom
  | cons i is ih =>
    rw [guardInstructions_cons]
    by_cases hrest : HasRoom next (guardCount kinds is)
    · obtain ⟨js, checks, heq, -, -, hlength⟩ := exists_guardInstructions kinds is hrest
      rw [heq]
      show guardInstruction kinds i js (next + checks.length) = _
      rw [guardCount, List.countP_cons, ← guardCount, hasRoom_add] at hroom
      have hlast := fun h => hroom ⟨hrest, h⟩
      unfold guardInstruction
      cases hi : i.guarded? kinds with
      | none => exact absurd (.inl (by simp [hi])) hlast
      | some guarded =>
        have hlimit : ¬ next + checks.length < indexLimit := fun hlt =>
          hlast (.inr (by rw [hi, ← hlength]; exact hlt))
        simp only [Variable.ofIndex, dif_neg hlimit]
        rfl
    · rw [ih hrest]
      rfl

/-- Where no kind is chosen nothing is guarded. -/
theorem Guards.of_nil (is : List Instruction) : Guards [] is is [] := by
  induction is with
  | nil => exact .nil
  | cons i is ih => exact .keep (guarded_nil i) ih

namespace Guards

variable (h : Guards kinds is js checks)

include h

/-- A guarded list names what the list names and the variables of the checks. -/
theorem mem_vars_iff : v ∈ js.flatMap Instruction.vars ↔
    v ∈ is.flatMap Instruction.vars ∨ ∃ object, (v, object) ∈ checks := by
  induction h with
  | nil => simp
  | keep _ _ ih => rw [List.flatMap_cons, List.flatMap_cons, List.mem_append, List.mem_append, ih,
      or_assoc]
  | @check call checked object is js checks _ hobject _ ih =>
    have hcheck : (Instruction.nullCheck checked object).vars = [checked, object] := rfl
    have hcall : ∀ call : Invocation, (Instruction.invoke call).vars =
        call.dest.toList ++ (call.arguments ++ call.object.toList) := fun _ => rfl
    simp only [List.flatMap_cons, hcheck, hcall, hobject, Option.toList_some, List.mem_append,
      List.mem_cons, List.not_mem_nil, or_false, ih, Prod.mk.injEq, exists_or, exists_and_left,
      exists_eq, and_true]
    constructor
    · rintro ((rfl | rfl) | (hdest | harg | rfl) | hold | hnew)
      · exact .inr (.inr rfl)
      · exact .inl (.inl (.inr (.inr rfl)))
      · exact .inl (.inl (.inl hdest))
      · exact .inl (.inl (.inr (.inl harg)))
      · exact .inr (.inr rfl)
      · exact .inl (.inr hold)
      · exact .inr (.inl hnew)
    · rintro (((hdest | harg | rfl) | hold) | hnew | rfl)
      · exact .inr (.inl (.inl hdest))
      · exact .inr (.inl (.inr (.inl harg)))
      · exact .inl (.inr rfl)
      · exact .inr (.inr (.inl hold))
      · exact .inr (.inr (.inr hnew))
      · exact .inl (.inl rfl)

theorem flatMap_targets : js.flatMap Instruction.targets = is.flatMap Instruction.targets := by
  induction h with
  | nil => rfl
  | keep _ _ ih => rw [List.flatMap_cons, List.flatMap_cons, ih]
  | check _ _ _ ih =>
    have hcheck : ∀ w v, (Instruction.nullCheck w v).targets = [] := fun _ _ => rfl
    have hcall : ∀ call, (Instruction.invoke call).targets = [] := fun _ => rfl
    simp only [List.flatMap_cons, hcheck, hcall, List.nil_append, ih]

/-- Without checks nothing has changed. -/
theorem eq_of_length_eq_zero (hlength : checks.length = 0) : js = is := by
  induction h with
  | nil => rfl
  | keep _ _ ih => rw [ih hlength]
  | check _ _ _ _ => simp at hlength

/-- Every check stands in the guarded list. -/
theorem nullCheck_mem (hmem : (w, v) ∈ checks) : .nullCheck w v ∈ js := by
  induction h with
  | nil => cases hmem
  | keep _ _ ih => exact List.mem_cons_of_mem _ (ih hmem)
  | check _ _ _ ih =>
    rcases List.mem_append.mp hmem with hmem | hmem
    · exact List.mem_cons_of_mem _ (List.mem_cons_of_mem _ (ih hmem))
    · cases List.mem_singleton.mp hmem
      exact List.mem_cons_self

end Guards

end Instructions

/-! ## Blocks -/

section Blocks

variable {kinds : List Dispatch} {b b' : Block} {bs bs' : List Block} {checks : Checks}

structure Block.Guards (kinds : List Dispatch) (b b' : Block) (checks : Checks) : Prop where
  label_eq : b'.label = b.label
  phis_eq : b'.phis = b.phis
  instructions : MethodFlow.Guards kinds b.instructions b'.instructions checks

namespace Block.Guards

variable {v : Variable} (h : b.Guards kinds b' checks)

include h

theorem mem_vars_iff : v ∈ b'.vars ↔ v ∈ b.vars ∨ ∃ object, (v, object) ∈ checks := by
  rw [vars, vars, List.mem_append, List.mem_append, h.phis_eq, h.instructions.mem_vars_iff,
    or_assoc]

theorem labels_eq : b'.labels = b.labels := by
  rw [labels, labels, h.phis_eq, h.instructions.flatMap_targets]

theorem eq_of_instructions {is : List Instruction} (his : b'.instructions = is) :
    b' = { b with instructions := is } := by
  obtain ⟨label, phis, instructions⟩ := b'
  cases h.label_eq
  cases h.phis_eq
  cases his
  rfl

theorem eq_of_length_eq_zero (hlength : checks.length = 0) : b' = b :=
  h.eq_of_instructions (h.instructions.eq_of_length_eq_zero hlength)

end Block.Guards

inductive GuardsBlocks (kinds : List Dispatch) : List Block → List Block → Checks → Prop
  | nil : GuardsBlocks kinds [] [] []
  | cons {b b' : Block} {bs bs' : List Block} {checks more : Checks}
    (hb : b.Guards kinds b' checks) (h : GuardsBlocks kinds bs bs' more) :
    GuardsBlocks kinds (b :: bs) (b' :: bs') (checks ++ more)

theorem GuardsBlocks.of_nil (bs : List Block) : GuardsBlocks [] bs bs [] := by
  induction bs with
  | nil => exact .nil
  | cons b bs ih => exact .cons ⟨rfl, rfl, .of_nil b.instructions⟩ ih

def guardCountBlocks (kinds : List Dispatch) (bs : List Block) : Nat :=
  guardCount kinds (bs.flatMap (·.instructions))

theorem guardCountBlocks_cons (kinds : List Dispatch) (b : Block) (bs : List Block) :
    guardCountBlocks kinds (b :: bs) =
      guardCount kinds b.instructions + guardCountBlocks kinds bs := by
  rw [guardCountBlocks, List.flatMap_cons, guardCount, List.countP_append]
  rfl

def guardBlock (kinds : List Dispatch) (done : Array Block × Nat) (b : Block) :
    Except Violation (Array Block × Nat) := do
  let (instructions, next) ← guardInstructions kinds b.instructions done.2
  return (done.1.push { b with instructions }, next)

theorem guardBlocks_eq_foldlM (kinds : List Dispatch) (bs : List Block) (next : Nat) :
    guardBlocks kinds bs next = bs.foldlM (guardBlock kinds) (#[], next) := rfl

theorem exists_foldlM_guardBlock (bs : List Block) (done : Array Block) {next : Nat}
    (hroom : HasRoom next (guardCountBlocks kinds bs)) :
    ∃ bs' checks, bs.foldlM (guardBlock kinds) (done, next) =
        .ok (done ++ bs'.toArray, next + checks.length) ∧
      GuardsBlocks kinds bs bs' checks ∧ checks.Numbered next ∧
      checks.length = guardCountBlocks kinds bs := by
  induction bs generalizing done next with
  | nil => exact ⟨[], [], by simp [pure, Except.pure], .nil, .nil next, rfl⟩
  | cons b bs ih =>
    rw [guardCountBlocks_cons, hasRoom_add] at hroom
    obtain ⟨js, checks, hfirst, hguards, hnumbered, hlength⟩ :=
      exists_guardInstructions kinds b.instructions hroom.1
    obtain ⟨bs', more, hrest, hmore, hnumberedMore, hlengthMore⟩ :=
      ih (done.push { b with instructions := js }) (hlength ▸ hroom.2)
    refine ⟨{ b with instructions := js } :: bs', checks ++ more, ?_,
      .cons ⟨rfl, rfl, hguards⟩ hmore, hnumbered.append hnumberedMore, ?_⟩
    · have hstep : guardBlock kinds (done, next) b =
          .ok (done.push { b with instructions := js }, next + checks.length) := by
        unfold guardBlock
        rw [hfirst]
        rfl
      rw [List.foldlM_cons, hstep]
      show bs.foldlM (guardBlock kinds) _ = _
      rw [hrest, List.length_append, Nat.add_assoc]
      simp
    · rw [List.length_append, hlength, hlengthMore, guardCountBlocks_cons]

theorem foldlM_guardBlock_eq_error (bs : List Block) (done : Array Block) {next : Nat}
    (hroom : ¬ HasRoom next (guardCountBlocks kinds bs)) :
    bs.foldlM (guardBlock kinds) (done, next) = .error .variableTooLarge := by
  induction bs generalizing done next with
  | nil => exact absurd (.inl rfl) hroom
  | cons b bs ih =>
    rw [guardCountBlocks_cons, hasRoom_add] at hroom
    rw [List.foldlM_cons, guardBlock]
    by_cases hfirst : HasRoom next (guardCount kinds b.instructions)
    · obtain ⟨js, checks, heq, -, -, hlength⟩ :=
        exists_guardInstructions kinds b.instructions hfirst
      rw [heq]
      exact ih _ (hlength ▸ fun hrest => hroom ⟨hfirst, hrest⟩)
    · rw [guardInstructions_eq_error kinds b.instructions hfirst]
      rfl

namespace GuardsBlocks

variable (h : GuardsBlocks kinds bs bs' checks)

include h

theorem length_eq : bs'.length = bs.length := by
  induction h with
  | nil => rfl
  | cons _ _ ih => rw [List.length_cons, List.length_cons, ih]

/-- What the checks leave alone in a block they leave alone in all of them. -/
theorem map_eq {α : Type} {f : Block → α}
    (hf : ∀ {b b' own}, b.Guards kinds b' own → f b' = f b) : bs'.map f = bs.map f := by
  induction h with
  | nil => rfl
  | cons hb _ ih => rw [List.map_cons, List.map_cons, hf hb, ih]

theorem eq_of_length_eq_zero (hlength : checks.length = 0) : bs' = bs := by
  induction h with
  | nil => rfl
  | cons hb _ ih =>
    rw [List.length_append, Nat.add_eq_zero_iff] at hlength
    rw [hb.eq_of_length_eq_zero hlength.1, ih hlength.2]

/-- Every block comes from one of the program. -/
theorem exists_of_mem (hb' : b' ∈ bs') :
    ∃ b ∈ bs, ∃ own : Checks, own ⊆ checks ∧ b.Guards kinds b' own := by
  induction h with
  | nil => cases hb'
  | @cons c c' bs bs' own more hb _ ih =>
    rcases List.mem_cons.mp hb' with rfl | hb'
    · exact ⟨c, List.mem_cons_self, own, List.subset_append_left _ _, hb⟩
    · obtain ⟨b, hmem, own', hown, hguards⟩ := ih hb'
      exact ⟨b, List.mem_cons_of_mem _ hmem, own', List.subset_append_of_subset_right _ hown,
        hguards⟩

/-- Every block of the program is there. -/
theorem exists_mem (hb : b ∈ bs) :
    ∃ b' ∈ bs', ∃ own : Checks, own ⊆ checks ∧ b.Guards kinds b' own := by
  induction h with
  | nil => cases hb
  | @cons c c' bs bs' own more hc _ ih =>
    rcases List.mem_cons.mp hb with rfl | hb
    · exact ⟨c', List.mem_cons_self, own, List.subset_append_left _ _, hc⟩
    · obtain ⟨b', hmem, own', hown, hguards⟩ := ih hb
      exact ⟨b', List.mem_cons_of_mem _ hmem, own', List.subset_append_of_subset_right _ hown,
        hguards⟩

/-- Every check stands in one of the blocks. -/
theorem nullCheck_mem {w v : Variable} (hmem : (w, v) ∈ checks) :
    ∃ b' ∈ bs', .nullCheck w v ∈ b'.instructions := by
  induction h with
  | nil => cases hmem
  | @cons b b' bs bs' own more hb _ ih =>
    rcases List.mem_append.mp hmem with hmem | hmem
    · exact ⟨b', List.mem_cons_self, hb.instructions.nullCheck_mem hmem⟩
    · obtain ⟨c, hc, hcheck⟩ := ih hmem
      exact ⟨c, List.mem_cons_of_mem _ hc, hcheck⟩

end GuardsBlocks

end Blocks

/-! ## Programs -/

namespace Program

variable {p q : Program} {kinds : List Dispatch} {checks : Checks}

def guardCount (p : Program) (kinds : List Dispatch) : Nat := guardCountBlocks kinds p.blocks.toList

/-- A program with so many more variables, which nothing names. -/
def grow (p : Program) (count : Nat) : Program :=
  { p with infos := p.infos ++ .replicate count ⟨none⟩ }

@[simp] theorem variableCount_grow (p : Program) (count : Nat) :
    (p.grow count).variableCount = p.variableCount + count := by
  simp [grow, variableCount]

structure Inserts (p : Program) (kinds : List Dispatch) (q : Program) (checks : Checks) :
    Prop where
  blocks : GuardsBlocks kinds p.blocks.toList q.blocks.toList checks
  infos_eq : q.infos = p.infos ++ .replicate checks.length ⟨none⟩
  numbered : checks.Numbered p.variableCount

def objectCalls (p : Program) (kinds : List Dispatch) : List Invocation :=
  (p.blocks.toList.flatMap (·.instructions)).filterMap fun
    | .invoke call => if call.object.isSome ∧ call.dispatch ∈ kinds then some call else none
    | _ => none

theorem guardCount_eq_length (p : Program) (kinds : List Dispatch) :
    p.guardCount kinds = (p.objectCalls kinds).length := by
  rw [objectCalls, List.length_filterMap_eq_countP]
  refine List.countP_congr fun i _ => ?_
  cases i with
  | invoke call => cases hobject : call.object <;> simp [Instruction.guarded?, hobject]
  | _ => rfl

theorem guardCount_nil (p : Program) : p.guardCount [] = 0 := by
  simp [guardCount, guardCountBlocks, MethodFlow.guardCount, guarded_nil]

theorem Inserts.of_nil (p : Program) : p.Inserts [] p [] where
  blocks := .of_nil p.blocks.toList
  infos_eq := by simp
  numbered := .nil p.variableCount

theorem exists_insertNullChecks (hroom : HasRoom p.variableCount (p.guardCount kinds)) :
    ∃ q checks, p.insertNullChecks kinds = .ok (p.guardCount kinds, q) ∧
      p.Inserts kinds q checks ∧ checks.length = p.guardCount kinds := by
  obtain ⟨bs', checks, heq, hguards, hnumbered, hlength⟩ :=
    exists_foldlM_guardBlock p.blocks.toList #[] hroom
  refine ⟨⟨bs'.toArray, p.infos ++ .replicate checks.length ⟨none⟩⟩, checks, ?_,
    ⟨hguards, rfl, hnumbered⟩, hlength⟩
  unfold insertNullChecks
  rw [guardBlocks_eq_foldlM, heq, guardCount, ← hlength]
  show Except.ok (p.variableCount + checks.length - p.variableCount, _) = _
  simp only [Nat.add_sub_cancel_left, Array.empty_append]

theorem insertNullChecks_eq_error (hroom : ¬ HasRoom p.variableCount (p.guardCount kinds)) :
    p.insertNullChecks kinds = .error .variableTooLarge := by
  unfold insertNullChecks
  rw [guardBlocks_eq_foldlM, foldlM_guardBlock_eq_error p.blocks.toList #[] hroom]
  rfl

namespace Inserts

variable (h : p.Inserts kinds q checks)

include h

theorem variableCount_eq : q.variableCount = p.variableCount + checks.length := by
  rw [variableCount, h.infos_eq, Array.size_append, Array.size_replicate]
  rfl

theorem blockCount_eq : q.blockCount = p.blockCount := by
  have hlength := h.blocks.length_eq
  rwa [Array.length_toList, Array.length_toList] at hlength

theorem eq_of_length_eq_zero (hlength : checks.length = 0) : q = p := by
  have hblocks := h.blocks.eq_of_length_eq_zero hlength
  have hinfos := h.infos_eq
  rw [hlength, Array.replicate_zero, Array.append_empty] at hinfos
  obtain ⟨blocks, infos⟩ := p
  obtain ⟨blocks', infos'⟩ := q
  cases Array.toList_inj.mp hblocks
  cases hinfos
  rfl

/-- The operands are in range exactly if they are in the table that has grown. -/
theorem inRange_iff : q.InRange ↔ (p.grow checks.length).InRange := by
  have hblocks : (p.grow checks.length).blockCount = q.blockCount := h.blockCount_eq.symm
  rw [inRange_iff_blocks, inRange_iff_blocks, variableCount_grow, ← h.variableCount_eq, hblocks]
  constructor
  · intro hin b hb
    obtain ⟨b', hb', own, -, hguards⟩ := h.blocks.exists_mem (Array.mem_toList_iff.mpr hb)
    obtain ⟨hvars, hlabels⟩ := hin b' (Array.mem_toList_iff.mp hb')
    exact ⟨fun v hv => hvars v (hguards.mem_vars_iff.mpr (.inl hv)),
      hguards.labels_eq ▸ hlabels⟩
  · intro hin b' hb'
    obtain ⟨b, hb, own, hown, hguards⟩ := h.blocks.exists_of_mem (Array.mem_toList_iff.mpr hb')
    obtain ⟨hvars, hlabels⟩ := hin b (Array.mem_toList_iff.mp hb)
    refine ⟨fun v hv => ?_, hguards.labels_eq.symm ▸ hlabels⟩
    rcases hguards.mem_vars_iff.mp hv with hold | ⟨object, hnew⟩
    · exact hvars v hold
    · rw [h.variableCount_eq]
      exact (h.numbered.index_bounds (hown hnew)).2

end Inserts

end Program

end MethodFlow
