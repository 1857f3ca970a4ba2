import MethodFlow.Proofs.Escape.Exactness
import Mathlib.Data.List.Permutation
import Mathlib.Logic.Function.Basic
/-!
# Objects that are returned

Straight-line code runs on a heap of objects, and the object that it returns was built in some
variable.  Whether the analysis reports that variable:

* `Heap.Traced.run`: a reference that was not loaded from a field is a copy of the variable that
  its object was built in;
* `reports_iff_reached`: the variable is reported exactly if it is linked to the one returned, or
  to a cycle, and it is reported whenever the reference returned was not loaded.
-/

namespace MethodFlow

open Relation

/-! ## Running straight-line code -/

/-- The references that a run holds.  Objects are numbered in the order they are built. -/
structure Heap where
  locals : Variable → Option Nat
  fields : Nat → FieldRef → Option Nat
  /-- For each object, the variable that it was built in. -/
  built : List Variable
  /-- Whether the reference of a variable came out of a field; no run depends on it. -/
  loaded : Variable → Bool

namespace Heap

def empty : Heap := ⟨fun _ => none, fun _ _ => none, [], fun _ => false⟩

def assign (heap : Heap) (dest : Variable) (object : Option Nat) (loaded : Bool) : Heap :=
  { heap with
    locals := Function.update heap.locals dest object
    loaded := Function.update heap.loaded dest loaded }

def construct (heap : Heap) (dest : Variable) : Heap :=
  { heap.assign dest (some heap.built.length) false with built := heap.built ++ [dest] }

def copy (heap : Heap) (dest source : Variable) : Heap :=
  heap.assign dest (heap.locals source) (heap.loaded source)

def store (heap : Heap) (object : Nat) (field : FieldRef) (value : Variable) : Heap :=
  { heap with
    fields := Function.update heap.fields object
      (Function.update (heap.fields object) field (heap.locals value)) }

/-- One instruction; a field of no object stops the run, and so does any other instruction. -/
def step (heap : Heap) : Instruction → Option Heap
  | .construct dest _ => some (heap.construct dest)
  | .assign dest source => some (heap.copy dest source)
  | .cast dest source _ => some (heap.copy dest source)
  | .nullCheck dest value => some (heap.copy dest value)
  | .putField (some object) value field _ => do
    let o ← heap.locals object
    return heap.store o field value
  | .getField dest (some object) field _ => do
    let o ← heap.locals object
    return heap.assign dest (heap.fields o field) true
  | _ => none

def run (heap : Heap) (body : List Instruction) : Option Heap := body.foldlM step heap

inductive Steps (heap : Heap) : Instruction → Heap → Prop
  | construct (dest : Variable) (className : String) :
    Steps heap (.construct dest className) (heap.construct dest)
  | copy {i : Instruction} {dest source : Variable} (hcopy : i.Copies dest source) :
    Steps heap i (heap.copy dest source)
  | store {object : Variable} {o : Nat} (value : Variable) (field : FieldRef) (type : String)
    (hobject : heap.locals object = some o) :
    Steps heap (.putField (some object) value field type) (heap.store o field value)
  | load {object : Variable} {o : Nat} (dest : Variable) (field : FieldRef) (type : String)
    (hobject : heap.locals object = some o) :
    Steps heap (.getField dest (some object) field type)
      (heap.assign dest (heap.fields o field) true)

variable {heap heap' : Heap} {i : Instruction} {body : List Instruction} {u v : Variable}

theorem steps_of_step (h : heap.step i = some heap') : heap.Steps i heap' := by
  unfold step at h
  split at h
  · cases h
    exact .construct _ _
  · cases h
    exact .copy (.assign _ _)
  · cases h
    exact .copy (.cast _ _ _)
  · cases h
    exact .copy (.nullCheck _ _)
  · obtain ⟨o, hobject, hheap⟩ := Option.bind_eq_some_iff.mp h
    cases hheap
    exact .store _ _ _ hobject
  · obtain ⟨o, hobject, hheap⟩ := Option.bind_eq_some_iff.mp h
    cases hheap
    exact .load _ _ _ hobject
  · cases h

theorem run_cons_eq_some_iff :
    heap.run (i :: body) = some heap' ↔
      ∃ middle, heap.step i = some middle ∧ middle.run body = some heap' := by
  unfold run
  rw [List.foldlM_cons]
  exact Option.bind_eq_some_iff

/-! ## What a run says of its instructions -/

theorem Steps.not_releases (h : heap.Steps i heap') (v : Variable) : ¬i.Releases v := by
  intro hreleases
  cases h with
  | copy hcopy => cases hcopy <;> cases hreleases
  | _ => cases hreleases

theorem not_releases_of_run (h : heap.run body = some heap') :
    ∀ i ∈ body, ∀ v, ¬i.Releases v := by
  induction body generalizing heap with
  | nil => simp
  | cons i body ih =>
    obtain ⟨middle, hstep, hrun⟩ := run_cons_eq_some_iff.mp h
    intro j hj
    rcases List.mem_cons.mp hj with rfl | hj
    · exact (steps_of_step hstep).not_releases
    · exact ih hrun j hj

theorem Steps.mem_built (h : heap.Steps i heap') (hv : v ∈ heap'.built) :
    v ∈ heap.built ∨ v ∈ i.vars := by
  cases h with
  | construct dest className =>
    rcases List.mem_append.mp hv with hv | hv
    · exact .inl hv
    · exact .inr (List.mem_append_left _ hv)
  | _ => exact .inl hv

/-- Objects are built in variables that the code names. -/
theorem mem_built_of_run (h : heap.run body = some heap') (hv : v ∈ heap'.built) :
    v ∈ heap.built ∨ ∃ i ∈ body, v ∈ i.vars := by
  induction body generalizing heap with
  | nil =>
    cases h
    exact .inl hv
  | cons i body ih =>
    obtain ⟨middle, hstep, hrun⟩ := run_cons_eq_some_iff.mp h
    rcases ih hrun with hmiddle | ⟨j, hj, hvar⟩
    · rcases (steps_of_step hstep).mem_built hmiddle with hbuilt | hvar
      · exact .inl hbuilt
      · exact .inr ⟨i, List.mem_cons_self, hvar⟩
    · exact .inr ⟨j, List.mem_cons_of_mem _ hj, hvar⟩

/-! ## References that no field gave -/

/-- Every reference that was not loaded is a copy of the one its object was built with. -/
def Traced (copies : Variable → Variable → Prop) (heap : Heap) : Prop :=
  ∀ x o, heap.locals x = some o → heap.loaded x = false →
    ∃ v, heap.built[o]? = some v ∧ EqvGen copies v x

variable {copies : Variable → Variable → Prop}

theorem traced_empty : Traced copies empty := by
  intro x o hlocal
  cases hlocal

/-- A variable gets a reference that is traced, or that was loaded. -/
theorem Traced.assign (h : heap.Traced copies) {dest : Variable} {object : Option Nat}
    {loaded : Bool} (hdest : ∀ o, object = some o → loaded = false →
      ∃ v, heap.built[o]? = some v ∧ EqvGen copies v dest) :
    (heap.assign dest object loaded).Traced copies := by
  intro x o hlocal hloaded
  unfold Heap.assign at *
  by_cases hx : x = dest
  · subst hx
    simp only [Function.update_self] at hlocal hloaded
    exact hdest o hlocal hloaded
  · simp only [Function.update_of_ne hx] at hlocal hloaded
    exact h x o hlocal hloaded

theorem Traced.construct (h : heap.Traced copies) (dest : Variable) :
    (heap.construct dest).Traced copies := by
  have hbefore : ({ heap with built := heap.built ++ [dest] } : Heap).Traced copies := by
    intro x o hlocal hloaded
    obtain ⟨v, hbuilt, hcopies⟩ := h x o hlocal hloaded
    exact ⟨v, List.getElem?_append_left (List.getElem?_eq_some_iff.mp hbuilt).1 ▸ hbuilt, hcopies⟩
  apply hbefore.assign
  intro o ho _
  cases ho
  exact ⟨dest, List.getElem?_concat_length, .refl dest⟩

theorem Traced.copy (h : heap.Traced copies) {dest source : Variable}
    (hcopy : copies dest source) : (heap.copy dest source).Traced copies := by
  apply h.assign
  intro o hlocal hloaded
  obtain ⟨v, hbuilt, hcopies⟩ := h source o hlocal hloaded
  exact ⟨v, hbuilt, hcopies.trans _ _ _ (.symm _ _ (.rel _ _ hcopy))⟩

theorem Traced.step (h : heap.Traced copies) (hcopies : ∀ u v, i.Copies u v → copies u v)
    (hstep : heap.step i = some heap') : heap'.Traced copies := by
  cases steps_of_step hstep with
  | construct dest className => exact h.construct dest
  | copy hcopy => exact h.copy (hcopies _ _ hcopy)
  | store value field type hobject => exact h
  | load dest field type hobject =>
    apply h.assign
    intro o _ hloaded
    cases hloaded

theorem Traced.run (h : heap.Traced copies)
    (hcopies : ∀ i ∈ body, ∀ u v, i.Copies u v → copies u v)
    (hrun : heap.run body = some heap') : heap'.Traced copies := by
  induction body generalizing heap with
  | nil =>
    cases hrun
    exact h
  | cons i body ih =>
    obtain ⟨middle, hstep, hrest⟩ := run_cons_eq_some_iff.mp hrun
    have hmiddle : middle.Traced copies := h.step (hcopies i List.mem_cons_self) hstep
    exact ih hmiddle (fun j hj => hcopies j (List.mem_cons_of_mem _ hj)) hrest

end Heap

/-! ## What is reported -/

namespace Program

variable {p : Program} {body : List Instruction} {v w : Variable} {heap : Heap} {o : Nat}

/-- However the program is analyzed, the variable escapes and is no candidate. -/
def Reports (p : Program) (v : Variable) : Prop :=
  ∀ parameterCount config, p.Passes config →
    ∃ facts, EscapeFacts.analyze p parameterCount config = .ok facts ∧
      facts.escapes v = .ok true ∧ v.index ∉ facts.candidates

/-- The program is straight-line code, and returns a variable at its end. -/
def StraightLine (p : Program) (body : List Instruction) (w : Variable) : Prop :=
  ∃ label, p.blocks = #[⟨label, [], body ++ [.exit (some w)]⟩]

/-- A variable is reported however many parameters there are exactly if it is when there are
none. -/
theorem reports_iff_path (h : p.verifyOperands = .ok ()) (hv : v.index < p.variableCount) :
    p.Reports v ↔
      ∃ u, (p.flow.Released u ∨ p.flow.OnCycle u) ∧ ReflTransGen p.flow.Link u v := by
  constructor
  · intro hreports
    have hpass : p.Passes ⟨true, false, false⟩ := h
    obtain ⟨facts, hfacts, hescapes, -⟩ := hreports 0 ⟨true, false, false⟩ hpass
    rw [analyze_eq_of_passes hpass] at hfacts
    cases hfacts
    obtain ⟨b, hb, hiff⟩ := exists_escapes_of_passes hpass 0 hv
    rw [hescapes] at hb
    cases hb
    obtain ⟨u, hslot | hstart, hpath⟩ := ObjectFlow.exposed_iff_path _ |>.mp (hiff.mp rfl)
    · obtain ⟨-, hfirst, hlast⟩ := hslot
      have hone : 1 ≤ u.index := hfirst
      omega
    · exact ⟨u, hstart, hpath⟩
  · rintro ⟨u, hstart, hpath⟩ parameterCount config hpass
    obtain ⟨b, hb, hiff⟩ := exists_escapes_of_passes hpass parameterCount hv
    have hexposed := (ObjectFlow.exposed_iff_path p.flow).mpr
      ⟨u, Or.inr (a := p.IsSlot parameterCount config.markReceiver u) hstart, hpath⟩
    rw [hiff.mpr hexposed] at hb
    exact ⟨_, analyze_eq_of_passes hpass _, hb, EscapeFacts.not_mem_candidates hb⟩

namespace StraightLine

variable (hp : p.StraightLine body w)

include hp

theorem mem_instructions_iff {i : Instruction} :
    (∃ b ∈ p.blocks, i ∈ b.instructions) ↔ i ∈ body ∨ i = .exit (some w) := by
  obtain ⟨label, hblocks⟩ := hp
  simp [hblocks]

theorem copies_of_copies {i : Instruction} (hi : i ∈ body) {u v : Variable} (h : i.Copies u v) :
    p.flow.Copies u v := by
  obtain ⟨b, hb, hmem⟩ := hp.mem_instructions_iff.mpr (.inl hi)
  exact .instruction hb hmem h

theorem lt_variableCount (hok : p.verifyOperands = .ok ()) {i : Instruction} (hi : i ∈ body)
    (hv : v ∈ i.vars) : v.index < p.variableCount := by
  obtain ⟨b, hb, hmem⟩ := hp.mem_instructions_iff.mpr (.inl hi)
  exact (verifyOperands_eq_ok_iff.mp hok).variable_lt b hb i hmem v hv

/-- Code that runs lets out nothing but what it returns. -/
theorem released_iff (hrun : Heap.empty.run body = some heap) {u : Variable} :
    p.flow.Released u ↔ u = w := by
  constructor
  · rintro ⟨b, hb, i, hi, hreleases⟩
    rcases hp.mem_instructions_iff.mp ⟨b, hb, hi⟩ with hi | rfl
    · exact absurd hreleases (Heap.not_releases_of_run hrun i hi u)
    · cases hreleases
      rfl
  · rintro rfl
    obtain ⟨b, hb, hi⟩ := hp.mem_instructions_iff.mpr (.inr rfl)
    exact ⟨b, hb, _, hi, .exit _⟩

theorem traced (hrun : Heap.empty.run body = some heap) : heap.Traced p.flow.Copies :=
  Heap.traced_empty.run (fun _ hi _ _ => hp.copies_of_copies hi) hrun

end StraightLine

theorem reports_iff_reached (hp : p.StraightLine body w) (hok : p.verifyOperands = .ok ())
    (hrun : Heap.empty.run body = some heap) (hreturn : heap.locals w = some o)
    (hbuilt : heap.built[o]? = some v) :
    (p.Reports v ↔ ∃ u, (u = w ∨ p.flow.OnCycle u) ∧ ReflTransGen p.flow.Link u v) ∧
      (heap.loaded w = false → p.Reports v) := by
  have hv : v.index < p.variableCount := by
    rcases Heap.mem_built_of_run hrun (List.mem_of_getElem? hbuilt) with hempty | ⟨i, hi, hvar⟩
    · cases hempty
    · exact hp.lt_variableCount hok hi hvar
  have hreports : p.Reports v ↔
      ∃ u, (u = w ∨ p.flow.OnCycle u) ∧ ReflTransGen p.flow.Link u v := by
    simp only [reports_iff_path hok hv, hp.released_iff hrun]
  refine ⟨hreports, ?_⟩
  intro hloaded
  obtain ⟨site, hsite, hcopies⟩ := hp.traced hrun w o hreturn hloaded
  rw [hbuilt] at hsite
  cases hsite
  exact hreports.mpr ⟨w, .inl rfl, ObjectFlow.path_of_eqvGen (hcopies.symm _ _)⟩

def copiedBody : List Instruction := [.construct 1 "Box", .assign 2 1]

/-- A copy of the reference to a new object is returned. -/
def copied : Program := ⟨#[⟨0, [], copiedBody ++ [.exit (some 2)]⟩], .replicate 3 ⟨none⟩⟩

theorem copied_reported :
    copied.StraightLine copiedBody 2 ∧ copied.verifyOperands = .ok () ∧
      (∃ heap, Heap.empty.run copiedBody = some heap ∧ heap.locals 2 = some 0 ∧
        heap.built[0]? = some 1) ∧
      copied.Reports 1 := by
  have hp : copied.StraightLine copiedBody 2 := ⟨_, rfl⟩
  have hok : copied.verifyOperands = .ok () := rfl
  have hrun : Heap.empty.run copiedBody = some ((Heap.empty.construct 1).copy 2 1) := rfl
  have hreports := reports_iff_reached (o := 0) (v := 1) hp hok hrun rfl rfl
  exact ⟨hp, hok, ⟨_, hrun, rfl, rfl⟩, hreports.2 rfl⟩

def storedBody : List Instruction := [
  .construct 1 "Box",
  .construct 2 "Box",
  .putField (some 1) 2 ⟨"Box", "item"⟩ "LBox;",
  .getField 3 (some 1) ⟨"Box", "item"⟩ "LBox;"]

/-- A new object is put in a field of another, and what is loaded from there is returned. -/
def stored : Program := ⟨#[⟨0, [], storedBody ++ [.exit (some 3)]⟩], .replicate 4 ⟨none⟩⟩

/-- The object that is returned was built in a variable that is not reported. -/
theorem stored_not_reported :
    stored.StraightLine storedBody 3 ∧ stored.verifyOperands = .ok () ∧
      (∃ heap, Heap.empty.run storedBody = some heap ∧ heap.locals 3 = some 1 ∧
        heap.built[1]? = some 2) ∧
      ∃ facts, EscapeFacts.analyze stored 0 ⟨true, false, true⟩ = .ok facts ∧
        facts.escapes 2 = .ok false ∧ facts.candidates = [1, 2] := by
  have hpass : stored.Passes ⟨true, false, true⟩ := rfl
  refine ⟨⟨_, rfl⟩, rfl, ⟨_, rfl, rfl, rfl⟩, _, analyze_eq_of_passes hpass 0, ?_, ?_⟩
  · cbv
  · cbv

end Program

end MethodFlow
