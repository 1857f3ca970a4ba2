import MethodFlow.Escape.Fact
import Mathlib.Logic.Relation
/-!
# How objects flow

Which variables can share an object, and which objects can be seen outside, said of the
instructions themselves.  The facts of a program say the same:

* `flow_facts`: the flow of the facts of a program is the flow of the program.
-/

namespace MethodFlow

open Relation

structure ObjectFlow where
  /-- Both variables hold the same object. -/
  Copies : Variable → Variable → Prop
  /-- A field of the first object may hold the second. -/
  Holds : Variable → Variable → Prop
  /-- The object can be seen outside the method. -/
  Released : Variable → Prop

namespace ObjectFlow

variable (F : ObjectFlow)

/-- Where the object of one variable is seen, that of the other may be: a copy in either
direction, or a field. -/
def Link (u v : Variable) : Prop := F.Copies u v ∨ F.Copies v u ∨ F.Holds u v

/-- The variable lies on a closed chain of links, at least one of which is a field. -/
def OnCycle (v : Variable) : Prop :=
  ∃ a b, ReflTransGen F.Link v a ∧ F.Holds a b ∧ ReflTransGen F.Link b v

/-- The variables whose objects may be seen outside: the slots of the parameters, what is
released, what lies on a cycle, and whatever is linked to one of these. -/
inductive Exposed (slot : Variable → Prop) : Variable → Prop
  | slot {v : Variable} (hv : slot v) : Exposed slot v
  | released {v : Variable} (hv : F.Released v) : Exposed slot v
  | cyclic {v : Variable} (hv : F.OnCycle v) : Exposed slot v
  | link {u v : Variable} (hu : Exposed slot u) (huv : F.Link u v) : Exposed slot v

theorem exposed_of_path {slot : Variable → Prop} {u v : Variable} (hu : F.Exposed slot u)
    (hpath : ReflTransGen F.Link u v) : F.Exposed slot v := by
  induction hpath with
  | refl => exact hu
  | tail _ hlink ih => exact .link ih hlink

theorem exposed_iff_path {slot : Variable → Prop} {v : Variable} :
    F.Exposed slot v ↔
      ∃ u, (slot u ∨ F.Released u ∨ F.OnCycle u) ∧ ReflTransGen F.Link u v := by
  constructor
  · intro h
    induction h with
    | slot hslot => exact ⟨_, .inl hslot, .refl⟩
    | released hreleased => exact ⟨_, .inr (.inl hreleased), .refl⟩
    | cyclic hcycle => exact ⟨_, .inr (.inr hcycle), .refl⟩
    | link _ hlink ih =>
      obtain ⟨u, hu, hpath⟩ := ih
      exact ⟨u, hu, hpath.tail hlink⟩
  · rintro ⟨u, hslot | hreleased | hcycle, hpath⟩
    · exact exposed_of_path F (.slot hslot) hpath
    · exact exposed_of_path F (.released hreleased) hpath
    · exact exposed_of_path F (.cyclic hcycle) hpath

end ObjectFlow

/-! ## Instructions -/

namespace Instruction

/-- The instruction gives the first variable the object of the second. -/
inductive Copies : Instruction → Variable → Variable → Prop
  | assign (dest source : Variable) : Copies (.assign dest source) dest source
  | cast (dest source : Variable) (type : String) : Copies (.cast dest source type) dest source
  | nullCheck (dest value : Variable) : Copies (.nullCheck dest value) dest value

/-- The instruction moves the second object in or out of a field of the first. -/
inductive Holds : Instruction → Variable → Variable → Prop
  | getField (dest object : Variable) (field : FieldRef) (type : String) :
    Holds (.getField dest (some object) field type) object dest
  | putField (object value : Variable) (field : FieldRef) (type : String) :
    Holds (.putField (some object) value field type) object value

/-- The instruction lets the object out of the method, or takes it from outside. -/
inductive Releases : Instruction → Variable → Prop
  | exit (value : Variable) : Releases (.exit (some value)) value
  | raise (exception : Variable) : Releases (.raise exception) exception
  | getStatic (dest : Variable) (field : FieldRef) (type : String) :
    Releases (.getField dest none field type) dest
  | putStatic (value : Variable) (field : FieldRef) (type : String) :
    Releases (.putField none value field type) value
  | getElementArray (dest array index : Variable) (type : ElementType) :
    Releases (.getElement dest array index type) array
  | getElementDest (dest array index : Variable) (type : ElementType) :
    Releases (.getElement dest array index type) dest
  | putElementArray (array index value : Variable) (type : ElementType) :
    Releases (.putElement array index value type) array
  | putElementIndex (array index value : Variable) (type : ElementType) :
    Releases (.putElement array index value type) index
  | putElementValue (array index value : Variable) (type : ElementType) :
    Releases (.putElement array index value type) value
  | isInstance (dest value : Variable) (type : String) :
    Releases (.isInstance dest value type) value
  | callObject (call : Invocation) (v : Variable) (hv : call.object = some v) :
    Releases (.invoke call) v
  | callArgument (call : Invocation) (v : Variable) (hv : v ∈ call.arguments) :
    Releases (.invoke call) v
  | callDest (call : Invocation) (v : Variable) (hv : call.dest = some v) :
    Releases (.invoke call) v
  | dynamicObject (call : DynamicInvocation) (v : Variable) (hv : call.object = some v) :
    Releases (.invokeDynamic call) v
  | dynamicArgument (call : DynamicInvocation) (v : Variable) (hv : v ∈ call.arguments) :
    Releases (.invokeDynamic call) v
  | dynamicDest (call : DynamicInvocation) (v : Variable) (hv : call.dest = some v) :
    Releases (.invokeDynamic call) v
  | monitorEnter (object : Variable) : Releases (.monitorEnter object) object
  | monitorExit (object : Variable) : Releases (.monitorExit object) object

end Instruction

/-! ## Programs -/

namespace Program

variable (p : Program)

/-- A phi or an instruction gives the first variable the object of the second. -/
inductive Copies : Variable → Variable → Prop
  | phi {b : Block} {phi : Phi} {i : Incoming} (hb : b ∈ p.blocks) (hphi : phi ∈ b.phis)
    (hi : i ∈ phi.incomings) : Copies phi.dest i.value
  | instruction {b : Block} {i : Instruction} {dest source : Variable} (hb : b ∈ p.blocks)
    (hi : i ∈ b.instructions) (hcopy : i.Copies dest source) : Copies dest source

def flow : ObjectFlow where
  Copies := p.Copies
  Holds object value := ∃ b ∈ p.blocks, ∃ i ∈ b.instructions, i.Holds object value
  Released v := ∃ b ∈ p.blocks, ∃ i ∈ b.instructions, i.Releases v

end Program

/-! ## Facts -/

namespace Fact

variable {facts : List Fact} {object value u v w : Variable}

def flow (facts : List Fact) : ObjectFlow where
  Copies u v := .copy u v ∈ facts
  Holds u v := .holds u v ∈ facts
  Released v := .escapes v ∈ facts

/-- A selection that gives `a` for one fact only gives it exactly if the fact is there. -/
theorem mem_filterMap_iff {α : Type} {select : Fact → Option α} {a : α} {fact : Fact}
    (h : ∀ f, select f = some a ↔ f = fact) : a ∈ facts.filterMap select ↔ fact ∈ facts := by
  simp only [List.mem_filterMap, h, exists_eq_right]

theorem mem_copies : (u, v) ∈ copies facts ↔ (flow facts).Copies u v :=
  mem_filterMap_iff fun f => by cases f <;> simp

theorem mem_fieldEdges : (u, v) ∈ fieldEdges facts ↔ (flow facts).Holds u v :=
  mem_filterMap_iff fun f => by cases f <;> simp

theorem mem_escapees : v ∈ escapees facts ↔ (flow facts).Released v :=
  mem_filterMap_iff fun f => by cases f <;> simp

theorem mem_allocations : v ∈ allocations facts ↔ .allocates v ∈ facts :=
  mem_filterMap_iff fun f => by cases f <;> simp

/-! ### The facts of an instruction -/

theorem copy_eq_fieldAccess {object : Option Variable} :
    .copy u v = fieldAccess object value ↔ False := by
  cases object <;> simp [fieldAccess]

theorem holds_eq_fieldAccess {object : Option Variable} :
    .holds u v = fieldAccess object value ↔ object = some u ∧ v = value := by
  cases object <;> simp [fieldAccess, eq_comm]

theorem escapes_eq_fieldAccess {object : Option Variable} :
    .escapes v = fieldAccess object value ↔ object = none ∧ v = value := by
  cases object <;> simp [fieldAccess]

theorem escapes_mem_call {object dest : Option Variable} {arguments : List Variable} :
    .escapes v ∈ call object arguments dest ↔
      object = some v ∨ v ∈ arguments ∨ dest = some v := by
  simp [call]

theorem copy_mem_facts {i : Instruction} : .copy u v ∈ i.facts ↔ i.Copies u v := by
  constructor
  · intro h
    cases i <;> simp [Instruction.facts, call, copy_eq_fieldAccess] at h <;>
      (obtain ⟨rfl, rfl⟩ := h; constructor)
  · intro h
    cases h <;> simp [Instruction.facts]

theorem holds_mem_facts {i : Instruction} : .holds u v ∈ i.facts ↔ i.Holds u v := by
  constructor
  · intro h
    cases i <;> simp [Instruction.facts, call, holds_eq_fieldAccess] at h <;>
      (obtain ⟨rfl, rfl⟩ := h; constructor)
  · intro h
    cases h <;> simp [Instruction.facts, fieldAccess]

theorem escapes_mem_facts {i : Instruction} : .escapes v ∈ i.facts ↔ i.Releases v := by
  constructor
  · intro h
    cases i <;> simp [Instruction.facts, escapes_mem_call, escapes_eq_fieldAccess] at h
    case exit => subst h; constructor
    case raise => subst h; constructor
    case getField => obtain ⟨rfl, rfl⟩ := h; constructor
    case putField => obtain ⟨rfl, rfl⟩ := h; constructor
    case getElement => rcases h with rfl | rfl <;> constructor
    case putElement => rcases h with rfl | rfl | rfl <;> constructor
    case isInstance => subst h; constructor
    case invoke call =>
      rcases h with h | h | h
      · exact .callObject call v h
      · exact .callArgument call v h
      · exact .callDest call v h
    case invokeDynamic call =>
      rcases h with h | h | h
      · exact .dynamicObject call v h
      · exact .dynamicArgument call v h
      · exact .dynamicDest call v h
    case monitorEnter => subst h; constructor
    case monitorExit => subst h; constructor
  · intro h
    cases h <;> simp_all [Instruction.facts, escapes_mem_call, fieldAccess]

/-! ### The facts of a program -/

theorem mem_facts {p : Program} {fact : Fact} : fact ∈ p.facts ↔
    ∃ b ∈ p.blocks, (∃ phi ∈ b.phis, fact ∈ phi.facts) ∨ ∃ i ∈ b.instructions, fact ∈ i.facts := by
  simp only [Program.facts, Block.facts, List.mem_flatMap, List.mem_append, Array.mem_toList_iff]

theorem mem_phi_facts {phi : Phi} {fact : Fact} :
    fact ∈ phi.facts ↔ ∃ i ∈ phi.incomings, .copy phi.dest i.value = fact := by
  simp [Phi.facts]

theorem copy_mem_program {p : Program} : .copy u v ∈ p.facts ↔ p.Copies u v := by
  rw [mem_facts]
  constructor
  · rintro ⟨b, hb, ⟨phi, hphi, hfact⟩ | ⟨i, hi, hfact⟩⟩
    · obtain ⟨i, hi, heq⟩ := mem_phi_facts.mp hfact
      cases heq
      exact .phi hb hphi hi
    · exact .instruction hb hi (copy_mem_facts.mp hfact)
  · intro h
    cases h with
    | phi hb hphi hi => exact ⟨_, hb, .inl ⟨_, hphi, mem_phi_facts.mpr ⟨_, hi, rfl⟩⟩⟩
    | instruction hb hi hcopy => exact ⟨_, hb, .inr ⟨_, hi, copy_mem_facts.mpr hcopy⟩⟩

/-- A phi says of objects only that they are copied. -/
theorem mem_facts_of_not_copy {p : Program} {fact : Fact} (hfact : ∀ u v, fact ≠ .copy u v) :
    fact ∈ p.facts ↔ ∃ b ∈ p.blocks, ∃ i ∈ b.instructions, fact ∈ i.facts := by
  rw [mem_facts]
  constructor
  · rintro ⟨b, hb, ⟨phi, hphi, hmem⟩ | hinstruction⟩
    · obtain ⟨i, -, heq⟩ := mem_phi_facts.mp hmem
      exact absurd heq.symm (hfact _ _)
    · exact ⟨b, hb, hinstruction⟩
  · rintro ⟨b, hb, hinstruction⟩
    exact ⟨b, hb, .inr hinstruction⟩

theorem flow_facts (p : Program) : flow p.facts = p.flow := by
  have hcopies : (flow p.facts).Copies = p.flow.Copies := by
    funext u v
    exact propext copy_mem_program
  have hholds : (flow p.facts).Holds = p.flow.Holds := by
    funext u v
    refine propext ((mem_facts_of_not_copy fun _ _ h => by cases h).trans ?_)
    simp only [holds_mem_facts, Program.flow]
  have hreleased : (flow p.facts).Released = p.flow.Released := by
    funext v
    refine propext ((mem_facts_of_not_copy fun _ _ h => by cases h).trans ?_)
    simp only [escapes_mem_facts, Program.flow]
  cases hflow : flow p.facts
  rw [hflow] at hcopies hholds hreleased
  cases hcopies
  cases hholds
  cases hreleased
  rfl

end Fact

end MethodFlow
