import MethodFlow.Instruction.Operands
/-!
# The fields of an instruction

An instruction as the list of its fields, in the order of its constructor. The type of a field alone
tells what the field refers to, so that nothing here asks what the instruction does with it.

* `fieldVars_perm`: the variables among the fields are the one that the instruction defines and
  those that it reads, each as often as it stands there;
* `fieldLabels_eq`: the labels among the fields are its targets, in order;
* `eq_of_fields`: the kind and the fields are all that there is to an instruction;
* `operands_complete`: so no operand is left out where an instruction is asked for its operands.
-/

namespace MethodFlow

/-! ## Fields -/

inductive Field : Type 1 where
  | variable (v : Variable)
  | optional (v : Option Variable)
  | variables (vs : List Variable)
  | label (l : Label)
  | table (rows : List SwitchCase)
  | plain {α : Type} (value : α)

class FieldType (α : Type) where
  toField : α → Field

namespace Field

def of {α : Type} [FieldType α] (a : α) : Field := FieldType.toField a

def vars : Field → List Variable
  | .variable v => [v]
  | .optional v => v.toList
  | .variables vs => vs
  | .label _ | .table _ | .plain _ => []

def labels : Field → List Label
  | .label l => [l]
  | .table rows => rows.map (·.target)
  | .variable _ | .optional _ | .variables _ | .plain _ => []

end Field

instance : FieldType Variable := ⟨.variable⟩

instance : FieldType (Option Variable) := ⟨.optional⟩

instance : FieldType (List Variable) := ⟨.variables⟩

instance : FieldType Label := ⟨.label⟩

instance : FieldType (List SwitchCase) := ⟨.table⟩

instance : FieldType Int32 := ⟨.plain⟩

instance : FieldType Int64 := ⟨.plain⟩

instance : FieldType Single := ⟨.plain⟩

instance : FieldType Double := ⟨.plain⟩

instance : FieldType String := ⟨.plain⟩

instance : FieldType FieldRef := ⟨.plain⟩

instance : FieldType MethodRef := ⟨.plain⟩

instance : FieldType MethodHandle := ⟨.plain⟩

instance : FieldType (List Constant) := ⟨.plain⟩

instance {α : Type} [Vocabulary α] : FieldType α := ⟨.plain⟩

/-! ## Instructions -/

def Invocation.fields (call : Invocation) : List Field :=
  [.of call.dispatch, .of call.method, .of call.object, .of call.arguments, .of call.dest]

def DynamicInvocation.fields (call : DynamicInvocation) : List Field :=
  [.of call.methodName, .of call.methodDescriptor, .of call.bootstrapMethod,
    .of call.bootstrapArguments, .of call.object, .of call.arguments, .of call.dest]

namespace Instruction

def fields : Instruction → List Field
  | .intConstant dest value => [.of dest, .of value]
  | .longConstant dest value => [.of dest, .of value]
  | .floatConstant dest value => [.of dest, .of value]
  | .doubleConstant dest value => [.of dest, .of value]
  | .stringConstant dest value => [.of dest, .of value]
  | .classConstant dest className => [.of dest, .of className]
  | .nullConstant dest => [.of dest]
  | .assign dest source => [.of dest, .of source]
  | .cast dest source type => [.of dest, .of source, .of type]
  | .castNumber dest source sourceType targetType =>
    [.of dest, .of source, .of sourceType, .of targetType]
  | .castInteger dest source subtype direction =>
    [.of dest, .of source, .of subtype, .of direction]
  | .binary dest op type first second => [.of dest, .of op, .of type, .of first, .of second]
  | .negate dest operand type => [.of dest, .of operand, .of type]
  | .branch condition operand consequent alternative =>
    [.of condition, .of operand, .of consequent, .of alternative]
  | .pairBranch condition first second consequent alternative =>
    [.of condition, .of first, .of second, .of consequent, .of alternative]
  | .jump target => [.of target]
  | .switch subject table otherwise => [.of subject, .of table, .of otherwise]
  | .exit value => [.of value]
  | .raise exception => [.of exception]
  | .construct dest className => [.of dest, .of className]
  | .constructArray dest size itemType => [.of dest, .of size, .of itemType]
  | .constructMultiArray dest dimensions itemType => [.of dest, .of dimensions, .of itemType]
  | .getField dest object field type => [.of dest, .of object, .of field, .of type]
  | .putField object value field type => [.of object, .of value, .of field, .of type]
  | .getElement dest array index type => [.of dest, .of array, .of index, .of type]
  | .putElement array index value type => [.of array, .of index, .of value, .of type]
  | .arrayLength dest array => [.of dest, .of array]
  | .cloneArray dest array => [.of dest, .of array]
  | .unwrapArray dest array type => [.of dest, .of array, .of type]
  | .isInstance dest value type => [.of dest, .of value, .of type]
  | .initClass className => [.of className]
  | .invoke call => call.fields
  | .invokeDynamic call => call.fields
  | .nullCheck dest value => [.of dest, .of value]
  | .monitorEnter object => [.of object]
  | .monitorExit object => [.of object]

def fieldVars (i : Instruction) : List Variable := i.fields.flatMap Field.vars

def fieldLabels (i : Instruction) : List Label := i.fields.flatMap Field.labels

/-! ## What is read off an instruction -/

/-- A call names its object before its arguments, and is said to read it after them. -/
theorem call_vars_perm (object arguments dest : List Variable) :
    (object ++ (arguments ++ dest)).Perm (dest ++ (arguments ++ object)) :=
  calc object ++ (arguments ++ dest)
    _ = object ++ arguments ++ dest := (List.append_assoc ..).symm
    _ |>.Perm (dest ++ (object ++ arguments)) := List.perm_append_comm
    _ |>.Perm (dest ++ (arguments ++ object)) := List.perm_append_comm.append_left dest

theorem fieldVars_perm (i : Instruction) : i.fieldVars.Perm (i.dest?.toList ++ i.uses) := by
  cases i with
  | invoke call | invokeDynamic call =>
    have hvars := call_vars_perm call.object.toList call.arguments call.dest.toList
    simpa [fieldVars, fields, Invocation.fields, DynamicInvocation.fields, Field.of,
      FieldType.toField, Field.vars, dest?, uses] using hvars
  | _ => simp [fieldVars, fields, Field.of, FieldType.toField, Field.vars, dest?, uses]

theorem fieldLabels_eq (i : Instruction) : i.fieldLabels = i.targets?.getD [] := by
  cases i <;>
    simp [fieldLabels, fields, Invocation.fields, DynamicInvocation.fields, Field.of,
      FieldType.toField, Field.labels, targets?]

theorem dest?_eq_none_of_isControlTransfer {i : Instruction} (h : i.isControlTransfer = true) :
    i.dest? = none := by
  revert h
  cases i <;> simp [isControlTransfer, dest?]

/-- What an instruction defines and reads are the variables among its fields, and where it may go
are the labels among them. Only an instruction that ends its block goes anywhere, and none that does
defines a variable. -/
theorem operands_complete (i : Instruction) :
    i.fieldVars.Perm (i.dest?.toList ++ i.uses) ∧ i.fieldLabels = i.targets?.getD [] ∧
      (i.targets?.isSome = true ↔ i.isControlTransfer = true) ∧ i.dest?.toList.length ≤ 1 ∧
      (i.isControlTransfer = true → i.dest? = none) := by
  refine ⟨i.fieldVars_perm, i.fieldLabels_eq, ?_, Option.length_toList_le,
    dest?_eq_none_of_isControlTransfer⟩
  rw [isControlTransfer_eq_isSome_targets?]

end Instruction

/-! ## The instruction of its fields -/

theorem Invocation.eq_of_fields {call other : Invocation} (h : call.fields = other.fields) :
    call = other := by
  cases call
  cases other
  simpa [fields, Field.of, FieldType.toField] using h

theorem DynamicInvocation.eq_of_fields {call other : DynamicInvocation}
    (h : call.fields = other.fields) : call = other := by
  cases call
  cases other
  simpa [fields, Field.of, FieldType.toField] using h

theorem Instruction.eq_of_fields {i j : Instruction} (hkind : i.kind = j.kind)
    (h : i.fields = j.fields) : i = j := by
  cases i <;> cases j <;> simp_all [kind, fields, Field.of, FieldType.toField]
  case invoke.invoke call other => exact Invocation.eq_of_fields h
  case invokeDynamic.invokeDynamic call other => exact DynamicInvocation.eq_of_fields h

end MethodFlow
