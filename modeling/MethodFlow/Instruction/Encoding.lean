import MethodFlow.Instruction
import MethodFlow.Symbol.Encoding
/-!
# The form of an instruction

A record of one field: the key is the kind of the instruction, the value a record of its parts.
-/

namespace MethodFlow

instance : Codec SwitchCase where
  encode row := .record [("condition", encode row.value), ("target", encode row.target)]
  decode d := return { value := ← d.field "condition", target := ← d.field "target" }

instance : Codec Invocation where
  encode call := .record [
    ("kind", encode call.dispatch),
    ("method", encode call.method),
    ("instance", encode call.object),
    ("arguments", encode call.arguments),
    ("receiver", encode call.dest)]
  decode d := return {
    dispatch := ← d.field "kind"
    method := ← d.field "method"
    object := ← d.field "instance"
    arguments := ← d.field "arguments"
    dest := ← d.field "receiver" }

instance : Codec DynamicInvocation where
  encode call := .record [
    ("method_name", encode call.methodName),
    ("method_descriptor", encode call.methodDescriptor),
    ("bootstrap_method", encode call.bootstrapMethod),
    ("bootstrap_arguments", encode call.bootstrapArguments),
    ("instance", encode call.object),
    ("arguments", encode call.arguments),
    ("receiver", encode call.dest)]
  decode d := return {
    methodName := ← d.field "method_name"
    methodDescriptor := ← d.field "method_descriptor"
    bootstrapMethod := ← d.field "bootstrap_method"
    bootstrapArguments := ← d.field "bootstrap_arguments"
    object := ← d.field "instance"
    arguments := ← d.field "arguments"
    dest := ← d.field "receiver" }

namespace Instruction

def key : Instruction → String
  | .intConstant .. => "IntegerConstant"
  | .longConstant .. => "LongConstant"
  | .floatConstant .. => "FloatConstant"
  | .doubleConstant .. => "DoubleConstant"
  | .stringConstant .. => "StringConstant"
  | .classConstant .. => "ClassConstant"
  | .nullConstant .. => "NullConstant"
  | .assign .. => "Assign"
  | .cast .. => "Cast"
  | .castNumber .. => "CastNumber"
  | .castInteger .. => "CastInteger"
  | .binary .. => "Binary"
  | .negate .. => "Negate"
  | .branch .. => "Branching"
  | .pairBranch .. => "BinaryBranching"
  | .jump .. => "Jump"
  | .switch .. => "Switch"
  | .exit .. => "Exit"
  | .raise .. => "Raise"
  | .construct .. => "Construct"
  | .constructArray .. => "ConstructArray"
  | .constructMultiArray .. => "ConstructMultiArray"
  | .getField .. => "GetField"
  | .putField .. => "PutField"
  | .getElement .. => "GetElement"
  | .putElement .. => "PutElement"
  | .arrayLength .. => "ArrayLength"
  | .cloneArray .. => "CloneArray"
  | .unwrapArray .. => "UnwrapArray"
  | .isInstance .. => "IsInstance"
  | .initClass .. => "InitClass"
  | .invoke .. => "Invoke"
  | .invokeDynamic .. => "InvokeDynamic"
  | .nullCheck .. => "NullCheck"
  | .monitorEnter .. => "MonitorEnter"
  | .monitorExit .. => "MonitorExit"

def body : Instruction → Datum
  | .intConstant dest value => .record [("receiver", encode dest), ("constant", encode value)]
  | .longConstant dest value => .record [("receiver", encode dest), ("constant", encode value)]
  | .floatConstant dest value => .record [("receiver", encode dest), ("constant", encode value)]
  | .doubleConstant dest value => .record [("receiver", encode dest), ("constant", encode value)]
  | .stringConstant dest value => .record [("receiver", encode dest), ("constant", encode value)]
  | .classConstant dest className =>
    .record [("receiver", encode dest), ("class_name", encode className)]
  | .nullConstant dest => .record [("receiver", encode dest)]
  | .assign dest source => .record [("receiver", encode dest), ("assignee", encode source)]
  | .cast dest source type =>
    .record [("receiver", encode dest), ("value", encode source), ("target_type", encode type)]
  | .castNumber dest source sourceType targetType =>
    .record [("receiver", encode dest), ("value", encode source),
      ("source_type", encode sourceType), ("target_type", encode targetType)]
  | .castInteger dest source subtype direction =>
    .record [("receiver", encode dest), ("value", encode source),
      ("target_type", encode subtype), ("direction", encode direction)]
  | .binary dest op type first second =>
    .record [("receiver", encode dest), ("operation", encode op), ("operand_type", encode type),
      ("first_operand", encode first), ("second_operand", encode second)]
  | .negate dest operand type =>
    .record [("receiver", encode dest), ("operand", encode operand), ("operand_type", encode type)]
  | .branch condition operand consequent alternative =>
    .record [("condition", encode condition), ("operand", encode operand),
      ("consequent", encode consequent), ("alternative", encode alternative)]
  | .pairBranch condition first second consequent alternative =>
    .record [("condition", encode condition), ("first_operand", encode first),
      ("second_operand", encode second), ("consequent", encode consequent),
      ("alternative", encode alternative)]
  | .jump target => .record [("target", encode target)]
  | .switch subject table otherwise =>
    .record [("condition", encode subject), ("entries", encode table),
      ("default_target", encode otherwise)]
  | .exit value => .record [("value_to_return", encode value)]
  | .raise exception => .record [("exception", encode exception)]
  | .construct dest className =>
    .record [("receiver", encode dest), ("class_name", encode className)]
  | .constructArray dest size itemType =>
    .record [("receiver", encode dest), ("size", encode size), ("item_type", encode itemType)]
  | .constructMultiArray dest dimensions itemType =>
    .record [("receiver", encode dest), ("dimensions", encode dimensions),
      ("item_type", encode itemType)]
  | .getField dest object field type =>
    .record [("receiver", encode dest), ("instance", encode object), ("field", encode field),
      ("field_type", encode type)]
  | .putField object value field type =>
    .record [("instance", encode object), ("value", encode value), ("field", encode field),
      ("field_type", encode type)]
  | .getElement dest array index type =>
    .record [("receiver", encode dest), ("array", encode array), ("index", encode index),
      ("element_type", encode type)]
  | .putElement array index value type =>
    .record [("array", encode array), ("index", encode index), ("value", encode value),
      ("element_type", encode type)]
  | .arrayLength dest array => .record [("receiver", encode dest), ("array", encode array)]
  | .cloneArray dest array => .record [("receiver", encode dest), ("array", encode array)]
  | .unwrapArray dest array type =>
    .record [("receiver", encode dest), ("array", encode array), ("element_type", encode type)]
  | .isInstance dest value type =>
    .record [("receiver", encode dest), ("value", encode value), ("type_name", encode type)]
  | .initClass className => .record [("class_name", encode className)]
  | .invoke call => encode call
  | .invokeDynamic call => encode call
  | .nullCheck dest value => .record [("receiver", encode dest), ("value", encode value)]
  | .monitorEnter object => .record [("object_ref", encode object)]
  | .monitorExit object => .record [("object_ref", encode object)]

/-- Reads the parts of an instruction of the kind that the key stands for. -/
def ofBody? (key : String) (d : Datum) : Option Instruction :=
  match key with
  | "IntegerConstant" => return .intConstant (← d.field "receiver") (← d.field "constant")
  | "LongConstant" => return .longConstant (← d.field "receiver") (← d.field "constant")
  | "FloatConstant" => return .floatConstant (← d.field "receiver") (← d.field "constant")
  | "DoubleConstant" => return .doubleConstant (← d.field "receiver") (← d.field "constant")
  | "StringConstant" => return .stringConstant (← d.field "receiver") (← d.field "constant")
  | "ClassConstant" => return .classConstant (← d.field "receiver") (← d.field "class_name")
  | "NullConstant" => return .nullConstant (← d.field "receiver")
  | "Assign" => return .assign (← d.field "receiver") (← d.field "assignee")
  | "Cast" => return .cast (← d.field "receiver") (← d.field "value") (← d.field "target_type")
  | "CastNumber" =>
    return .castNumber (← d.field "receiver") (← d.field "value") (← d.field "source_type")
      (← d.field "target_type")
  | "CastInteger" =>
    return .castInteger (← d.field "receiver") (← d.field "value") (← d.field "target_type")
      (← d.field "direction")
  | "Binary" =>
    return .binary (← d.field "receiver") (← d.field "operation") (← d.field "operand_type")
      (← d.field "first_operand") (← d.field "second_operand")
  | "Negate" =>
    return .negate (← d.field "receiver") (← d.field "operand") (← d.field "operand_type")
  | "Branching" =>
    return .branch (← d.field "condition") (← d.field "operand") (← d.field "consequent")
      (← d.field "alternative")
  | "BinaryBranching" =>
    return .pairBranch (← d.field "condition") (← d.field "first_operand")
      (← d.field "second_operand") (← d.field "consequent") (← d.field "alternative")
  | "Jump" => return .jump (← d.field "target")
  | "Switch" =>
    return .switch (← d.field "condition") (← d.field "entries") (← d.field "default_target")
  | "Exit" => return .exit (← d.field "value_to_return")
  | "Raise" => return .raise (← d.field "exception")
  | "Construct" => return .construct (← d.field "receiver") (← d.field "class_name")
  | "ConstructArray" =>
    return .constructArray (← d.field "receiver") (← d.field "size") (← d.field "item_type")
  | "ConstructMultiArray" =>
    return .constructMultiArray (← d.field "receiver") (← d.field "dimensions")
      (← d.field "item_type")
  | "GetField" =>
    return .getField (← d.field "receiver") (← d.field "instance") (← d.field "field")
      (← d.field "field_type")
  | "PutField" =>
    return .putField (← d.field "instance") (← d.field "value") (← d.field "field")
      (← d.field "field_type")
  | "GetElement" =>
    return .getElement (← d.field "receiver") (← d.field "array") (← d.field "index")
      (← d.field "element_type")
  | "PutElement" =>
    return .putElement (← d.field "array") (← d.field "index") (← d.field "value")
      (← d.field "element_type")
  | "ArrayLength" => return .arrayLength (← d.field "receiver") (← d.field "array")
  | "CloneArray" => return .cloneArray (← d.field "receiver") (← d.field "array")
  | "UnwrapArray" =>
    return .unwrapArray (← d.field "receiver") (← d.field "array") (← d.field "element_type")
  | "IsInstance" =>
    return .isInstance (← d.field "receiver") (← d.field "value") (← d.field "type_name")
  | "InitClass" => return .initClass (← d.field "class_name")
  | "Invoke" => return .invoke (← decode d)
  | "InvokeDynamic" => return .invokeDynamic (← decode d)
  | "NullCheck" => return .nullCheck (← d.field "receiver") (← d.field "value")
  | "MonitorEnter" => return .monitorEnter (← d.field "object_ref")
  | "MonitorExit" => return .monitorExit (← d.field "object_ref")
  | _ => none

end Instruction

instance : Codec Instruction where
  encode i := .record [(i.key, i.body)]
  decode
    | .record [(key, body)] => Instruction.ofBody? key body
    | _ => none

end MethodFlow
