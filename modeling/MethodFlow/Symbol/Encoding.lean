import MethodFlow.Datum
/-!
# The form of references and constants
-/

namespace MethodFlow

instance : Codec FieldRef where
  encode f := .record [("class_name", encode f.className), ("field_name", encode f.fieldName)]
  decode d := return { className := ← d.field "class_name", fieldName := ← d.field "field_name" }

instance : Codec MethodRef where
  encode m := .record [
    ("class_name", encode m.className),
    ("name", encode m.name),
    ("parameter_types", encode m.parameterTypes),
    ("return_type", encode m.returnType)]
  decode d := return {
    className := ← d.field "class_name"
    name := ← d.field "name"
    parameterTypes := ← d.field "parameter_types"
    returnType := ← d.field "return_type" }

instance : Codec MethodHandle where
  encode h := .record [
    ("kind", encode h.kind),
    ("class_name", encode h.className),
    ("name", encode h.name),
    ("descriptor", encode h.descriptor)]
  decode d := return {
    kind := ← d.field "kind"
    className := ← d.field "class_name"
    name := ← d.field "name"
    descriptor := ← d.field "descriptor" }

/-- A constant is a record of one field, whose key says its kind. -/
instance : Codec Constant where
  encode
    | .int value => .record [("Int", encode value)]
    | .long value => .record [("Long", encode value)]
    | .float value => .record [("Float", encode value)]
    | .double value => .record [("Double", encode value)]
    | .string value => .record [("String", encode value)]
    | .type descriptor => .record [("Type", encode descriptor)]
    | .methodType descriptor => .record [("MethodType", encode descriptor)]
    | .methodHandle handle => .record [("MethodHandle", encode handle)]
  decode
    | .record [("Int", body)] => (decode body).map .int
    | .record [("Long", body)] => (decode body).map .long
    | .record [("Float", body)] => (decode body).map .float
    | .record [("Double", body)] => (decode body).map .double
    | .record [("String", body)] => (decode body).map .string
    | .record [("Type", body)] => (decode body).map .type
    | .record [("MethodType", body)] => (decode body).map .methodType
    | .record [("MethodHandle", body)] => (decode body).map .methodHandle
    | _ => none

end MethodFlow
