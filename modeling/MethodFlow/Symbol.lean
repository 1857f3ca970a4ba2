import MethodFlow.BinaryFloat
/-!
# Types and symbolic references

What instructions carry besides operands: types of operations, dispatch kinds, references to
classes, fields and methods, and the constants of dynamic calls. None of it takes part in data
or control flow.
-/

namespace MethodFlow

/-! ## Closed vocabularies

A vocabulary lists its members and gives each a name of its own. -/

class Vocabulary (α : Type) where
  members : List α
  name : α → String

/-- The member of this name; case matters. -/
def Vocabulary.ofName? {α : Type} [Vocabulary α] (s : String) : Option α :=
  (members (α := α)).find? fun a => name a == s

inductive NumericType where
  | int | long | float | double
deriving DecidableEq, Repr

instance : Vocabulary NumericType where
  members := [.int, .long, .float, .double]
  name
    | .int => "Int"
    | .long => "Long"
    | .float => "Float"
    | .double => "Double"

inductive IntegerSubtype where
  | byte | short | char
deriving DecidableEq, Repr

instance : Vocabulary IntegerSubtype where
  members := [.byte, .short, .char]
  name
    | .byte => "Byte"
    | .short => "Short"
    | .char => "Char"

inductive CastDirection where
  | fromInteger | toInteger
deriving DecidableEq, Repr

instance : Vocabulary CastDirection where
  members := [.fromInteger, .toInteger]
  name
    | .fromInteger => "FromInteger"
    | .toInteger => "ToInteger"

inductive ElementType where
  | boolean | byte | short | char | int | long | float | double | object
deriving DecidableEq, Repr

instance : Vocabulary ElementType where
  members := [.boolean, .byte, .short, .char, .int, .long, .float, .double, .object]
  name
    | .boolean => "Boolean"
    | .byte => "Byte"
    | .short => "Short"
    | .char => "Char"
    | .int => "Int"
    | .long => "Long"
    | .float => "Float"
    | .double => "Double"
    | .object => "Object"

inductive BinaryOp where
  | add | subtract | multiply | divide | modulo | compare | and | or | xor
  | shiftLeft | shiftRight | shiftRightUnsigned
deriving DecidableEq, Repr

instance : Vocabulary BinaryOp where
  members := [.add, .subtract, .multiply, .divide, .modulo, .compare, .and, .or, .xor,
    .shiftLeft, .shiftRight, .shiftRightUnsigned]
  name
    | .add => "Add"
    | .subtract => "Subtract"
    | .multiply => "Multiply"
    | .divide => "Divide"
    | .modulo => "Modulo"
    | .compare => "Compare"
    | .and => "And"
    | .or => "Or"
    | .xor => "Xor"
    | .shiftLeft => "ShiftLeft"
    | .shiftRight => "ShiftRight"
    | .shiftRightUnsigned => "ShiftRightUnsigned"

inductive Condition where
  | equal | notEqual | greater | greaterOrEqual | less | lessOrEqual | null | notNull
deriving DecidableEq, Repr

instance : Vocabulary Condition where
  members := [.equal, .notEqual, .greater, .greaterOrEqual, .less, .lessOrEqual, .null, .notNull]
  name
    | .equal => "Equal"
    | .notEqual => "NotEqual"
    | .greater => "Greater"
    | .greaterOrEqual => "GreaterOrEqual"
    | .less => "Less"
    | .lessOrEqual => "LessOrEqual"
    | .null => "Null"
    | .notNull => "NotNull"

inductive PairCondition where
  | equal | notEqual | referenceEqual | referenceNotEqual
deriving DecidableEq, Repr

instance : Vocabulary PairCondition where
  members := [.equal, .notEqual, .referenceEqual, .referenceNotEqual]
  name
    | .equal => "Equal"
    | .notEqual => "NotEqual"
    | .referenceEqual => "ReferenceEqual"
    | .referenceNotEqual => "ReferenceNotEqual"

inductive Dispatch where
  | static | special | virtual | interface
deriving DecidableEq, Repr

instance : Vocabulary Dispatch where
  members := [.static, .special, .virtual, .interface]
  name
    | .static => "static"
    | .special => "special"
    | .virtual => "virtual"
    | .interface => "interface"

namespace Dispatch

def name (d : Dispatch) : String := Vocabulary.name d

/-- Every dispatch but a static one is made on an object. -/
def needsObject : Dispatch → Bool
  | .static => false
  | _ => true

end Dispatch

inductive HandleKind where
  | getField | getStaticField | putField | putStaticField
  | invokeVirtual | invokeStatic | invokeSpecial | invokeConstructor | invokeInterface
deriving DecidableEq, Repr

instance : Vocabulary HandleKind where
  members := [.getField, .getStaticField, .putField, .putStaticField, .invokeVirtual,
    .invokeStatic, .invokeSpecial, .invokeConstructor, .invokeInterface]
  name
    | .getField => "GetField"
    | .getStaticField => "GetStaticField"
    | .putField => "PutField"
    | .putStaticField => "PutStaticField"
    | .invokeVirtual => "InvokeVirtual"
    | .invokeStatic => "InvokeStatic"
    | .invokeSpecial => "InvokeSpecial"
    | .invokeConstructor => "InvokeConstructor"
    | .invokeInterface => "InvokeInterface"

/-! ## References -/

structure FieldRef where
  className : String
  fieldName : String
deriving DecidableEq, Repr

def FieldRef.text (f : FieldRef) : String := s!"{f.className}.{f.fieldName}"

/-- A method by class, name and type descriptors; the object it is called on is no parameter. -/
structure MethodRef where
  className : String
  name : String
  parameterTypes : List String
  returnType : String
deriving DecidableEq, Repr

namespace MethodRef

def text (m : MethodRef) : String :=
  s!"{m.className}.{m.name}({String.join m.parameterTypes}){m.returnType}"

def parameterCount (m : MethodRef) : Nat := m.parameterTypes.length

end MethodRef

structure MethodHandle where
  kind : HandleKind
  className : String
  name : String
  descriptor : String
deriving DecidableEq, Repr

inductive Constant where
  | int (value : Int32)
  | long (value : Int64)
  | float (value : Single)
  | double (value : Double)
  | string (value : String)
  | type (descriptor : String)
  | methodType (descriptor : String)
  | methodHandle (handle : MethodHandle)
deriving DecidableEq, Repr

/-- Whether two constants are of one kind and compare equal. -/
def Constant.sameValue : Constant → Constant → Bool
  | .float x, .float y => x.sameValue y
  | .double x, .double y => x.sameValue y
  | a, b => a == b

end MethodFlow
