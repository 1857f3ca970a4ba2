import MethodFlow.Operand
import MethodFlow.Symbol
/-!
# Instructions

The closed set of instructions of a method body. Operands are variables and labels; `dest` is the
variable that an instruction defines.
-/

namespace MethodFlow

/-- One row of a switch table: where to go when the subject has this value. -/
structure SwitchCase where
  value : Int32
  target : Label
deriving DecidableEq, Repr

structure Invocation where
  dispatch : Dispatch
  method : MethodRef
  object : Option Variable
  arguments : List Variable
  dest : Option Variable
deriving DecidableEq, Repr

/-- A call whose method is found at run time by a bootstrap method. -/
structure DynamicInvocation where
  methodName : String
  methodDescriptor : String
  bootstrapMethod : MethodHandle
  bootstrapArguments : List Constant
  object : Option Variable
  arguments : List Variable
  dest : Option Variable
deriving DecidableEq, Repr

inductive Instruction where
  | intConstant (dest : Variable) (value : Int32)
  | longConstant (dest : Variable) (value : Int64)
  | floatConstant (dest : Variable) (value : Single)
  | doubleConstant (dest : Variable) (value : Double)
  | stringConstant (dest : Variable) (value : String)
  | classConstant (dest : Variable) (className : String)
  | nullConstant (dest : Variable)
  | assign (dest source : Variable)
  | cast (dest source : Variable) (type : String)
  | castNumber (dest source : Variable) (sourceType targetType : NumericType)
  | castInteger (dest source : Variable) (subtype : IntegerSubtype) (direction : CastDirection)
  | binary (dest : Variable) (op : BinaryOp) (type : NumericType) (first second : Variable)
  | negate (dest operand : Variable) (type : NumericType)
  | branch (condition : Condition) (operand : Variable) (consequent alternative : Label)
  | pairBranch (condition : PairCondition) (first second : Variable)
      (consequent alternative : Label)
  | jump (target : Label)
  | switch (subject : Variable) (table : List SwitchCase) (otherwise : Label)
  | exit (value : Option Variable)
  | raise (exception : Variable)
  | construct (dest : Variable) (className : String)
  | constructArray (dest size : Variable) (itemType : String)
  | constructMultiArray (dest : Variable) (dimensions : List Variable) (itemType : String)
  | getField (dest : Variable) (object : Option Variable) (field : FieldRef) (type : String)
  | putField (object : Option Variable) (value : Variable) (field : FieldRef) (type : String)
  | getElement (dest array index : Variable) (type : ElementType)
  | putElement (array index value : Variable) (type : ElementType)
  | arrayLength (dest array : Variable)
  | cloneArray (dest array : Variable)
  | unwrapArray (dest array : Variable) (type : ElementType)
  | isInstance (dest value : Variable) (type : String)
  | initClass (className : String)
  | invoke (call : Invocation)
  | invokeDynamic (call : DynamicInvocation)
  | nullCheck (dest value : Variable)
  | monitorEnter (object : Variable)
  | monitorExit (object : Variable)
deriving DecidableEq, Repr

namespace Instruction

def kind : Instruction → String
  | .intConstant .. => "int-constant"
  | .longConstant .. => "long-constant"
  | .floatConstant .. => "float-constant"
  | .doubleConstant .. => "double-constant"
  | .stringConstant .. => "string-constant"
  | .classConstant .. => "class-constant"
  | .nullConstant .. => "null-constant"
  | .assign .. => "assign"
  | .cast .. => "cast"
  | .castNumber .. => "cast-number"
  | .castInteger .. => "cast-integer"
  | .binary .. => "binary"
  | .negate .. => "negate"
  | .branch .. => "branch"
  | .pairBranch .. => "binary-branch"
  | .jump .. => "jump"
  | .switch .. => "switch"
  | .exit .. => "exit"
  | .raise .. => "raise"
  | .construct .. => "construct"
  | .constructArray .. => "construct-array"
  | .constructMultiArray .. => "construct-multi-array"
  | .getField .. => "get-field"
  | .putField .. => "put-field"
  | .getElement .. => "get-element"
  | .putElement .. => "put-element"
  | .arrayLength .. => "array-length"
  | .cloneArray .. => "clone-array"
  | .unwrapArray .. => "unwrap-array"
  | .isInstance .. => "is-instance"
  | .initClass .. => "init-class"
  | .invoke .. => "invoke"
  | .invokeDynamic .. => "invoke-dynamic"
  | .nullCheck .. => "null-check"
  | .monitorEnter .. => "monitor-enter"
  | .monitorExit .. => "monitor-exit"

def isControlTransfer : Instruction → Bool
  | .branch .. | .pairBranch .. | .jump .. | .switch .. | .exit .. | .raise .. => true
  | _ => false

/-- Whether two instructions are the same up to the two zeros of floating-point constants. -/
def sameValue : Instruction → Instruction → Bool
  | .floatConstant d x, .floatConstant e y => d == e && x.sameValue y
  | .doubleConstant d x, .doubleConstant e y => d == e && x.sameValue y
  | .invokeDynamic a, .invokeDynamic b =>
    { a with bootstrapArguments := [] } == { b with bootstrapArguments := [] }
      && a.bootstrapArguments.length == b.bootstrapArguments.length
      && (a.bootstrapArguments.zip b.bootstrapArguments).all fun (x, y) => x.sameValue y
  | a, b => a == b

end Instruction

end MethodFlow
