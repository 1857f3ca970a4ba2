import MethodFlow.Operand
import MethodFlow.Symbol
/-!
# Self-describing data

The form in which programs, facts and reports are exchanged: a tree of records and lists. A codec
gives the form of a type and reads it back.
-/

namespace MethodFlow

inductive Datum where
  | null
  | bool (b : Bool)
  | integer (n : Int)
  | real (x : Double)
  | text (s : String)
  | list (items : List Datum)
  | record (fields : List (String × Datum))

class Codec (α : Type) where
  encode : α → Datum
  decode : Datum → Option α

export Codec (encode decode)

namespace Datum

/-- The value under a key of a record; a missing key counts as `null`. -/
def field {α : Type} [Codec α] (d : Datum) (key : String) : Option α :=
  match d with
  | .record fields => decode ((fields.lookup key).getD .null)
  | _ => none

def hasOnly (d : Datum) (keys : List String) : Bool :=
  match d with
  | .record fields => fields.all fun entry => keys.contains entry.1
  | _ => false

end Datum

/-! ## Codecs of plain values -/

instance : Codec Bool where
  encode := .bool
  decode
    | .bool b => some b
    | _ => none

instance : Codec String where
  encode := .text
  decode
    | .text s => some s
    | _ => none

/-- A natural number is read where it fits a machine word. -/
instance : Codec Nat where
  encode n := .integer n
  decode
    | .integer n => if 0 ≤ n ∧ n < wordLimit then some n.toNat else none
    | _ => none

instance : Codec Int32 where
  encode n := .integer n.toInt
  decode
    | .integer n => if Int32.minValue.toInt ≤ n ∧ n ≤ Int32.maxValue.toInt then some (.ofInt n) else none
    | _ => none

instance : Codec Int64 where
  encode n := .integer n.toInt
  decode
    | .integer n => if Int64.minValue.toInt ≤ n ∧ n ≤ Int64.maxValue.toInt then some (.ofInt n) else none
    | _ => none

instance : Codec Variable where
  encode v := .integer v.index
  decode
    | .integer n =>
      if h : 0 ≤ n ∧ n < indexLimit then some ⟨n.toNat, by omega⟩ else none
    | _ => none

instance : Codec Label where
  encode l := .integer l.index
  decode
    | .integer n =>
      if h : 0 ≤ n ∧ n < indexLimit then some ⟨n.toNat, by omega⟩ else none
    | _ => none

/-- An infinite number has no form of its own: it is written as `null`. -/
instance : Codec Double where
  encode x := if x.isFinite then .real x else .null
  decode
    | .real x => some x
    | .integer n => some (.ofInt n)
    | _ => none

instance : Codec Single where
  encode x := if x.isFinite then .real (.ofSingle x) else .null
  decode
    | .real x => some (.ofDouble x)
    | .integer n => some (.ofInt n)
    | _ => none

instance {α : Type} [Codec α] : Codec (Option α) where
  encode
    | some a => encode a
    | none => .null
  decode
    | .null => some none
    | d => (decode d).map some

instance {α : Type} [Codec α] : Codec (List α) where
  encode items := .list (items.map encode)
  decode
    | .list items => items.mapM decode
    | _ => none

instance {α : Type} [Codec α] : Codec (Array α) where
  encode items := encode items.toList
  decode d := (decode (α := List α) d).map List.toArray

/-- A member of a vocabulary goes by its name. -/
instance {α : Type} [Vocabulary α] : Codec α where
  encode a := .text (Vocabulary.name a)
  decode
    | .text s => Vocabulary.ofName? s
    | _ => none

end MethodFlow
