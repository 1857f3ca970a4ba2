import MethodFlow.Symbol.Encoding
/-!
# Values read back as they were written

A codec loses nothing when every value is read back from its own form. This is so of the plain
values, of every vocabulary and of the references, and passes to options and lists. It is not so of
floating-point numbers, of which some have no form, so that constants come with a condition.

* `decode_encode_list`: a list whose members are read back is read back;
* `Datum.field_cons_self`, `Datum.field_cons_ne`: the lookup of one key in a record, by which the
  form of a structure is opened field by field;
* `decode_encode_constant`: a constant that is no floating-point number is read back.
-/

namespace MethodFlow

/-- Every value is read back from its own form. -/
class Lossless (α : Type) [Codec α] : Prop where
  decode_encode (a : α) : decode (encode a) = some a

@[simp] theorem decode_encode {α : Type} [Codec α] [Lossless α] (a : α) :
    decode (encode a) = some a :=
  Lossless.decode_encode a

/-- No value has the form that stands for an absent one. -/
class Visible (α : Type) [Codec α] : Prop where
  encode_ne_null (a : α) : encode a ≠ .null

/-! ## Records -/

namespace Datum

variable {α : Type} [Codec α]

@[simp] theorem field_cons_self (key : String) (d : Datum) (rest : List (String × Datum)) :
    (record ((key, d) :: rest)).field key = (decode d : Option α) := by
  simp [field]

@[simp] theorem field_cons_ne {key other : String} (h : key ≠ other) (d : Datum)
    (rest : List (String × Datum)) :
    (record ((other, d) :: rest)).field key = ((record rest).field key : Option α) := by
  have hne : (key == other) = false := by simpa using h
  simp [field, List.lookup_cons, hne]

end Datum

/-! ## Plain values -/

instance : Lossless String where
  decode_encode _ := rfl

instance : Visible String where
  encode_ne_null s := by simp [encode]

instance : Lossless Int32 where
  decode_encode n := by
    have hmin := n.le_toInt
    have hmax := n.toInt_le
    simp only [encode, decode]
    rw [if_pos ⟨hmin, hmax⟩, Int32.ofInt_toInt]

instance : Lossless Int64 where
  decode_encode n := by
    have hmin := n.le_toInt
    have hmax := n.toInt_le
    simp only [encode, decode]
    rw [if_pos ⟨hmin, hmax⟩, Int64.ofInt_toInt]

instance : Lossless Variable where
  decode_encode v := by
    have hlt := v.index_lt
    simp [encode, decode, hlt]

instance : Visible Variable where
  encode_ne_null v := by simp [encode]

instance : Lossless Label where
  decode_encode l := by
    have hlt := l.index_lt
    simp [encode, decode, hlt]

/-! ## Options and lists -/

section Containers

variable {α : Type} [Codec α]

instance [Lossless α] [Visible α] : Lossless (Option α) where
  decode_encode
    | none => rfl
    | some a => by
      have hnull : encode a ≠ .null := Visible.encode_ne_null a
      have ha : decode (encode a) = some a := decode_encode a
      change (match encode a with
        | .null => some none
        | d => (decode d).map some) = some (some a)
      split
      · contradiction
      · simp [ha]

theorem decode_encode_list {items : List α} (h : ∀ a ∈ items, decode (encode a) = some a) :
    decode (encode items) = some items := by
  change (items.map encode).mapM decode = some items
  induction items with
  | nil => rfl
  | cons a items ih =>
    have ha : decode (encode a) = some a := h a (by simp)
    have hrest := ih fun b hb => h b (by simp [hb])
    simp [ha, hrest]

theorem decode_encode_array {items : Array α}
    (h : ∀ a ∈ items, decode (encode a) = some a) : decode (encode items) = some items := by
  have hlist : decode (encode items.toList) = some items.toList :=
    decode_encode_list fun a ha => h a (by simpa using ha)
  change (decode (encode items.toList)).map List.toArray = some items
  simp [hlist]

instance [Lossless α] : Lossless (List α) where
  decode_encode _ := decode_encode_list fun a _ => decode_encode a

instance [Lossless α] : Lossless (Array α) where
  decode_encode _ := decode_encode_array fun a _ => decode_encode a

end Containers

/-! ## Vocabularies -/

class Vocabulary.Named (α : Type) [Vocabulary α] : Prop where
  ofName?_name (a : α) : ofName? (name a) = some a

instance {α : Type} [Vocabulary α] [Vocabulary.Named α] : Lossless α where
  decode_encode a := Vocabulary.Named.ofName?_name a

instance : Vocabulary.Named NumericType where
  ofName?_name a := by cases a <;> rfl

instance : Vocabulary.Named IntegerSubtype where
  ofName?_name a := by cases a <;> rfl

instance : Vocabulary.Named CastDirection where
  ofName?_name a := by cases a <;> rfl

instance : Vocabulary.Named ElementType where
  ofName?_name a := by cases a <;> rfl

instance : Vocabulary.Named BinaryOp where
  ofName?_name a := by cases a <;> rfl

instance : Vocabulary.Named Condition where
  ofName?_name a := by cases a <;> rfl

instance : Vocabulary.Named PairCondition where
  ofName?_name a := by cases a <;> rfl

instance : Vocabulary.Named Dispatch where
  ofName?_name a := by cases a <;> rfl

instance : Vocabulary.Named HandleKind where
  ofName?_name a := by cases a <;> rfl

/-! ## References and constants -/

instance : Lossless FieldRef where
  decode_encode f := by
    unfold instCodecFieldRef
    simp

instance : Lossless MethodRef where
  decode_encode m := by
    unfold instCodecMethodRef
    simp

instance : Lossless MethodHandle where
  decode_encode h := by
    unfold instCodecMethodHandle
    simp

def Constant.isFloating : Constant → Bool
  | .float _ | .double _ => true
  | _ => false

theorem decode_encode_constant {c : Constant} (h : c.isFloating = false) :
    decode (encode c) = some c := by
  unfold instCodecConstant
  cases c with
  | float => cases h
  | double => cases h
  | _ => simp

/-- The form of an infinite constant is that of an absent one. -/
example : (decode (encode (Constant.double ⟨0x7ff0000000000000⟩)) : Option Constant) = none := rfl

end MethodFlow
