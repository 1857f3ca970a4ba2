import MethodFlow.Proofs.Encoding
import MethodFlow.Proofs.Yaml.Nodes
import MethodFlow.Yaml.Value
/-!
# Words are read as values

A number and the name of a member of a vocabulary are words, and a node of such a word is read as
the value that the word was written for.
-/

namespace MethodFlow.Yaml

/-! ## Numbers -/

theorem toList_toString (n : Nat) : (toString n).toList = Nat.toDigits 10 n := by
  rw [Nat.toString_eq_ofList_toDigits, String.toList_ofList]

theorem isDigit_of_mem_toString {n : Nat} {c : Char} (hc : c ∈ (toString n).toList) :
    c.isDigit = true := by
  rw [toList_toString] at hc
  exact Nat.isDigit_of_mem_toDigits (by decide) (by decide) hc

theorem isWord_toString (n : Nat) : IsWord (toString n).toList := by
  constructor
  · rw [toList_toString]
    exact Nat.toDigits_ne_nil
  · intro c hc
    simp [isWordChar, Char.isAlphanum, isDigit_of_mem_toString hc]

/-- Only the number 0 begins with the digit 0. -/
theorem head_toDigits {n : Nat} (h : (Nat.toDigits 10 n).head? = some '0') : n = 0 := by
  induction n using Nat.strongRecOn with
  | _ n ih =>
      rw [Nat.toDigits_eq_if (by decide)] at h
      by_cases hn : n < 10
      · rw [if_pos hn] at h
        exact Nat.digitChar_eq_zero.mp (Option.some.inj h)
      · have hsome : (Nat.toDigits 10 (n / 10)).head?.isSome = true := by
          simp [List.isSome_head?, Nat.toDigits_ne_nil]
        rw [if_neg hn, List.head?_append, Option.or_of_isSome hsome] at h
        have hzero := ih (n / 10) (by omega) h
        omega

theorem digitValue_lt {c : Char} (hc : c.isDigit = true) : c.toNat - '0'.toNat < 10 := by
  have hrange : 48 ≤ c.toNat ∧ c.toNat ≤ 57 := by
    simpa [Char.isDigit, UInt32.le_iff_toNat_le] using hc
  change c.toNat - 48 < 10
  omega

theorem digits?_of_isDigit {cs : List Char} (hne : cs ≠ []) (h : ∀ c ∈ cs, c.isDigit = true) :
    digits? 10 cs = some (Nat.ofDigitChars 10 cs 0) := by
  have hsome : cs.isEmpty = false := by simpa using hne
  rw [digits?, hsome, if_neg Bool.false_ne_true]
  generalize 0 = n
  clear hne hsome
  induction cs generalizing n with
  | nil => rfl
  | cons c cs ih =>
      have hc := h c List.mem_cons_self
      have htail := ih fun d hd => h d (List.mem_cons_of_mem c hd)
      rw [List.foldlM_cons, Nat.ofDigitChars_cons, ← htail]
      simp only [hexValue?, hc, if_true, if_pos (digitValue_lt hc)]
      rw [Nat.mul_comm n]
      rfl

/-- A text of digits is a decimal number, unless it has a leading zero. -/
theorem natural?_of_isDigit {s : String} (h : ∀ c ∈ s.toList, c.isDigit = true)
    (hzero : s.toList.head? = some '0' → s.toList = ['0']) :
    natural? s = digits? 10 s.toList := by
  unfold natural?
  cases hs : s.toList with
  | nil => rfl
  | cons c cs =>
      rw [hs] at h hzero
      have hplus : c ≠ '+' := by
        intro heq
        have hc := h c List.mem_cons_self
        rw [heq] at hc
        exact absurd hc (by decide)
      by_cases hc : c = '0'
      · obtain ⟨-, rfl⟩ := List.cons.inj (hzero (by rw [hc]; rfl))
        rw [hc]
        rfl
      · simp [hplus, hc]

/-- A number is read back from its decimal form. -/
theorem natural?_toString (n : Nat) : natural? (toString n) = some n := by
  have hzero : (toString n).toList.head? = some '0' → (toString n).toList = ['0'] := by
    rw [toList_toString]
    intro hhead
    rw [head_toDigits hhead, Nat.toDigits_zero]
  have hdigit : ∀ c ∈ (toString n).toList, c.isDigit = true := fun c => isDigit_of_mem_toString
  rw [natural?_of_isDigit hdigit hzero, digits?_of_isDigit (isWord_toString n).1 hdigit,
    toList_toString, Nat.ofDigitChars_ten_toDigits]

theorem isNullWord_toString (n : Nat) : isNullWord (toString n) = false := by
  have hwords : ["~", "null", "Null", "NULL"].all (!·.toList.all Char.isDigit) = true := by decide
  have hdigits : (toString n).toList.all Char.isDigit = true :=
    List.all_eq_true.mpr fun c => isDigit_of_mem_toString
  rw [Bool.eq_false_iff]
  intro hnull
  have hword := List.all_eq_true.mp hwords _ (List.contains_iff_mem.mp hnull)
  rw [hdigits] at hword
  exact Bool.false_ne_true hword

namespace Node

theorem natural?_toString {n limit : Nat} (hn : n < limit) :
    (wordNode (toString n)).natural? limit = some n := by
  have hvalue (tag : String) : (wordNode (toString n)).valueText? tag = some (toString n) := rfl
  simp only [Node.natural?, hvalue, Option.bind_eq_bind, Option.bind_some,
    Yaml.natural?_toString, if_pos hn]

/-! ## Other words -/

theorem member?_name {α : Type} [Vocabulary α] [Vocabulary.Named α] (a : α) :
    (wordNode (Vocabulary.name a)).member? = some a :=
  Vocabulary.Named.ofName?_name a

theorem optional?_word {α : Type} (read : Node → Option α) {text : String}
    (hword : IsWord text.toList) (hnull : isNullWord text = false) :
    (wordNode text).optional? read = (read (wordNode text)).map some := by
  have hne : text.isEmpty = false := by
    rw [Bool.eq_false_iff]
    intro hempty
    exact hword.1 (String.toList_eq_nil_iff.mpr (String.isEmpty_iff.mp hempty))
  simp [optional?, wordNode, hne, hnull]

end Node

end MethodFlow.Yaml
