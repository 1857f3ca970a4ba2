import MethodFlow.Program.Encoding
import MethodFlow.Proofs.Encoding
import MethodFlow.Proofs.Verification.Operands
/-!
# Programs read back as they were written

A program that carries no floating-point number is read back from its form unchanged, whatever
its blocks call themselves and whatever they hold: nothing here asks for a well-formed program.
Two programs with one form are therefore the same program.

* `Instruction.ofBody?_body`: the parts of an instruction, read under the key of its kind, give
  the instruction back;
* `lossless_encoding`: a program is read back, and no other has its form.
-/

namespace MethodFlow

instance : Lossless SwitchCase where
  decode_encode row := by
    unfold instCodecSwitchCase
    simp

instance : Lossless Invocation where
  decode_encode call := by
    unfold instCodecInvocation
    simp

def DynamicInvocation.hasFloating (call : DynamicInvocation) : Bool :=
  call.bootstrapArguments.any Constant.isFloating

theorem decode_encode_dynamicInvocation {call : DynamicInvocation} (h : call.hasFloating = false) :
    decode (encode call) = some call := by
  have harguments : decode (encode call.bootstrapArguments) = some call.bootstrapArguments :=
    decode_encode_list fun c hc =>
      decode_encode_constant (by simpa using List.any_eq_false.mp h c hc)
  unfold instCodecDynamicInvocation
  simp [harguments]

namespace Instruction

def hasFloating : Instruction → Bool
  | .floatConstant .. | .doubleConstant .. => true
  | .invokeDynamic call => call.hasFloating
  | _ => false

theorem ofBody?_body {i : Instruction} (h : i.hasFloating = false) :
    ofBody? i.key i.body = some i := by
  cases i with
  | floatConstant => cases h
  | doubleConstant => cases h
  | invokeDynamic call =>
    have hcall : decode (encode call) = some call := decode_encode_dynamicInvocation h
    simp [key, body, ofBody?, hcall]
  | _ => simp [key, body, ofBody?]

end Instruction

theorem decode_encode_instruction {i : Instruction} (h : i.hasFloating = false) :
    decode (encode i) = some i := by
  change Instruction.ofBody? i.key i.body = some i
  exact Instruction.ofBody?_body h

instance : Lossless Incoming where
  decode_encode i := by
    unfold instCodecIncoming
    simp

instance : Lossless Phi where
  decode_encode phi := by
    unfold instCodecPhi
    simp

instance : Lossless VariableInfo where
  decode_encode info := by
    unfold instCodecVariableInfo
    simp

def Block.FloatFree (b : Block) : Prop := ∀ i ∈ b.instructions, i.hasFloating = false

instance (b : Block) : Decidable b.FloatFree :=
  inferInstanceAs (Decidable (∀ i ∈ b.instructions, i.hasFloating = false))

theorem decode_encode_block {b : Block} (h : b.FloatFree) : decode (encode b) = some b := by
  have hinstructions : decode (encode b.instructions) = some b.instructions :=
    decode_encode_list fun i hi => decode_encode_instruction (h i hi)
  unfold instCodecBlock
  simp [hinstructions]

def Program.FloatFree (p : Program) : Prop := ∀ b ∈ p.blocks, b.FloatFree

instance (p : Program) : Decidable p.FloatFree :=
  inferInstanceAs (Decidable (∀ b ∈ p.blocks, b.FloatFree))

theorem decode_encode_program {p : Program} (h : p.FloatFree) : decode (encode p) = some p := by
  have hblocks : decode (encode p.blocks) = some p.blocks :=
    decode_encode_array fun b hb => decode_encode_block (h b hb)
  unfold instCodecProgram
  simp [hblocks]

/-- A program that carries no floating-point number is read back from its form, and no other such
program has that form. -/
theorem encoding_is_faithful {p : Program} (h : p.FloatFree) :
    decode (encode p) = some p ∧
      ∀ q : Program, q.FloatFree → encode q = encode p → q = p := by
  have hp : decode (encode p) = some p := decode_encode_program h
  refine ⟨hp, fun q hfree hform => ?_⟩
  have hq : decode (encode q) = some q := decode_encode_program hfree
  rw [hform, hp] at hq
  exact (Option.some.inj hq).symm

/-- A block that calls itself by the number of another, and a call through a bootstrap method. -/
def bootstrapped (dispatch : Dispatch) : Program where
  blocks := #[
    ⟨1, [⟨0, [⟨0, 1⟩, ⟨9, 2⟩]⟩], [
      .invoke ⟨dispatch, ⟨"A", "m", ["I", "LB;"], "V"⟩, some 1, [2], none⟩,
      .invokeDynamic ⟨"run", "()V", ⟨.invokeStatic, "A", "link", "()V"⟩,
        [.int (-3), .long 4, .type "LB;", .methodHandle ⟨.getField, "A", "f", "I"⟩],
        none, [0, 1], some 2⟩,
      .switch 0 [⟨7, 0⟩, ⟨8, 1⟩, ⟨-9, 0⟩] 1]⟩]
  infos := #[⟨some "this"⟩, ⟨none⟩]

theorem bootstrapped_is_faithful :
    (bootstrapped .virtual).FloatFree ∧
      decode (encode (bootstrapped .virtual)) = some (bootstrapped .virtual) ∧
      encode (bootstrapped .interface) ≠ encode (bootstrapped .virtual) := by
  have hfree : (bootstrapped .virtual).FloatFree := by decide
  have hother : (bootstrapped .interface).FloatFree := by decide
  obtain ⟨hread, hunique⟩ := encoding_is_faithful hfree
  refine ⟨hfree, hread, fun hform => ?_⟩
  have hsame := hunique _ hother hform
  simp [bootstrapped] at hsame

end MethodFlow
