import MethodFlow.Instruction.Encoding
import MethodFlow.Program
/-!
# The form of a program
-/

namespace MethodFlow

instance : Codec Incoming where
  encode i := .record [("source", encode i.source), ("value", encode i.value)]
  decode d := return { source := ← d.field "source", value := ← d.field "value" }

instance : Codec Phi where
  encode p := .record [("receiver", encode p.dest), ("incomings", encode p.incomings)]
  decode d := return { dest := ← d.field "receiver", incomings := ← d.field "incomings" }

instance : Codec Block where
  encode b := .record [
    ("index", encode b.label),
    ("phis", encode b.phis),
    ("instructions", encode b.instructions)]
  decode d := return {
    label := ← d.field "index"
    phis := ← d.field "phis"
    instructions := ← d.field "instructions" }

instance : Codec VariableInfo where
  encode v := .record [("debug_name", encode v.sourceName)]
  decode d := return { sourceName := ← d.field "debug_name" }

instance : Codec Program where
  encode p := .record [("blocks", encode p.blocks), ("variables", encode p.infos)]
  decode d := return { blocks := ← d.field "blocks", infos := ← d.field "variables" }

end MethodFlow
