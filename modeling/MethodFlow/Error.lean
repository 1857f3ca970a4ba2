import MethodFlow.Config.Error
/-!
# Why a program is refused

Each error holds its cause; `MethodError.message?` words it.
-/

namespace MethodFlow

inductive Site where
  | named (what : String)
  | phiDest (block : Nat)
  | phiValue (block : Nat)
  | phiSource (block : Nat)
  | instruction (kind : String) (block position : Nat)
deriving DecidableEq, Repr

def Site.text : Site → String
  | .named what => what
  | .phiDest block => s!"phi receiver in block #{block}"
  | .phiValue block => s!"phi incoming value in block #{block}"
  | .phiSource block => s!"phi incoming source in block #{block}"
  | .instruction kind block position => s!"{kind} at block #{block}, position {position}"

/-- What is wrong with an instruction by itself or by its place in the block. -/
inductive Malformation where
  | notLast (kind : String)
  | missingObject (dispatch : Dispatch) (method : MethodRef)
  | unwantedObject (method : MethodRef)
  | noDimensions
  | repeatedCase (value : Int32)
deriving DecidableEq, Repr

def Malformation.text : Malformation → String
  | .notLast kind => s!"{kind} must be the last instruction of its block"
  | .missingObject dispatch method =>
    s!"{dispatch.name} invocation of {method.text} has no instance"
  | .unwantedObject method => s!"static invocation of {method.text} has an instance"
  | .noDimensions => "multi-dimensional array construction without dimensions"
  | .repeatedCase value => s!"duplicate switch label {value.toInt}"

inductive PhiDefect where
  | notPredecessor (dest : Nat) (source : Nat)
  | repeatedSource (dest : Nat) (source : Nat)
  | missingSource (dest : Nat) (predecessor : Nat)
deriving DecidableEq, Repr

def PhiDefect.text : PhiDefect → String
  | .notPredecessor dest source =>
    s!"v{dest} has an incoming from #{source}, which is not a predecessor"
  | .repeatedSource dest source => s!"v{dest} has two incomings from #{source}"
  | .missingSource dest predecessor => s!"v{dest} has no incoming from predecessor #{predecessor}"

inductive MethodError where
  | danglingVariable (index count : Nat) (site : Site)
  | danglingLabel (index count : Nat) (site : Site)
  | malformedInstruction (block position : Nat) (defect : Malformation)
  | invalidPhi (block : Nat) (defect : PhiDefect)
  | configuration (cause : ConfigError)
deriving DecidableEq, Repr

namespace MethodError

def message? : MethodError → Option String
  | .danglingVariable index count site =>
    some s!"Dangling variable v{index} in {site.text} (program has {count} variables)"
  | .danglingLabel index count site =>
    some s!"Dangling block #{index} in {site.text} (program has {count} blocks)"
  | .malformedInstruction block position defect =>
    some s!"Malformed instruction at block #{block}, position {position}: {defect.text}"
  | .invalidPhi block defect => some s!"Invalid phi in block #{block}: {defect.text}"
  | .configuration cause => cause.message?.map fun text => s!"Configuration error: {text}"

/-- Whether the program is at fault, and not the configuration. -/
def concernsProgram : MethodError → Bool
  | .configuration _ => false
  | _ => true

end MethodError

end MethodFlow
