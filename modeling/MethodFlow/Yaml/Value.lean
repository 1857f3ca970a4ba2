import MethodFlow.Symbol
import MethodFlow.Yaml.Node
/-!
# Values of nodes

What a node says, read as a value of a type that is expected. The style and the tag of a scalar
decide whether its text may be taken for a number or for nothing at all.
-/

namespace MethodFlow.Yaml

/-- The number in digits of a base; there must be one digit at least. -/
def digits? (base : Nat) (cs : List Char) : Option Nat :=
  if cs.isEmpty then none
  else
    cs.foldlM
      (fun n c =>
        match hexValue? c with
        | some d => if d < base then some (n * base + d) else none
        | none => none)
      0

/-- Reads a natural number: decimal without leading zeros, or of a base named by its first two
characters. A plus sign may stand before it. -/
def natural? (text : String) : Option Nat :=
  let cs := match text.toList with
    | '+' :: rest => rest
    | cs => cs
  match cs with
  | '0' :: 'x' :: rest => digits? 16 rest
  | '0' :: 'o' :: rest => digits? 8 rest
  | '0' :: 'b' :: rest => digits? 2 rest
  | '0' :: _ :: _ => none
  | cs => digits? 10 cs

def isNullWord (text : String) : Bool := ["~", "null", "Null", "NULL"].contains text

namespace Node

def text? : Node → Option String
  | .scalar _ _ text => some text
  | _ => none

/-- The text of a scalar that may stand for a value of a type with this tag: a plain scalar, or a
literal one that is tagged so. -/
def valueText? (tag : String) : Node → Option String
  | .scalar .plain _ text => some text
  | .scalar .literal tag? text => if tag? = some tag then some text else none
  | _ => none

def natural? (limit : Nat) (node : Node) : Option Nat := do
  let n ← Yaml.natural? (← node.valueText? "tag:yaml.org,2002:int")
  if n < limit then some n else none

def bool? (node : Node) : Option Bool := do
  let text ← node.valueText? "tag:yaml.org,2002:bool"
  if ["true", "True", "TRUE"].contains text then some true
  else if ["false", "False", "FALSE"].contains text then some false
  else none

/-- Reads a value that may be absent, for which a plain scalar can be empty or a null word. -/
def optional? {α : Type} (read : Node → Option α) (node : Node) : Option (Option α) :=
  match node with
  | .scalar .plain none text =>
    if text.isEmpty || isNullWord text then some none else (read node).map some
  | .scalar .plain (some tag) text =>
    if tag != "tag:yaml.org,2002:null" then (read node).map some
    else if isNullWord text then some none
    else none
  | _ => (read node).map some

/-- The items of a sequence; one that is left out has none. -/
def items? : Node → Option (List Node)
  | .sequence items => some items
  | .scalar .plain _ text => if text.isEmpty then some [] else none
  | _ => none

/-- A member of a vocabulary goes by its name, or by a tag of that name on nothing. -/
def member? {α : Type} [Vocabulary α] : Node → Option α
  | .scalar style tag? text =>
    match tag?.map String.toList with
    | some ('!' :: name) =>
      if style = .plain && (text.isEmpty || isNullWord text) then
        Vocabulary.ofName? (String.ofList name)
      else none
    | _ => Vocabulary.ofName? text
  | _ => none

/-- The entries of a mapping with known keys, none of them twice. -/
def fields? (known : List String) : Node → Option (List (String × Node))
  | .mapping entries => do
    let fields ← entries.mapM fun (key, value) => return (← key.text?, value)
    let keys := fields.map Prod.fst
    if keys.all known.contains && keys.eraseDups.length = keys.length then some fields else none
  | _ => none

end Node

end MethodFlow.Yaml
