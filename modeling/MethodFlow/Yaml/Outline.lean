/-!
# Outlines

A document of nested keys with plain words, as it is written: one key on each line, what belongs
to a key indented by two more columns, and the items of a list under their key.
-/

namespace MethodFlow.Yaml

/-- The keys of a mapping, in order. -/
inductive Outline where
  | done
  | word (key text : String) (more : Outline)
  | words (key : String) (items : List String) (more : Outline)
  | block (key : String) (content more : Outline)
deriving DecidableEq, Repr

namespace Outline

def isEmpty : Outline → Bool
  | .done => true
  | _ => false

def indentation (depth : Nat) : String := String.ofList (List.replicate (2 * depth) ' ')

/-- The lines of a list, or the sign for an empty one. -/
def itemsText (depth : Nat) : List String → String
  | [] => " []\n"
  | items => "\n" ++ String.join (items.map fun item => indentation depth ++ "- " ++ item ++ "\n")

def text (depth : Nat) : Outline → String
  | .done => ""
  | .word key text more => indentation depth ++ key ++ ": " ++ text ++ "\n" ++ more.text depth
  | .words key items more =>
    indentation depth ++ key ++ ":" ++ itemsText depth items ++ more.text depth
  | .block key content more =>
    let inner := if content.isEmpty then " \x7b\x7d\n" else "\n" ++ content.text (depth + 1)
    indentation depth ++ key ++ ":" ++ inner ++ more.text depth

end Outline

end MethodFlow.Yaml
