/-!
# Tokens of a document

Indentation becomes brackets: a block starts where a line is indented further and ends where a
line is indented less. A key is announced before it.
-/

namespace MethodFlow.Yaml

inductive Style where
  | plain
  | singleQuoted
  | doubleQuoted
  | literal
  | folded
deriving DecidableEq, Repr

/-- A tag is named by a handle, which stands for a text to put before the suffix. -/
structure TagName where
  handle : String
  suffix : String
deriving DecidableEq, Repr

inductive Token where
  | version (major minor : Nat)
  | handle (name expansion : String)
  | documentStart
  | documentEnd
  | blockSequence
  | blockMapping
  | blockEnd
  | flowSequence
  | flowSequenceEnd
  | flowMapping
  | flowMappingEnd
  | item
  | comma
  | key
  | value
  | alias (name : String)
  | anchor (name : String)
  | tag (name : TagName)
  | scalar (style : Style) (text : String)
deriving DecidableEq, Repr

end MethodFlow.Yaml
