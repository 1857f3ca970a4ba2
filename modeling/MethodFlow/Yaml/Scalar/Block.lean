import MethodFlow.Yaml.Text
/-!
# Block scalars

A literal scalar keeps its line breaks and a folded one joins its lines. Its lines are indented;
the indentation is announced in the header or found from the first lines.
-/

namespace MethodFlow.Yaml

inductive Chomping where
  | strip
  | clip
  | keep
deriving DecidableEq, Repr

structure BlockHeader where
  chomping : Chomping
  /-- The announced indentation, relative to the block around the scalar. -/
  increment? : Option Nat
deriving DecidableEq, Repr

def chomping? (c : Char) : Option Chomping :=
  if c == '+' then some .keep else if c == '-' then some .strip else none

/-- Reads the two indicators, which may come in either order. -/
def headerIndicators (gs : List Glyph) : BlockHeader × List Glyph :=
  match gs with
  | [] => (⟨.clip, none⟩, [])
  | g :: rest =>
    match chomping? g.char with
    | some chomping =>
      match rest with
      | d :: more =>
        if d.char.isDigit then (⟨chomping, hexValue? d.char⟩, more) else (⟨chomping, none⟩, rest)
      | [] => (⟨chomping, none⟩, [])
    | none =>
      if g.char.isDigit then
        match rest.head?.bind fun c => chomping? c.char with
        | some chomping => (⟨chomping, hexValue? g.char⟩, rest.tail)
        | none => (⟨.clip, hexValue? g.char⟩, rest)
      else (⟨.clip, none⟩, g :: rest)

/-- Reads a header up to the end of its line; an announced indentation of 0 is refused. -/
def blockHeader? (gs : List Glyph) : Option (BlockHeader × List Glyph) :=
  let (header, rest) := headerIndicators gs
  if header.increment? = some 0 then none
  else (restOfLine? rest).map fun rest => (header, rest)

/-- The width of the widest indentation up to the first line with text; no tab may occur in it. -/
def widestIndent? (widest : Nat) : List Glyph → Option Nat
  | [] => some widest
  | g :: rest =>
    if g.char == ' ' then widestIndent? (max widest (g.column + 1)) rest
    else if g.char == '\t' then none
    else if isBreak g.char then widestIndent? widest rest
    else some widest

/-- The column at which the lines of a scalar start; `floor` is the least that they can have. -/
def blockIndent? (floor : Nat) (header : BlockHeader) (gs : List Glyph) : Option Nat :=
  match header.increment? with
  | some n => some (floor - 1 + n)
  | none => (widestIndent? 0 gs).map fun widest => max (max widest floor) 1

/-- The lines read so far, last character first. -/
structure BlockText where
  text : List Char
  /-- The break after the last line. -/
  ending : List Char
  /-- The breaks of the empty lines after it. -/
  blankLines : List Char
  /-- Whether the last line starts with a blank, which keeps its breaks from being folded. -/
  indented : Bool

namespace BlockText

def empty : BlockText := ⟨[], [], [], false⟩

def start (isFolded : Bool) (b : BlockText) (c : Char) : BlockText :=
  let folds := isFolded && b.ending == ['\n'] && !b.indented && !isBlank c
  let space := if !folds then b.ending else if b.blankLines.isEmpty then [' '] else []
  ⟨c :: (b.blankLines ++ space ++ b.text), [], [], isBlank c⟩

def value (chomping : Chomping) (b : BlockText) : List Char :=
  match chomping with
  | .strip => b.text.reverse
  | .clip => (b.ending ++ b.text).reverse
  | .keep => (b.blankLines ++ b.ending ++ b.text).reverse

end BlockText

def blockLines? (isFolded : Bool) (indent : Nat) (b : BlockText) (inLine : Bool) :
    List Glyph → Option (BlockText × List Glyph)
  | [] => some (b, [])
  | g :: rest =>
    if inLine then
      if isBreak g.char then blockLines? isFolded indent { b with ending := [g.char] } false rest
      else blockLines? isFolded indent { b with text := g.char :: b.text } true rest
    else if isBreak g.char then
      blockLines? isFolded indent { b with blankLines := g.char :: b.blankLines } false rest
    else if g.column < indent then
      if g.char == ' ' then blockLines? isFolded indent b false rest
      else if g.char == '\t' then none
      else some (b, g :: rest)
    else blockLines? isFolded indent (b.start isFolded g.char) true rest

def blockScalar? (isFolded : Bool) (floor : Nat) (gs : List Glyph) :
    Option (List Char × List Glyph) := do
  let (header, gs) ← blockHeader? gs
  let indent ← blockIndent? floor header gs
  let (b, rest) ← blockLines? isFolded indent .empty false gs
  return (b.value header.chomping, rest)

end MethodFlow.Yaml
