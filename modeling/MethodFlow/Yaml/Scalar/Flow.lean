import MethodFlow.Yaml.Text
/-!
# Plain and quoted scalars

A scalar of these styles may go on over several lines. White space inside it is kept; a gap with
line breaks is folded: one break is a space, and of several the first is left out.

A reader goes over the text once. It keeps what it has read, last character first, and the gap
that it has passed since.
-/

namespace MethodFlow.Yaml

/-- What stands for a gap in the value of a scalar. -/
def folded (gap : List Char) : List Char :=
  match gap.filter isBreak with
  | [] => gap
  | ['\n'] => [' ']
  | '\n' :: more => more
  | breaks => breaks

/-- Appends a gap and a character to a text; both lists hold the last character first. -/
def joined (text gap : List Char) (c : Char) : List Char :=
  c :: ((folded gap.reverse).reverse ++ text)

/-! ## Plain scalars -/

def isFlowIndicator (c : Char) : Bool := c == ',' || c == '[' || c == ']' || c == '{' || c == '}'

/-- Whether a plain scalar ends before this character: at the colon of a key, and in a flow
collection at its indicators. -/
def endsPlain (inFlow : Bool) (c : Char) (rest : List Glyph) : Bool :=
  (c == ':' && wordEnds rest) || (inFlow && isFlowIndicator c)

/-- Whether a colon is stuck to an indicator of the flow collection. -/
def isStuckColon (inFlow : Bool) (c : Char) (rest : List Glyph) : Bool :=
  inFlow && c == ':' && rest.head?.any fun g => isFlowIndicator g.char || g.char == '?'

/-- Whether a plain scalar does not go on at this character after a gap: a marker or a comment
stands there, or it is too far left. -/
def endsPlainGap (inFlow : Bool) (floor : Nat) (gs : List Glyph) : Bool :=
  match gs with
  | [] => true
  | g :: _ => (marker? gs).isSome || g.char == '#' || (!inFlow && g.column < floor)

structure PlainRest where
  text : List Char
  /-- Whether a line break follows the text. -/
  broken : Bool
  rest : List Glyph
deriving DecidableEq, Repr

/-- Reads a plain scalar whose lines start at column `floor` or after it. -/
def plainRest? (inFlow : Bool) (floor : Nat) (text gap : List Char) :
    List Glyph → Option PlainRest
  | [] => some ⟨text.reverse, gap.any isBreak, []⟩
  | g :: rest =>
    if isSpace g.char then
      if g.char == '\t' && g.column < floor && gap.any isBreak then none
      else plainRest? inFlow floor text (g.char :: gap) rest
    else if !gap.isEmpty && endsPlainGap inFlow floor (g :: rest) then
      some ⟨text.reverse, gap.any isBreak, g :: rest⟩
    else if isStuckColon inFlow g.char rest then none
    else if endsPlain inFlow g.char rest then
      some ⟨text.reverse, gap.any isBreak, g :: rest⟩
    else plainRest? inFlow floor (joined text gap g.char) [] rest

def plain? (inFlow : Bool) (floor : Nat) (gs : List Glyph) : Option PlainRest :=
  plainRest? inFlow floor [] [] gs

/-! ## Quoted scalars -/

/-- Reads a scalar in single quotes, in which a quote is written twice, up to its end. -/
def singleRest? (text gap : List Char) : List Glyph → Option (List Char × List Glyph)
  | [] => none
  | g :: rest =>
    if isSpace g.char then singleRest? text (g.char :: gap) rest
    else if (marker? (g :: rest)).isSome then none
    else if g.char == '\'' then
      match rest with
      | h :: more =>
        if h.char == '\'' then singleRest? (joined text gap '\'') [] more
        else some (((folded gap.reverse).reverse ++ text).reverse, rest)
      | [] => some (((folded gap.reverse).reverse ++ text).reverse, rest)
    else singleRest? (joined text gap g.char) [] rest

def singleQuoted? (gs : List Glyph) : Option (List Char × List Glyph) := singleRest? [] [] gs

def escaped? : Char → Option Char
  | '0' => some '\x00'
  | 'a' => some '\x07'
  | 'b' => some '\x08'
  | 't' => some '\t'
  | '\t' => some '\t'
  | 'n' => some '\n'
  | 'v' => some '\x0b'
  | 'f' => some '\x0c'
  | 'r' => some '\r'
  | 'e' => some '\x1b'
  | ' ' => some ' '
  | '"' => some '"'
  | '/' => some '/'
  | '\\' => some '\\'
  | 'N' => some '\u0085'
  | '_' => some '\u00a0'
  | 'L' => some '\u2028'
  | 'P' => some '\u2029'
  | _ => none

/-- The number of digits of an escape that gives the code of its character. -/
def codeDigits? : Char → Option Nat
  | 'x' => some 2
  | 'u' => some 4
  | 'U' => some 8
  | _ => none

def charOfCode? (code : Nat) : Option Char :=
  if code.isValidChar then some (Char.ofNat code) else none

inductive Quoting where
  /-- Text, after a gap that may have begun with an escaped line break. -/
  | text (spliced : Bool) (gap : List Char)
  | escape
  /-- The digits of a code, of which some are still to come. -/
  | code (left value : Nat)

/-- What stands for a gap in double quotes. After an escaped line break only breaks count. -/
def quotedGap (spliced : Bool) (gap : List Char) : List Char :=
  if spliced then gap.filter isBreak else folded gap

/-- Reads a scalar in double quotes up to its end. -/
def doubleRest? (text : List Char) : Quoting → List Glyph → Option (List Char × List Glyph)
  | _, [] => none
  | .text spliced gap, g :: rest =>
    if isSpace g.char then doubleRest? text (.text spliced (g.char :: gap)) rest
    else if (marker? (g :: rest)).isSome then none
    else
      let text := (quotedGap spliced gap.reverse).reverse ++ text
      if g.char == '"' then some (text.reverse, rest)
      else if g.char == '\\' then doubleRest? text .escape rest
      else doubleRest? (g.char :: text) (.text false []) rest
  | .escape, g :: rest =>
    if isBreak g.char then doubleRest? text (.text true []) rest
    else
      match codeDigits? g.char with
      | some digits => doubleRest? text (.code digits 0) rest
      | none =>
        match escaped? g.char with
        | some c => doubleRest? (c :: text) (.text false []) rest
        | none => none
  | .code left value, g :: rest =>
    match hexValue? g.char with
    | none => none
    | some digit =>
      if 1 < left then doubleRest? text (.code (left - 1) (value * 16 + digit)) rest
      else
        match charOfCode? (value * 16 + digit) with
        | some c => doubleRest? (c :: text) (.text false []) rest
        | none => none

def doubleQuoted? (gs : List Glyph) : Option (List Char × List Glyph) :=
  doubleRest? [] (.text false []) gs

end MethodFlow.Yaml
