/-!
# The characters of a document

A document is read as a list of characters that know their place, because the place decides what
a character means: the column of a word says which block it belongs to.
-/

namespace MethodFlow.Yaml

/-- Whether a document may hold the character as it is. -/
def isPrintable (c : Char) : Bool :=
  c == '\t' || c == '\n' || c == '\r' || (' ' ≤ c && c ≤ '~') || c == '\u0085' ||
    ('\u00a0' ≤ c && c != '\ufffe' && c != '\uffff')

/-- Writes every line break as a line feed, but for the two separators of Unicode. -/
def unifyBreaks : List Char → List Char
  | [] => []
  | '\r' :: '\n' :: rest => '\n' :: unifyBreaks rest
  | c :: rest => (if c == '\r' || c == '\u0085' then '\n' else c) :: unifyBreaks rest

def isBreak (c : Char) : Bool := c == '\n' || c == '\u2028' || c == '\u2029'

def isBlank (c : Char) : Bool := c == ' ' || c == '\t'

def isSpace (c : Char) : Bool := isBlank c || isBreak c

/-- The characters of names: of anchors, tag handles and directives. -/
def isNameChar (c : Char) : Bool := c.isAlphanum || c == '_' || c == '-'

def hexValue? (c : Char) : Option Nat :=
  if c.isDigit then some (c.toNat - '0'.toNat)
  else if 'a' ≤ c && c ≤ 'f' then some (c.toNat - 'a'.toNat + 10)
  else if 'A' ≤ c && c ≤ 'F' then some (c.toNat - 'A'.toNat + 10)
  else none

/-- A character with its line, its column in that line, and its index in the document. -/
structure Glyph where
  char : Char
  line : Nat
  column : Nat
  index : Nat
deriving DecidableEq, Repr

def locateFrom (line column index : Nat) : List Char → List Glyph
  | [] => []
  | c :: rest =>
    ⟨c, line, column, index⟩ ::
      (if isBreak c then locateFrom (line + 1) 0 (index + 1) rest
      else locateFrom line (column + 1) (index + 1) rest)

/-- The glyphs of a text, if a document may hold all its characters. -/
def locate? (text : String) : Option (List Glyph) :=
  if text.toList.all isPrintable then some (locateFrom 0 0 0 (unifyBreaks text.toList)) else none

/-- Whether a word ends here: at white space or at the end of the text. -/
def wordEnds : List Glyph → Bool
  | [] => true
  | g :: _ => isSpace g.char

inductive Marker where
  | start
  | stop
deriving DecidableEq, Repr

/-- The document marker that stands here, which it does at the beginning of a line only. -/
def marker? : List Glyph → Option Marker
  | a :: b :: c :: rest =>
    if a.column == 0 && wordEnds rest then
      if a.char == '-' && b.char == '-' && c.char == '-' then some .start
      else if a.char == '.' && b.char == '.' && c.char == '.' then some .stop
      else none
    else none
  | _ => none

/-- Passes over blanks, then over a comment, up to the end of the line and its break. -/
def restOfLine? (gs : List Glyph) : Option (List Glyph) :=
  match gs.dropWhile fun g => isBlank g.char with
  | [] => some []
  | g :: rest =>
    if isBreak g.char then some rest
    else if g.char == '#' then some ((rest.dropWhile fun g => !isBreak g.char).tail)
    else none

end MethodFlow.Yaml
