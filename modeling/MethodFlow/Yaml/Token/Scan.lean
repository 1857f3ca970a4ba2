import MethodFlow.Yaml.Property
import MethodFlow.Yaml.Scalar.Block
import MethodFlow.Yaml.Scalar.Flow
/-!
# From text to tokens

A scanner passes over the gap before a token, closes the blocks that the token is not part of,
and reads the token. Whether a scalar is a key is seen at the colon after it; the scanner then
puts the token for the key where the scalar began.
-/

namespace MethodFlow.Yaml

structure KeyStart where
  /-- The number of tokens before it. -/
  before : Nat
  glyph : Glyph
  /-- Whether nothing but a key may stand there. -/
  required : Bool
deriving DecidableEq, Repr

/-- A key ends on the line where it begins, within 1024 characters. -/
def KeyStart.isStale (k : KeyStart) (g : Glyph) : Bool :=
  k.glyph.line < g.line || k.glyph.index + 1024 < g.index

structure Scanner where
  rest : List Glyph
  /-- The columns of the open blocks, innermost first. -/
  blocks : List Nat
  keyStart : Option KeyStart
  /-- Where a key may have begun around each open flow collection, innermost first. -/
  outer : List (Option KeyStart)
  /-- Whether a key may begin here. -/
  keyAllowed : Bool
  /-- The tokens read so far, last first. -/
  tokens : List Token
  count : Nat
deriving Repr

namespace Scanner

def ofGlyphs (gs : List Glyph) : Scanner := ⟨gs, [], none, [], true, [], 0⟩

def inFlow (s : Scanner) : Bool := !s.outer.isEmpty

/-- The least column of the content of the innermost block. -/
def floor (s : Scanner) : Nat :=
  match s.blocks with
  | [] => 0
  | column :: _ => column + 1

def emit (s : Scanner) (t : Token) (rest : List Glyph) : Scanner :=
  { s with rest, tokens := t :: s.tokens, count := s.count + 1 }

/-! ## Gaps -/

/-- Passes over white space and comments, and tells whether a key may begin after them. A tab is
no space where a key might begin in a block, and a byte order mark may begin a line. -/
def skipGap (inFlow : Bool) (inComment keyAllowed : Bool) : List Glyph → Bool × List Glyph
  | [] => (keyAllowed, [])
  | g :: rest =>
    if isBreak g.char then skipGap inFlow false (keyAllowed || !inFlow) rest
    else if inComment then skipGap inFlow true keyAllowed rest
    else if g.char == '#' then skipGap inFlow true keyAllowed rest
    else if g.char == ' ' || (g.char == '\t' && (inFlow || !keyAllowed)) ||
        (g.char == '\ufeff' && g.column == 0) then
      skipGap inFlow false keyAllowed rest
    else (keyAllowed, g :: rest)

/-! ## Keys -/

/-- Gives up a place where a key may have begun, once it is too far back. -/
def freshAt? (g : Glyph) : Option KeyStart → Option (Option KeyStart)
  | none => some none
  | some k => if !k.isStale g then some (some k) else if k.required then none else some none

/-- Gives up the place where a key may have begun, because none has. -/
def dropKey? (s : Scanner) : Option Scanner :=
  match s.keyStart with
  | some k => if k.required then none else some { s with keyStart := none }
  | none => some s

/-- Notes that a key may begin at a glyph. -/
def saveKey? (s : Scanner) (g : Glyph) : Option Scanner :=
  if s.keyAllowed then do
    let s ← s.dropKey?
    return { s with keyStart := some ⟨s.count, g, !s.inFlow && s.floor == g.column + 1⟩ }
  else some s

/-! ## Blocks -/

def openBlock (s : Scanner) (column : Nat) (t : Token) : Scanner :=
  if !s.inFlow && s.floor ≤ column then
    { s with blocks := column :: s.blocks, tokens := t :: s.tokens, count := s.count + 1 }
  else s

/-- Closes the blocks that start after a column. -/
def closeBlocks (s : Scanner) (column : Nat) : Scanner :=
  if s.inFlow then s
  else
    let closed := (s.blocks.takeWhile (column < ·)).length
    { s with
      blocks := s.blocks.drop closed
      tokens := List.replicate closed .blockEnd ++ s.tokens
      count := s.count + closed }

def closeAllBlocks (s : Scanner) : Scanner :=
  if s.inFlow then s
  else
    { s with
      blocks := []
      tokens := List.replicate s.blocks.length .blockEnd ++ s.tokens
      count := s.count + s.blocks.length }

/-- Announces the key that began at `k`, and a mapping if it is the first key of one. -/
def announceKey (s : Scanner) (k : KeyStart) : Scanner :=
  let later := s.tokens.take (s.count - k.before)
  let earlier := { s with tokens := s.tokens.drop (s.count - k.before), count := k.before }
  let s := earlier.openBlock k.glyph.column .blockMapping
  { s with
    tokens := later ++ .key :: s.tokens
    count := s.count + 1 + later.length }

/-! ## Single tokens -/

def startFlow? (s : Scanner) (g : Glyph) (t : Token) (rest : List Glyph) : Option Scanner := do
  let s ← s.saveKey? g
  return { s.emit t rest with
    keyStart := none, outer := s.keyStart :: s.outer, keyAllowed := true }

def endFlow? (s : Scanner) (t : Token) (rest : List Glyph) : Option Scanner := do
  let s ← s.dropKey?
  let (keyStart, outer) := match s.outer with
    | k :: outer => (k, outer)
    | [] => (none, [])
  return { s.emit t rest with keyStart, outer, keyAllowed := false }

def comma? (s : Scanner) (rest : List Glyph) : Option Scanner := do
  let s ← s.dropKey?
  return { s.emit .comma rest with keyAllowed := true }

/-- Opens a block at an indicator that stands for itself, where a key could begin too. -/
def indicate? (s : Scanner) (column : Nat) (t : Token) : Option Scanner :=
  if s.inFlow then some s else if s.keyAllowed then some (s.openBlock column t) else none

def item? (s : Scanner) (g : Glyph) (rest : List Glyph) : Option Scanner := do
  let s ← s.indicate? g.column .blockSequence
  let s ← s.dropKey?
  return { s.emit .item rest with keyAllowed := true }

def explicitKey? (s : Scanner) (g : Glyph) (rest : List Glyph) : Option Scanner := do
  let s ← s.indicate? g.column .blockMapping
  let s ← s.dropKey?
  return { s.emit .key rest with keyAllowed := !s.inFlow }

def value? (s : Scanner) (g : Glyph) (rest : List Glyph) : Option Scanner :=
  match s.keyStart with
  | some k => some { (s.announceKey k).emit .value rest with keyStart := none, keyAllowed := false }
  | none => do
    let s ← s.indicate? g.column .blockMapping
    return { s.emit .value rest with keyAllowed := !s.inFlow }

def keyPart? (s : Scanner) (g : Glyph) (found : Option (Token × List Glyph)) :
    Option Scanner := do
  let s ← s.saveKey? g
  let (t, rest) ← found
  return { s.emit t rest with keyAllowed := false }

def plainScalar? (s : Scanner) (g : Glyph) (rest : List Glyph) : Option Scanner := do
  let s ← s.saveKey? g
  let p ← plain? s.inFlow s.floor (g :: rest)
  return { s.emit (.scalar .plain (String.ofList p.text)) p.rest with keyAllowed := p.broken }

def quotedScalar? (s : Scanner) (g : Glyph) (style : Style)
    (found : Option (List Char × List Glyph)) : Option Scanner :=
  s.keyPart? g (found.map fun (text, rest) => (.scalar style (String.ofList text), rest))

def blockScalar? (s : Scanner) (isFolded : Bool) (rest : List Glyph) : Option Scanner := do
  let s ← s.dropKey?
  let (text, rest) ← Yaml.blockScalar? isFolded s.floor rest
  let style := if isFolded then Style.folded else .literal
  return { s.emit (.scalar style (String.ofList text)) rest with keyAllowed := true }

def documentMarker? (s : Scanner) (m : Marker) (rest : List Glyph) : Option Scanner := do
  let s ← s.closeAllBlocks.dropKey?
  let t := match m with
    | .start => Token.documentStart
    | .stop => .documentEnd
  return { s.emit t (rest.drop 2) with keyAllowed := false }

def directive? (s : Scanner) (rest : List Glyph) : Option Scanner := do
  let s ← s.closeAllBlocks.dropKey?
  let (t, rest) ← Yaml.directive? rest
  return { s.emit t rest with keyAllowed := false }

def startsPlain (inFlow : Bool) (c : Char) (rest : List Glyph) : Bool :=
  if c == '-' then !rest.head?.any fun g => isBlank g.char
  else if c == '?' || c == ':' then !inFlow && !wordEnds rest
  else !isFlowIndicator c && !"#&*!|>'\"%@\x60".toList.contains c && !isSpace c

def token? (s : Scanner) (g : Glyph) (rest : List Glyph) : Option Scanner :=
  if g.column == 0 && g.char == '%' then s.directive? rest
  else
    match marker? (g :: rest) with
    | some m => s.documentMarker? m rest
    | none =>
      match g.char with
      | '[' => s.startFlow? g .flowSequence rest
      | '\x7b' => s.startFlow? g .flowMapping rest
      | ']' => s.endFlow? .flowSequenceEnd rest
      | '\x7d' => s.endFlow? .flowMappingEnd rest
      | ',' => s.comma? rest
      | '*' => s.keyPart? g ((anchorName? rest).map fun (name, rest) => (.alias name, rest))
      | '&' => s.keyPart? g ((anchorName? rest).map fun (name, rest) => (.anchor name, rest))
      | '!' => s.keyPart? g ((tag? s.inFlow (g :: rest)).map fun (name, rest) => (.tag name, rest))
      | '\'' => s.quotedScalar? g .singleQuoted (singleQuoted? rest)
      | '"' => s.quotedScalar? g .doubleQuoted (doubleQuoted? rest)
      | c =>
        if c == '-' && wordEnds rest then s.item? g rest
        else if c == '?' && (s.inFlow || wordEnds rest) then s.explicitKey? g rest
        else if c == ':' && (s.inFlow || wordEnds rest) then s.value? g rest
        else if c == '|' && !s.inFlow then s.blockScalar? false rest
        else if c == '>' && !s.inFlow then s.blockScalar? true rest
        else if startsPlain s.inFlow c rest then s.plainScalar? g rest
        else none

def finish? (s : Scanner) : Option (List Token) := do
  let s ← s.closeAllBlocks.dropKey?
  return s.tokens.reverse

/-- Reads a gap and the token after it, or finds the end of the text. -/
def advance? (s : Scanner) : Option (Scanner ⊕ List Token) := do
  let (keyAllowed, rest) := skipGap s.inFlow false s.keyAllowed s.rest
  let s := { s with keyAllowed, rest }
  match rest with
  | [] => return .inr (← s.finish?)
  | g :: more =>
    let keyStart ← freshAt? g s.keyStart
    let outer ← s.outer.mapM (freshAt? g)
    let s := { s with keyStart, outer }
    return .inl (← (s.closeBlocks g.column).token? g more)

/-- Reads the tokens up to the end, in a number of steps that is bounded. -/
def run? : Nat → Scanner → Option (List Token)
  | 0, _ => none
  | steps + 1, s => do
    match ← s.advance? with
    | .inl s => s.run? steps
    | .inr tokens => return tokens

end Scanner

/-- The tokens of a text. Each step but the last reads a character at least, so the bound on the
steps is never met. -/
def tokens? (gs : List Glyph) : Option (List Token) :=
  (Scanner.ofGlyphs gs).run? (gs.length + 1)

end MethodFlow.Yaml
