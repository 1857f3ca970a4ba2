import MethodFlow.Yaml.Text
import MethodFlow.Yaml.Token
/-!
# Anchors, tags and directives

The parts of a document that say something about its nodes and are no nodes themselves.
-/

namespace MethodFlow.Yaml

/-- Splits off the name that stands here, which may be empty. -/
def nameAndRest (gs : List Glyph) : String × List Glyph :=
  (String.ofList ((gs.takeWhile fun g => isNameChar g.char).map (·.char)),
    gs.dropWhile fun g => isNameChar g.char)

/-! ## Anchors -/

def endsAnchor (gs : List Glyph) : Bool :=
  wordEnds gs || gs.head?.any fun g => "?:,]\x7d%@\x60".toList.contains g.char

def anchorName? (gs : List Glyph) : Option (String × List Glyph) :=
  let (name, rest) := nameAndRest gs
  if name.isEmpty || !endsAnchor rest then none else some (name, rest)

/-! ## Tags -/

/-- The number of octets of the character whose first octet this is. -/
def octetsOfFirst? (octet : Nat) : Option Nat :=
  if octet < 0x80 then some 1
  else if 0xc0 ≤ octet && octet < 0xe0 then some 2
  else if 0xe0 ≤ octet && octet < 0xf0 then some 3
  else if 0xf0 ≤ octet && octet < 0xf8 then some 4
  else none

def isUriChar (verbatim : Bool) (c : Char) : Bool :=
  isNameChar c || ";/?:@&=+$.!~*'()".toList.contains c || (verbatim && ",[]".toList.contains c)

/-- Reads the address of a tag. An octet may be written in hexadecimal after a percent sign; the
octets of one character must follow each other, of which `due` are still to come. -/
def uriRest? (verbatim : Bool) (text : List Char) (due : Nat) :
    List Glyph → Option (List Char × List Glyph)
  | [] => if due = 0 then some (text.reverse, []) else none
  | g :: rest =>
    if g.char == '%' then
      match rest with
      | high :: low :: more =>
        match hexValue? high.char, hexValue? low.char with
        | some a, some b =>
          let octet := a * 16 + b
          let text := Char.ofNat octet :: text
          if due = 0 then
            match octetsOfFirst? octet with
            | some octets => uriRest? verbatim text (octets - 1) more
            | none => none
          else if 0x80 ≤ octet && octet < 0xc0 then uriRest? verbatim text (due - 1) more
          else none
        | _, _ => none
      | _ => none
    else if due ≠ 0 then none
    else if isUriChar verbatim g.char then uriRest? verbatim (g.char :: text) 0 rest
    else some (text.reverse, g :: rest)

/-- Reads an address; the octet 0 ends its text. -/
def uri? (verbatim : Bool) (gs : List Glyph) : Option (String × List Glyph) :=
  (uriRest? verbatim [] 0 gs).map fun (text, rest) =>
    (String.ofList (text.takeWhile (· != '\x00')), rest)

def nonemptyUri? (verbatim : Bool) (gs : List Glyph) : Option (String × List Glyph) := do
  let (text, rest) ← uri? verbatim gs
  if gs.length = rest.length then none else some (text, rest)

/-- Splits off the name between the exclamation mark that stands here and the next one. -/
def handle? (gs : List Glyph) : Option (String × List Glyph) :=
  match gs with
  | g :: rest =>
    if g.char == '!' then
      match nameAndRest rest with
      | (name, h :: rest) => if h.char == '!' then some ("!" ++ name ++ "!", rest) else none
      | _ => none
    else none
  | [] => none

/-- Reads what stands for a tag after its exclamation mark: an address in angle brackets, a
handle with a suffix, or only a suffix. A tag of neither is the non-specific tag. -/
def tagName? (gs : List Glyph) : Option (TagName × List Glyph) :=
  match gs with
  | _ :: h :: rest =>
    if h.char == '<' then do
      let (address, rest) ← nonemptyUri? true rest
      match rest with
      | c :: rest => if c.char == '>' then some (⟨"", address⟩, rest) else none
      | [] => none
    else
      match handle? gs with
      | some (handle, rest) => do
        let (suffix, rest) ← nonemptyUri? false rest
        return (⟨handle, suffix⟩, rest)
      | none => do
        let (suffix, rest) ← uri? false (h :: rest)
        return (if suffix.isEmpty then ⟨"", "!"⟩ else ⟨"!", suffix⟩, rest)
  | _ => some (⟨"", "!"⟩, [])

/-- Reads a tag up to the end of the word; in a flow collection a comma may follow it. -/
def tag? (inFlow : Bool) (gs : List Glyph) : Option (TagName × List Glyph) := do
  let (name, rest) ← tagName? gs
  if wordEnds rest || (inFlow && rest.head?.any (·.char == ',')) then some (name, rest) else none

/-! ## Directives -/

/-- Reads a part of a version number, of nine digits at most. -/
def versionPart? (gs : List Glyph) : Option (Nat × List Glyph) :=
  let digits := gs.takeWhile fun g => g.char.isDigit
  if digits.isEmpty || 9 < digits.length then none
  else some (digits.foldl (fun n g => n * 10 + (g.char.toNat - '0'.toNat)) 0,
    gs.dropWhile fun g => g.char.isDigit)

def dropBlanks (gs : List Glyph) : List Glyph := gs.dropWhile fun g => isBlank g.char

def versionDirective? (gs : List Glyph) : Option (Token × List Glyph) := do
  let (major, rest) ← versionPart? (dropBlanks gs)
  match rest with
  | g :: rest =>
    if g.char == '.' then do
      let (minor, rest) ← versionPart? rest
      return (.version major minor, rest)
    else none
  | [] => none

def handleDirective? (gs : List Glyph) : Option (Token × List Glyph) := do
  let gs := dropBlanks gs
  let (name, rest) ← match handle? gs with
    | some found => some found
    | none =>
      match gs with
      | g :: rest => if g.char == '!' then some ("!", rest) else none
      | [] => none
  if rest.head?.any (fun g => isBlank g.char) then do
    let (expansion, rest) ← nonemptyUri? true (dropBlanks rest)
    if wordEnds rest then some (.handle name expansion, rest) else none
  else none

/-- Reads a directive after its percent sign, up to the end of its line. -/
def directive? (gs : List Glyph) : Option (Token × List Glyph) := do
  let (name, rest) := nameAndRest gs
  let (token, rest) ←
    if !wordEnds rest then none
    else if name == "YAML" then versionDirective? rest
    else if name == "TAG" then handleDirective? rest
    else none
  return (token, ← restOfLine? rest)

end MethodFlow.Yaml
