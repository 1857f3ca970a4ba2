import MethodFlow.Yaml.Token.Scan
/-!
# Documents as trees

The tokens of a document are read into a tree of scalars, sequences and mappings. An alias stands
for the node that its anchor named last.

The readers take a bound on their depth. Of four that call each other one reads a token at least,
so four times the number of tokens is enough.
-/

namespace MethodFlow.Yaml

inductive Node where
  | scalar (style : Style) (tag? : Option String) (text : String)
  | sequence (items : List Node)
  | mapping (entries : List (Node × Node))
deriving Repr

def Node.empty (tag? : Option String) : Node := .scalar .plain tag? ""

/-! ## Tags -/

abbrev Handles := List (String × String)

def standardHandles : Handles := [("!", "!"), ("!!", "tag:yaml.org,2002:")]

/-- The full text of a tag; a handle must be known. -/
def TagName.expand? (handles : Handles) (t : TagName) : Option String :=
  if t.handle.isEmpty then some t.suffix
  else (handles.lookup t.handle).map fun expansion => expansion ++ t.suffix

structure Properties where
  anchor? : Option String
  tag? : Option TagName
deriving DecidableEq, Repr

/-- Splits off the anchor and the tag before a node, which may come in either order. -/
def Properties.split : List Token → Properties × List Token
  | .anchor a :: .tag t :: rest => (⟨some a, some t⟩, rest)
  | .tag t :: .anchor a :: rest => (⟨some a, some t⟩, rest)
  | .anchor a :: rest => (⟨some a, none⟩, rest)
  | .tag t :: rest => (⟨none, some t⟩, rest)
  | rest => (⟨none, none⟩, rest)

def Properties.isEmpty (p : Properties) : Bool := p.anchor?.isNone && p.tag?.isNone

/-! ## Anchors -/

/-- The tokens to come, and the anchors so far. An anchor is open while its node is being read. -/
structure Reading where
  tokens : List Token
  anchors : List (String × Option Node)

namespace Reading

def skip (r : Reading) : Reading := { r with tokens := r.tokens.tail }

/-- The node that an alias stands for; an anchor that is still open has none. -/
def find? (r : Reading) (name : String) : Option Node := (r.anchors.reverse.lookup name).join

def openAnchor (r : Reading) (name? : Option String) : Reading :=
  match name? with
  | some name => { r with anchors := r.anchors ++ [(name, none)] }
  | none => r

/-- Names a node by the anchor that was opened as number `i`. -/
def closeAnchor (r : Reading) (name? : Option String) (i : Nat) (node : Node) : Reading :=
  match name? with
  | some name => { r with anchors := r.anchors.set i (name, some node) }
  | none => r

end Reading

/-! ## Nodes -/

/-- The tokens before which a node of a block is left out. -/
def Token.endsBlockNode : Token → Bool
  | .key | .value | .blockEnd => true
  | _ => false

/-- The tokens before which a node of a flow collection is left out. -/
def Token.endsFlowNode : Token → Bool
  | .value | .comma | .flowSequenceEnd | .flowMappingEnd => true
  | _ => false

/-- A tag that is not specific says nothing about a scalar. -/
def scalarTag (tag? : Option String) : Option String := tag?.filter (· != "!")

mutual

/-- Reads a node. In a block, the items of a sequence need no indentation of their own where
`indentless` holds. -/
def node? (handles : Handles) (inBlock indentless : Bool) : Nat → Reading →
    Option (Node × Reading)
  | 0, _ => none
  | depth + 1, r =>
    match r.tokens with
    | .alias name :: _ => (r.find? name).map fun node => (node, r.skip)
    | tokens => do
      let (properties, rest) := Properties.split tokens
      let tag? ← match properties.tag? with
        | none => some none
        | some t => (t.expand? handles).map some
      let opened := { r with tokens := rest }.openAnchor properties.anchor?
      let (node, r') ← content? handles inBlock indentless properties.isEmpty tag? depth opened
      return (node, r'.closeAnchor properties.anchor? r.anchors.length node)

/-- Reads a node after its properties; only with properties may it be left out. -/
def content? (handles : Handles) (inBlock indentless isBare : Bool) (tag? : Option String) :
    Nat → Reading → Option (Node × Reading)
  | 0, _ => none
  | depth + 1, r =>
    let absent := if isBare then none else some (Node.empty tag?, r)
    match r.tokens with
    | .scalar style text :: _ => some (.scalar style (scalarTag tag?) text, r.skip)
    | .flowSequence :: _ => do
      let (items, r) ← flowItems? handles true depth r.skip
      return (.sequence items, r)
    | .flowMapping :: _ => do
      let (entries, r) ← flowEntries? handles true depth r.skip
      return (.mapping entries, r)
    | .item :: _ =>
      if indentless then do
        let (items, r) ← blockItems? handles true depth r
        return (.sequence items, r)
      else absent
    | .blockSequence :: _ =>
      if inBlock then do
        let (items, r) ← blockItems? handles false depth r.skip
        return (.sequence items, r)
      else absent
    | .blockMapping :: _ =>
      if inBlock then do
        let (entries, r) ← blockEntries? handles depth r.skip
        return (.mapping entries, r)
      else absent
    | _ => absent

/-- Reads a node of a block, unless it is left out. -/
def blockPart? (handles : Handles) (indentless : Bool) (ends : Token → Bool) :
    Nat → Reading → Option (Node × Reading)
  | 0, _ => none
  | depth + 1, r =>
    if r.tokens.head?.any ends then some (.empty none, r)
    else node? handles true indentless depth r

/-- Reads a node of a flow collection, unless it is left out. -/
def flowPart? (handles : Handles) : Nat → Reading → Option (Node × Reading)
  | 0, _ => none
  | depth + 1, r =>
    if r.tokens.head?.any Token.endsFlowNode then some (.empty none, r)
    else node? handles false false depth r

/-- Reads the items of a block sequence. Without indentation of its own it ends where no item
follows. -/
def blockItems? (handles : Handles) (indentless : Bool) :
    Nat → Reading → Option (List Node × Reading)
  | 0, _ => none
  | depth + 1, r =>
    match r.tokens with
    | .item :: _ => do
      let ends (t : Token) := t == .item || t == .blockEnd || (indentless && t.endsBlockNode)
      let (item, r) ← blockPart? handles false ends depth r.skip
      let (items, r) ← blockItems? handles indentless depth r
      return (item :: items, r)
    | .blockEnd :: _ => if indentless then some ([], r) else some ([], r.skip)
    | _ => if indentless then some ([], r) else none

def blockEntries? (handles : Handles) : Nat → Reading → Option (List (Node × Node) × Reading)
  | 0, _ => none
  | depth + 1, r =>
    match r.tokens with
    | .key :: _ => do
      let (key, r) ← blockPart? handles true Token.endsBlockNode depth r.skip
      let (value, r) ← match r.tokens with
        | .value :: _ => blockPart? handles true Token.endsBlockNode depth r.skip
        | _ => some (.empty none, r)
      let (entries, r) ← blockEntries? handles depth r
      return ((key, value) :: entries, r)
    | .blockEnd :: _ => some ([], r.skip)
    | _ => none

/-- Reads the items of a flow sequence; a pair of key and value is a mapping of one entry. -/
def flowItems? (handles : Handles) (isFirst : Bool) :
    Nat → Reading → Option (List Node × Reading)
  | 0, _ => none
  | depth + 1, r => do
    let r ← match r.tokens with
      | .comma :: _ => if isFirst then none else some r.skip
      | .flowSequenceEnd :: _ => some r
      | _ => if isFirst then some r else none
    match r.tokens with
    | .flowSequenceEnd :: _ => return ([], r.skip)
    | .key :: _ =>
      let (entry, r) ← flowEntry? handles depth r
      let (items, r) ← flowItems? handles false depth r
      return (.mapping [entry] :: items, r)
    | _ =>
      let (item, r) ← node? handles false false depth r
      let (items, r) ← flowItems? handles false depth r
      return (item :: items, r)

/-- Reads a key that has been announced, and its value if it has one. -/
def flowEntry? (handles : Handles) : Nat → Reading → Option ((Node × Node) × Reading)
  | 0, _ => none
  | depth + 1, r => do
    let (key, r) ← flowPart? handles depth r.skip
    let (value, r) ← match r.tokens with
      | .value :: _ => flowPart? handles depth r.skip
      | _ => some (.empty none, r)
    return ((key, value), r)

/-- Reads the entries of a flow mapping; a node by itself is a key. -/
def flowEntries? (handles : Handles) (isFirst : Bool) :
    Nat → Reading → Option (List (Node × Node) × Reading)
  | 0, _ => none
  | depth + 1, r => do
    let r ← match r.tokens with
      | .comma :: _ => if isFirst then none else some r.skip
      | .flowMappingEnd :: _ => some r
      | _ => if isFirst then some r else none
    match r.tokens with
    | .flowMappingEnd :: _ => return ([], r.skip)
    | .key :: _ =>
      let (entry, r) ← flowEntry? handles depth r
      let (entries, r) ← flowEntries? handles false depth r
      return (entry :: entries, r)
    | _ =>
      let (key, r) ← node? handles false false depth r
      let (entries, r) ← flowEntries? handles false depth r
      return ((key, .empty none) :: entries, r)

end

/-! ## Documents -/

/-- Reads the directives before a document: one version of 1.1 or 1.2 at most, and each handle
once at most. -/
def directives? (hasVersion : Bool) (handles : Handles) : List Token →
    Option (Handles × List Token)
  | .version major minor :: rest =>
    if hasVersion || major ≠ 1 || (minor ≠ 1 && minor ≠ 2) then none
    else directives? true handles rest
  | .handle name expansion :: rest =>
    if (handles.lookup name).isSome then none
    else directives? hasVersion ((name, expansion) :: handles) rest
  | .documentStart :: rest => some (handles ++ standardHandles, rest)
  | _ => none

/-- The tokens before which a document is left out after its marker. -/
def Token.endsDocument : Token → Bool
  | .version _ _ | .handle _ _ | .documentStart | .documentEnd => true
  | _ => false

def ofTokens? (tokens : List Token) : Option Node := do
  let depth := 4 * tokens.length + 4
  let (node, r) ← match tokens with
    | [] => none
    | t :: _ =>
      if t.endsDocument && t != .documentEnd then do
        let (handles, rest) ← directives? false [] tokens
        if rest.head?.all Token.endsDocument then some (Node.empty none, ⟨rest, []⟩)
        else node? handles true false depth ⟨rest, []⟩
      else node? standardHandles true false depth ⟨tokens, []⟩
  if r.tokens.all (· == .documentEnd) then some node else none

def Node.ofText? (text : String) : Option Node := do
  ofTokens? (← tokens? (← locate? text))

end MethodFlow.Yaml
