import MethodFlow.Proofs.Yaml.Outline
import MethodFlow.Yaml.Node
/-!
# Outlines are read as mappings

The tokens of an outline are read as a mapping of its keys, so that an outline of plain words that
has been written is read back as it was (`Outline.ofText?_text`). Four steps of depth for each
token are more than the readers need, which is what the bounds below say.
-/

namespace MethodFlow.Yaml

def wordNode (text : String) : Node := .scalar .plain none text

variable (hs : Handles) (A : List (String × Option Node)) (rest : List Token)

/-! ## Nodes without properties -/

/-- Whether a node that begins with this token has no properties and is no alias. -/
def Token.isBare : Token → Bool
  | .alias _ | .anchor _ | .tag _ => false
  | _ => true

/-- A bare node is its content. -/
theorem node?_bare (inBlock indentless : Bool) {t : Token} (ht : t.isBare = true) (n : Nat) :
    node? hs inBlock indentless (n + 1) ⟨t :: rest, A⟩ =
      content? hs inBlock indentless true none n ⟨t :: rest, A⟩ := by
  have hnode : ∀ found : Option (Node × Reading),
      (found.bind fun x => some (x.1, x.2.closeAnchor none A.length x.1)) = found := by
    intro found
    cases found <;> rfl
  cases t <;> simp only [Token.isBare, Bool.false_eq_true] at ht
  all_goals exact hnode _

/-- A node of a block that begins with this token is not left out. -/
theorem blockPart?_bare {indentless : Bool} {ends : Token → Bool} {t : Token}
    (ht : t.isBare = true) (hends : ends t = false) (n : Nat) :
    blockPart? hs indentless ends (n + 2) ⟨t :: rest, A⟩ =
      content? hs true indentless true none n ⟨t :: rest, A⟩ := by
  rw [blockPart?]
  simp only [List.head?_cons, Option.any_some, hends, Bool.false_eq_true, if_false]
  exact node?_bare hs A rest true indentless ht n

theorem blockPart?_word (indentless : Bool) {ends : Token → Bool} (text : String) {n : Nat}
    (hn : 3 ≤ n) (hends : ends (.scalar .plain text) = false) :
    blockPart? hs indentless ends n ⟨.scalar .plain text :: rest, A⟩ =
      some (wordNode text, ⟨rest, A⟩) := by
  obtain ⟨n, rfl⟩ := Nat.exists_eq_add_of_le' hn
  rw [show n + 3 = n + 1 + 2 from rfl, blockPart?_bare hs A rest rfl hends]
  rfl

/-! ## Values -/

/-- Tokens that are read as this node where a value is expected. -/
def IsValue (ts : List Token) (node : Node) : Prop :=
  ∀ (hs : Handles) (A : List (String × Option Node)) (rest : List Token) (n : Nat),
    4 * ts.length ≤ n → (∀ t ∈ rest.head?, t ≠ .item) →
      blockPart? hs true Token.endsBlockNode n ⟨ts ++ rest, A⟩ = some (node, ⟨rest, A⟩)

theorem isValue_word (text : String) : IsValue [.scalar .plain text] (wordNode text) :=
  fun hs A rest _ hn _ => blockPart?_word hs A rest true text (Nat.le_trans (by simp) hn) rfl

theorem isValue_flowSequence : IsValue [.flowSequence, .flowSequenceEnd] (.sequence []) := by
  intro hs A rest n hn _
  simp only [List.length_cons, List.length_nil] at hn
  obtain ⟨n, rfl⟩ := Nat.exists_eq_add_of_le' (show 4 ≤ n by omega)
  rw [show n + 4 = n + 2 + 2 from rfl, List.cons_append, blockPart?_bare hs A _ rfl rfl]
  simp [content?, flowItems?, Reading.skip]

theorem isValue_flowMapping : IsValue [.flowMapping, .flowMappingEnd] (.mapping []) := by
  intro hs A rest n hn _
  simp only [List.length_cons, List.length_nil] at hn
  obtain ⟨n, rfl⟩ := Nat.exists_eq_add_of_le' (show 4 ≤ n by omega)
  rw [show n + 4 = n + 2 + 2 from rfl, List.cons_append, blockPart?_bare hs A _ rfl rfl]
  simp [content?, flowEntries?, Reading.skip]

/-! ## Items -/

theorem blockItems?_itemTokens (items : List String) {n : Nat} (hn : items.length + 4 ≤ n)
    (hrest : ∀ t ∈ rest.head?, t ≠ .item) :
    blockItems? hs true n ⟨itemTokens items ++ rest, A⟩ =
      some (items.map wordNode, ⟨rest, A⟩) := by
  induction items generalizing n with
  | nil =>
      obtain ⟨n, rfl⟩ := Nat.exists_eq_add_of_le' hn
      cases rest with
      | nil => rfl
      | cons t rest =>
          have ht := hrest t rfl
          cases t <;> first | rfl | exact absurd rfl ht
  | cons item items ih =>
      obtain ⟨n, rfl⟩ := Nat.exists_eq_add_of_le' hn
      let ends (t : Token) := t == .item || t == .blockEnd || (true && t.endsBlockNode)
      have hends : ends (.scalar .plain item) = false := rfl
      have hitem := blockPart?_word hs A (itemTokens items ++ rest) false item
        (n := n + items.length + 4) (by omega) hends
      have hitems := ih (n := n + items.length + 4) (by omega)
      have htokens : itemTokens (item :: items) ++ rest =
          .item :: .scalar .plain item :: (itemTokens items ++ rest) := rfl
      rw [htokens, show n + ((item :: items).length + 4) = n + items.length + 4 + 1 by
        rw [List.length_cons]; omega, blockItems?]
      simp only [Reading.skip, List.tail_cons]
      rw [hitem]
      simp [hitems]

theorem length_itemTokens (items : List String) : (itemTokens items).length = 2 * items.length := by
  induction items with
  | nil => rfl
  | cons item items ih =>
      have hitems : (itemTokens (item :: items)).length = (itemTokens items).length + 2 := rfl
      rw [hitems, ih, List.length_cons, Nat.mul_add_one]

theorem isValue_items {items : List String} (hne : items ≠ []) :
    IsValue (itemTokens items) (.sequence (items.map wordNode)) := by
  intro hs A rest n hn hrest
  rw [length_itemTokens] at hn
  obtain ⟨item, items, rfl⟩ := List.exists_cons_of_ne_nil hne
  rw [List.length_cons] at hn
  obtain ⟨n, rfl⟩ := Nat.exists_eq_add_of_le' (show 3 ≤ n by omega)
  have hitems := blockItems?_itemTokens hs A rest (item :: items) (n := n)
    (by rw [List.length_cons]; omega) hrest
  have htokens : itemTokens (item :: items) ++ rest =
      .item :: .scalar .plain item :: (itemTokens items ++ rest) := rfl
  rw [htokens] at hitems ⊢
  rw [show n + 3 = n + 1 + 2 from rfl, blockPart?_bare hs A _ rfl rfl, content?]
  simp [hitems]

/-! ## Entries -/

/-- Tokens of keys and values that are read as these entries of a block. -/
def IsEntries (ts : List Token) (entries : List (Node × Node)) : Prop :=
  ∀ (hs : Handles) (A : List (String × Option Node)) (rest : List Token) (n : Nat),
    4 * ts.length + 4 ≤ n →
      blockEntries? hs n ⟨ts ++ .blockEnd :: rest, A⟩ = some (entries, ⟨rest, A⟩)

theorem isEntries_nil : IsEntries [] [] := by
  intro hs A rest n hn
  obtain ⟨n, rfl⟩ := Nat.exists_eq_add_of_le' hn
  rfl

theorem IsEntries.cons {key : String} {ts ts' : List Token} {node : Node}
    {entries : List (Node × Node)} (h : IsValue ts node) (h' : IsEntries ts' entries)
    (hne : ∀ t ∈ ts'.head?, t ≠ .item) :
    IsEntries (keyTokens key ++ (ts ++ ts')) ((wordNode key, node) :: entries) := by
  intro hs A rest n hn
  simp only [keyTokens, List.length_append, List.length_cons] at hn
  obtain ⟨n, rfl⟩ := Nat.exists_eq_add_of_le' (show 1 ≤ n by omega)
  have hends : Token.endsBlockNode (.scalar .plain key) = false := rfl
  have hkey := blockPart?_word hs A (.value :: (ts ++ (ts' ++ .blockEnd :: rest))) true key
    (n := n) (by omega) hends
  have hvalue := h hs A (ts' ++ .blockEnd :: rest) n (by omega) (by
    intro t ht
    cases ts' with
    | nil =>
        obtain rfl : Token.blockEnd = t := by simpa using ht
        simp
    | cons t' ts' => exact hne t (by simpa using ht))
  have hentries := h' hs A rest n (by omega)
  have htokens : keyTokens key ++ (ts ++ ts') ++ .blockEnd :: rest =
      .key :: .scalar .plain key :: .value :: (ts ++ (ts' ++ .blockEnd :: rest)) := by
    simp [keyTokens]
  rw [htokens, blockEntries?]
  simp [Reading.skip, hkey, hvalue, hentries]

theorem IsEntries.isValue {ts : List Token} {entries : List (Node × Node)}
    (h : IsEntries ts entries) :
    IsValue (.blockMapping :: (ts ++ [.blockEnd])) (.mapping entries) := by
  intro hs A rest n hn _
  simp only [List.length_append, List.length_cons, List.length_nil] at hn
  obtain ⟨n, rfl⟩ := Nat.exists_eq_add_of_le' (show 3 ≤ n by omega)
  have hentries := h hs A rest n (by omega)
  rw [List.cons_append, List.append_assoc, show n + 3 = n + 1 + 2 from rfl,
    blockPart?_bare hs A _ rfl rfl, content?]
  simp [Reading.skip, hentries]

/-! ## Outlines -/

namespace Outline

def entries : Outline → List (Node × Node)
  | .done => []
  | .word key text more => (wordNode key, wordNode text) :: more.entries
  | .words key items more => (wordNode key, .sequence (items.map wordNode)) :: more.entries
  | .block key content more => (wordNode key, .mapping content.entries) :: more.entries

/-- The tokens of an outline are none, or begin with a key. -/
theorem head_tokens (o : Outline) : ∀ t ∈ o.tokens.head?, t ≠ .item := by
  intro t ht
  cases o <;> simp [Outline.tokens, keyTokens] at ht <;> simp [← ht]

theorem isEntries_tokens (o : Outline) : IsEntries o.tokens o.entries := by
  induction o with
  | done => exact isEntries_nil
  | word key text more ih => exact .cons (isValue_word text) ih more.head_tokens
  | words key items more ih =>
      rw [Outline.tokens, List.append_assoc]
      cases items with
      | nil => exact .cons isValue_flowSequence ih more.head_tokens
      | cons item items =>
          exact .cons (isValue_items (List.cons_ne_nil item items)) ih more.head_tokens
  | block key content more ihcontent ih =>
      rw [Outline.tokens, List.append_assoc]
      by_cases hcontent : content.isEmpty = true
      · have hnone : content.entries = [] := by
          cases content <;> simp [isEmpty] at hcontent
          rfl
        rw [if_pos hcontent, entries, hnone]
        exact .cons isValue_flowMapping ih more.head_tokens
      · rw [if_neg hcontent]
        exact .cons ihcontent.isValue ih more.head_tokens

/-- An outline of plain words is read back as it was written. -/
theorem ofText?_text {o : Outline} (h : o.IsPlain) (hne : o.isEmpty = false) :
    Node.ofText? (o.text 0) = some (.mapping o.entries) := by
  let ts := Token.blockMapping :: (o.tokens ++ [.blockEnd])
  have hentries := o.isEntries_tokens standardHandles [] [] (4 * ts.length + 2)
    (by simp only [ts, List.length_cons, List.length_append]; omega)
  have hnode : node? standardHandles true false (4 * ts.length + 4) ⟨ts, []⟩ =
      some (.mapping o.entries, ⟨[], []⟩) := by
    rw [node?_bare standardHandles [] _ true false rfl, content?]
    simp [Reading.skip, hentries]
  have hroot : ofTokens? ts = some (.mapping o.entries) := by
    change ((node? standardHandles true false (4 * ts.length + 4) ⟨ts, []⟩).bind fun x =>
      if x.2.tokens.all (· == Token.documentEnd) then some x.1 else none) = _
    rw [hnode]
    rfl
  simp only [Node.ofText?, (isWritten_text h 0).locate?, tokens?_text h hne, Option.bind_eq_bind,
    Option.bind_some]
  exact hroot

end Outline

end MethodFlow.Yaml
