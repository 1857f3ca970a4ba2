import MethodFlow.Proofs.Yaml.Words
/-!
# Steps of the scanner

What the scanner reads of a document that is written one key on each line: keys, words, items and
empty flow collections. Between two tokens such a scanner is described by its open blocks, its
tokens and the text to come (`Scanner.between`); each step leads from one description to the next
one (`Scanner.LeadsTo`), up to the end of the text (`Scanner.finds_stop`).
-/

namespace MethodFlow.Yaml

/-! ## Document markers -/

theorem marker?_of_column {g : Glyph} (rest : List Glyph) (h : 0 < g.column) :
    marker? (g :: rest) = none := by
  have hcolumn : (g.column == 0) = false := by simpa using Nat.ne_of_gt h
  match rest with
  | [] | [_] => rfl
  | _ :: _ :: _ => simp [marker?, hcolumn]

theorem marker?_of_char {g : Glyph} (rest : List Glyph) (hminus : g.char ≠ '-')
    (hdot : g.char ≠ '.') : marker? (g :: rest) = none := by
  match rest with
  | [] | [_] => rfl
  | _ :: _ :: _ => simp [marker?, hminus, hdot]

namespace Scanner

/-! ## Finding tokens -/

/-- The scanner finds these tokens in the number of steps that the text allows. -/
def Finds (s : Scanner) (found : List Token) : Prop :=
  ∃ n ≤ s.rest.length + 1, s.run? n = some found

/-- What the second scanner finds, the first one finds. -/
def LeadsTo (s t : Scanner) : Prop := ∀ found, t.Finds found → s.Finds found

theorem LeadsTo.refl (s : Scanner) : s.LeadsTo s := fun _ h => h

theorem LeadsTo.trans {s t u : Scanner} (hst : s.LeadsTo t) (htu : t.LeadsTo u) : s.LeadsTo u :=
  fun found h => hst found (htu found h)

theorem run?_mono {s : Scanner} {n m : Nat} {found : List Token} (h : s.run? n = some found)
    (hle : n ≤ m) : s.run? m = some found := by
  induction n generalizing s m with
  | zero => simp [run?] at h
  | succ n ih =>
      obtain ⟨m, rfl⟩ := Nat.exists_eq_add_of_lt hle
      cases hadvance : s.advance? with
      | none => simp [run?, hadvance] at h
      | some next =>
          cases next with
          | inl t =>
              simp only [run?, hadvance] at h ⊢
              exact ih h (Nat.le_add_right n m)
          | inr tokens => simpa [run?, hadvance] using h

theorem Finds.run? {s : Scanner} {found : List Token} (h : s.Finds found) :
    s.run? (s.rest.length + 1) = some found := by
  obtain ⟨n, hn, hrun⟩ := h
  exact run?_mono hrun hn

theorem run?_succ {s t : Scanner} (h : s.advance? = some (.inl t)) (n : Nat) :
    s.run? (n + 1) = t.run? n := by
  simp only [Scanner.run?, h]
  rfl

/-- A step that reads something leads on. -/
theorem leadsTo_of_advance? {s t : Scanner} (h : s.advance? = some (.inl t))
    (hread : t.rest.length < s.rest.length) : s.LeadsTo t := by
  intro found hfound
  obtain ⟨n, hn, hrun⟩ := hfound
  exact ⟨n + 1, by omega, (run?_succ h n).trans hrun⟩

/-- Scanners that go on alike find the same. -/
theorem leadsTo_of_alike {s t : Scanner} (h : s.advance? = t.advance?)
    (hrest : t.rest.length ≤ s.rest.length) : s.LeadsTo t := by
  intro found hfound
  obtain ⟨n, hn, hrun⟩ := hfound
  refine ⟨n, by omega, ?_⟩
  cases n with
  | zero => simp [Scanner.run?] at hrun
  | succ n => simpa only [Scanner.run?, h] using hrun

/-! ## Tokens by their first character -/

theorem startsPlain_of_isWordChar {c : Char} (rest : List Glyph) (hc : isWordChar c = true) :
    startsPlain false c rest = true := by
  have hne (d : Char) (hd : isWordChar d = false) : c ≠ d := ne_of_isWordChar hc hd
  have hflow : isFlowIndicator c = false := by
    simp [isFlowIndicator, hne ',' (by decide), hne '[' (by decide), hne ']' (by decide),
      hne '{' (by decide), hne '}' (by decide)]
  have hindicator : "#&*!|>'\"%@\x60".toList.contains c = false := by
    have hno : "#&*!|>'\"%@\x60".toList.all (!isWordChar ·) = true := by decide
    rw [Bool.eq_false_iff]
    intro h
    have hc' := List.all_eq_true.mp hno c (List.contains_iff_mem.mp h)
    simp [hc] at hc'
  have hminus : (c == '-') = false := by simpa using hne '-' (by decide)
  have hquestion : (c == '?') = false := by simpa using hne '?' (by decide)
  have hcolon : (c == ':') = false := by simpa using hne ':' (by decide)
  simp only [startsPlain, hminus, hquestion, hcolon, hflow, hindicator,
    isSpace_of_isWordChar hc, Bool.or_false, Bool.false_eq_true, if_false, Bool.not_false,
    Bool.and_true]

theorem token?_word {s : Scanner} {g : Glyph} (rest : List Glyph) (hs : s.inFlow = false)
    (hc : isWordChar g.char = true) : s.token? g rest = s.plainScalar? g rest := by
  have hne (d : Char) (hd : isWordChar d = false) : g.char ≠ d := ne_of_isWordChar hc hd
  have hmarker := marker?_of_char rest (hne '-' (by decide)) (hne '.' (by decide))
  have hpercent : (g.column == 0 && g.char == '%') = false := by simp [hne '%' (by decide)]
  unfold token?
  simp only [hpercent, hmarker, Bool.false_eq_true, if_false]
  split
  case h_11 =>
    have hplain : startsPlain s.inFlow g.char rest = true := by
      rw [hs]
      exact startsPlain_of_isWordChar rest hc
    simp [hplain, hne '-' (by decide), hne '?' (by decide), hne ':' (by decide),
      hne '|' (by decide), hne '>' (by decide)]
  all_goals exact absurd ‹_› (hne _ (by decide))

theorem token?_colon {s : Scanner} {g : Glyph} {rest : List Glyph} (hchar : g.char = ':')
    (hcolumn : 0 < g.column) (hends : wordEnds rest = true) :
    s.token? g rest = s.value? g rest := by
  simp [token?, marker?_of_column rest hcolumn, hchar, hends]

theorem token?_item {s : Scanner} {g h : Glyph} {rest : List Glyph} (hchar : g.char = '-')
    (hspace : h.char = ' ') : s.token? g (h :: rest) = s.item? g (h :: rest) := by
  have hmarker : marker? (g :: h :: rest) = none := by
    cases rest <;> simp [marker?, hchar, hspace]
  simp [token?, hmarker, hchar, hspace, wordEnds, isSpace, isBlank]

/-- The signs of a flow collection, with the tokens that they give. -/
inductive IsFlowPair : Char → Char → Token → Token → Prop
  | sequence : IsFlowPair '[' ']' .flowSequence .flowSequenceEnd
  | mapping : IsFlowPair '\x7b' '\x7d' .flowMapping .flowMappingEnd

theorem IsFlowPair.token?_first {a b : Char} {ta tb : Token} (h : IsFlowPair a b ta tb)
    {s : Scanner} {g : Glyph} (rest : List Glyph) (hchar : g.char = a) (hcolumn : 0 < g.column) :
    s.token? g rest = s.startFlow? g ta rest := by
  cases h <;> simp [token?, marker?_of_column rest hcolumn, hchar]

theorem IsFlowPair.token?_last {a b : Char} {ta tb : Token} (h : IsFlowPair a b ta tb)
    {s : Scanner} {g : Glyph} (rest : List Glyph) (hchar : g.char = b) (hcolumn : 0 < g.column) :
    s.token? g rest = s.endFlow? tb rest := by
  cases h <;> simp [token?, marker?_of_column rest hcolumn, hchar]

/-! ## Between two tokens -/

variable {b b' : List Nat} {T T' : List Token}

/-- A scanner between two tokens, outside of flow collections and where no key has begun. -/
def between (keyAllowed : Bool) (blocks : List Nat) (tokens : List Token) (gs : List Glyph) :
    Scanner :=
  { rest := gs, blocks, keyStart := none, outer := [], keyAllowed, tokens, count := tokens.length }

/-- The least column of what belongs to the innermost of these blocks. -/
def leastColumn (b : List Nat) : Nat := (between true b [] []).floor

theorem closeBlocks_eq_self {s : Scanner} {column : Nat} (h : s.floor ≤ column + 1) :
    s.closeBlocks column = s := by
  cases s with
  | mk rest blocks keyStart outer keyAllowed tokens count =>
      cases blocks with
      | nil => simp [closeBlocks]
      | cons x blocks =>
          have hx : ¬ column < x := by simp only [floor] at h; omega
          simp [closeBlocks, hx]

/-- A step at a glyph closes the blocks that the glyph is not part of. -/
theorem advance?_glyph {s : Scanner} {allowed : Bool} {g : Glyph} {more : List Glyph}
    {keyStart : Option KeyStart}
    (hgap : skipGap s.inFlow false s.keyAllowed s.rest = (allowed, g :: more))
    (hkey : freshAt? g s.keyStart = some keyStart)
    (houter : s.outer.mapM (freshAt? g) = some s.outer) :
    s.advance? =
      (({ s with keyAllowed := allowed, rest := g :: more, keyStart } : Scanner).closeBlocks
        g.column |>.token? g more).map .inl := by
  simp only [advance?, hgap, hkey, houter, Option.bind_eq_bind, Option.bind_some]
  cases token? _ g more <;> rfl

/-- A step at a glyph that belongs to the innermost block. -/
theorem advance?_inside {s : Scanner} {allowed : Bool} {g : Glyph} {more : List Glyph}
    {keyStart : Option KeyStart}
    (hgap : skipGap s.inFlow false s.keyAllowed s.rest = (allowed, g :: more))
    (hkey : freshAt? g s.keyStart = some keyStart)
    (houter : s.outer.mapM (freshAt? g) = some s.outer) (hfloor : s.floor ≤ g.column + 1) :
    s.advance? =
      ({ s with keyAllowed := allowed, rest := g :: more, keyStart }.token? g more).map .inl := by
  let found : Scanner := { s with keyAllowed := allowed, rest := g :: more, keyStart }
  have hclose : found.closeBlocks g.column = found := closeBlocks_eq_self hfloor
  rw [advance?_glyph hgap hkey houter, hclose]

theorem advance?_stop {s : Scanner} (h : s.rest = []) : s.advance? = s.finish?.map .inr := by
  cases s with
  | mk rest blocks keyStart outer keyAllowed tokens count =>
      simp only at h
      subst h
      simp only [advance?, skipGap]
      cases finish? _ <;> rfl

/-! ## Gaps -/

theorem skipGap_visible (inFlow allowed : Bool) (gs : List Glyph) :
    skipGap inFlow false allowed (visible gs) = skipGap inFlow false allowed gs := by
  induction gs with
  | nil => rfl
  | cons g gs ih =>
      by_cases hg : g.char = ' '
      · have hbreak : isBreak ' ' = false := by decide
        rw [visible_of_space gs hg, ih]
        simp [skipGap, hg, hbreak]
      · rw [visible_of_ne_space gs hg]

theorem skipGap_first (inFlow allowed : Bool) {g : Glyph} (more : List Glyph)
    (h : startsLine g.char = true) :
    skipGap inFlow false allowed (g :: more) = (allowed, g :: more) := by
  have hne (d : Char) (hd : startsLine d = false) : g.char ≠ d := ne_of_startsLine h hd
  have hbreak : isBreak g.char = false := by
    simp [isBreak, hne '\n' (by decide), hne '\u2028' (by decide), hne '\u2029' (by decide)]
  simp [skipGap, hbreak, hne '#' (by decide), hne ' ' (by decide), hne '\t' (by decide),
    hne '\ufeff' (by decide)]

/-- Gaps that end alike are passed over alike. -/
theorem leadsTo_of_gap {a a' : Bool} {gs gs' : List Glyph} (b : List Nat) (T : List Token)
    (hgap : skipGap false false a gs = skipGap false false a' gs')
    (hlength : gs'.length ≤ gs.length) : (between a b T gs).LeadsTo (between a' b T gs') := by
  apply leadsTo_of_alike _ hlength
  simp only [advance?, between, inFlow, List.isEmpty_nil, Bool.not_true, hgap]

theorem between_advance? {allowed allowed' : Bool} (T : List Token)
    {gs more : List Glyph} {g : Glyph}
    (hgap : skipGap false false allowed gs = (allowed', g :: more))
    (hfloor : leastColumn b ≤ g.column + 1) :
    (between allowed b T gs).advance? =
      ((between allowed' b T (g :: more)).token? g more).map .inl :=
  advance?_inside (s := between allowed b T gs) hgap rfl rfl hfloor

/-- The place of a key that may begin at a glyph. -/
def keyStartAt (b : List Nat) (T : List Token) (g : Glyph) : KeyStart :=
  ⟨T.length, g, leastColumn b == g.column + 1⟩

theorem advance?_word (allowed : Bool) (T : List Token) {l k i : Nat} {d : Char}
    {tail : List Char} {p : PlainRest} (hd : isWordChar d = true)
    (hfloor : leastColumn b ≤ k + 1)
    (hplain : plain? false (leastColumn b) (locateFrom l k i (d :: tail)) = some p) :
    (between allowed b T (locateFrom l k i (d :: tail))).advance? =
      some (.inl { between p.broken b (.scalar .plain (String.ofList p.text) :: T) p.rest with
        keyStart := if allowed then some (keyStartAt b T ⟨d, l, k, i⟩) else none }) := by
  have hstarts : startsLine d = true := by simp [startsLine, hd]
  have hgap := skipGap_first false allowed (g := ⟨d, l, k, i⟩)
    (locateFrom l (k + 1) (i + 1) tail) hstarts
  rw [locateFrom_cons l k i tail (isBreak_of_isWordChar hd)] at hplain ⊢
  rw [between_advance? T hgap hfloor, token?_word _ rfl hd]
  cases allowed with
  | false =>
      simp only [plainScalar?, saveKey?, leastColumn, between, inFlow, floor] at hplain ⊢
      simp [hplain, emit]
  | true =>
      simp only [plainScalar?, saveKey?, dropKey?, leastColumn, between, inFlow, floor] at hplain ⊢
      simp [hplain, emit, keyStartAt, leastColumn, between, floor]

/-! ## Keys -/

/-- Inside a block to the right of the column no other is opened. -/
theorem openBlock_eq_self (s : Scanner) {column : Nat} (t : Token) (h : column < s.floor) :
    s.openBlock column t = s := by
  simp [openBlock, Nat.not_le_of_lt h]

/-- What a key at a column makes of the open blocks and the tokens: it is one more key of the
innermost block, or the first one of a block of its own. -/
inductive Enters (column : Nat) : List Nat → List Token → List Nat → List Token → Prop
  | more (b : List Nat) (T : List Token) : Enters column (column :: b) T (column :: b) T
  | first {b : List Nat} (T : List Token) (hb : leastColumn b ≤ column) :
      Enters column b T (column :: b) (.blockMapping :: T)

theorem Enters.floor_le {column : Nat} (h : Enters column b T b' T') :
    leastColumn b ≤ column + 1 := by
  cases h with
  | more b T => exact Nat.le_refl _
  | first T hb => exact Nat.le_succ_of_le hb

theorem Enters.announceKey {column : Nat} (h : Enters column b T b' T') (t : Token)
    (gs : List Glyph) {k : KeyStart}
    (hbefore : k.before = T.length) (hcolumn : k.glyph.column = column) :
    ({ between false b (t :: T) gs with keyStart := some k } : Scanner).announceKey k =
      { between false b' (t :: .key :: T') gs with keyStart := some k } := by
  cases h with
  | more b T =>
      have hinside : k.glyph.column < column + 1 := hcolumn ▸ Nat.lt_succ_self _
      unfold Scanner.announceKey
      dsimp only
      rw [openBlock_eq_self _ _ hinside]
      simp [between, hbefore]
  | first T hb =>
      simp only [leastColumn, between, floor] at hb
      simp [Scanner.announceKey, between, openBlock, inFlow, floor, hbefore, hcolumn, hb]

/-- The colon after a key of `n` characters announces the key where it began. -/
theorem advance?_colon {column : Nat} (h : Enters column b T b' T') (t : Token) (d : Char)
    (l i : Nat) {n : Nat} (hpos : 0 < n) (hn : n ≤ 1024) {c : Char} (rest : List Char)
    (hc : isSpace c = true) :
    ({ between false b (t :: T) (locateFrom l (column + n) (i + n) (':' :: c :: rest)) with
        keyStart := some (keyStartAt b T ⟨d, l, column, i⟩) } : Scanner).advance? =
      some (.inl (between false b' (.value :: t :: .key :: T')
        (locateFrom l (column + n + 1) (i + n + 1) (c :: rest)))) := by
  let start : KeyStart := keyStartAt b T ⟨d, l, column, i⟩
  let colon : Glyph := ⟨':', l, column + n, i + n⟩
  let after := locateFrom l (column + n + 1) (i + n + 1) (c :: rest)
  let s : Scanner := { between false b (t :: T) (colon :: after) with keyStart := some start }
  have hbreak : isBreak ':' = false := by decide
  have hgs : locateFrom l (column + n) (i + n) (':' :: c :: rest) = colon :: after :=
    locateFrom_cons _ _ _ _ hbreak
  have hgap : skipGap s.inFlow false s.keyAllowed s.rest = (false, colon :: after) := by
    simp [s, between, skipGap, colon, hbreak]
  have hfresh : freshAt? colon s.keyStart = some (some start) := by
    have hstale : start.isStale colon = false := by
      simp [KeyStart.isStale, start, keyStartAt, colon, hn]
    simp [s, freshAt?, hstale]
  have hfloor : s.floor ≤ colon.column + 1 := Nat.le_trans h.floor_le (by simp [colon])
  have hends : wordEnds after = true := hc
  have hannounce : s.announceKey start = _ := h.announceKey t (colon :: after) rfl rfl
  rw [hgs, advance?_inside hgap hfresh rfl hfloor,
    token?_colon rfl (Nat.add_pos_right _ hpos) hends]
  change Option.map Sum.inl (some
    { (s.announceKey start).emit .value after with keyStart := none, keyAllowed := false }) = _
  rw [hannounce]
  rfl

/-- The start of a key line: a key with its colon, and white space after it. -/
structure KeyLine (key : List Char) (c : Char) : Prop where
  isWord : IsWord key
  length_le : key.length ≤ 1024
  isSpace : isSpace c = true

/-- A key is read in two steps, of which the first one finds a word and the second one its
colon. -/
theorem run?_key {k : Nat} (h : Enters k b T b' T') {key : List Char} {c : Char}
    (hline : KeyLine key c) (l i n : Nat) (rest : List Char) :
    (between true b T (locateFrom l k i (key ++ ':' :: c :: rest))).run? (n + 2) =
      (between false b' (.value :: .scalar .plain (String.ofList key) :: .key :: T')
        (locateFrom l (k + key.length + 1) (i + key.length + 1) (c :: rest))).run? n := by
  have hplain := plain?_key (leastColumn b) l k i rest hline.isWord hline.isSpace
  obtain ⟨d, ds, rfl⟩ := List.exists_cons_of_ne_nil hline.isWord.1
  have hd : isWordChar d = true := hline.isWord.2 d List.mem_cons_self
  have hword := advance?_word true T hd h.floor_le hplain
  have hcolon := advance?_colon h (.scalar .plain (String.ofList (d :: ds))) d l i
    (Nat.succ_pos ds.length) hline.length_le rest hline.isSpace
  exact (run?_succ hword _).trans (run?_succ hcolon n)

/-- A key is followed by what is read after its colon. -/
theorem leadsTo_key {k : Nat} (h : Enters k b T b' T') {key : List Char} {c : Char}
    (hline : KeyLine key c) (l i : Nat) (rest : List Char) :
    (between true b T (locateFrom l k i (key ++ ':' :: c :: rest))).LeadsTo
      (between false b' (.value :: .scalar .plain (String.ofList key) :: .key :: T')
        (locateFrom l (k + key.length + 1) (i + key.length + 1) (c :: rest))) := by
  intro found hfound
  obtain ⟨n, hn, hrun⟩ := hfound
  have hpos : 0 < key.length := List.length_pos_iff.mpr hline.isWord.1
  refine ⟨n + 2, ?_, (run?_key h hline l i n rest).trans hrun⟩
  simp only [between, length_locateFrom, List.length_append, List.length_cons] at hn ⊢
  omega

/-- Where a mapping may start, its first key reads as one more key of it. -/
theorem leadsTo_opened {k : Nat} (hb : leastColumn b ≤ k) {key : List Char}
    {c : Char} (hline : KeyLine key c) (l i : Nat) (rest : List Char) :
    (between true b T (locateFrom l k i (key ++ ':' :: c :: rest))).LeadsTo
      (between true (k :: b) (.blockMapping :: T)
        (locateFrom l k i (key ++ ':' :: c :: rest))) := by
  intro found hfound
  let n := (key ++ c :: rest).length
  have hn : (locateFrom l k i (key ++ ':' :: c :: rest)).length + 1 = n + 2 := by
    simp [n]
    omega
  have hrun : (between true (k :: b) (.blockMapping :: T)
      (locateFrom l k i (key ++ ':' :: c :: rest))).run? (n + 2) = some found := by
    rw [← hn]
    exact hfound.run?
  -- After the two steps of a key nothing tells whether the key or the scanner opened the block.
  refine ⟨n + 2, Nat.le_of_eq hn.symm, ?_⟩
  rw [run?_key (.first T hb) hline]
  rw [run?_key (.more b (.blockMapping :: T)) hline] at hrun
  exact hrun

/-! ## The rest of a line -/

/-- White space in a line leads to what follows it. -/
theorem leadsTo_blank (b : List Nat) (T : List Token) (allowed : Bool) (l k i : Nat)
    (rest : List Char) :
    (between allowed b T (locateFrom l k i (' ' :: rest))).LeadsTo
      (between allowed b T (locateFrom l (k + 1) (i + 1) rest)) := by
  have hbreak : isBreak ' ' = false := by decide
  apply leadsTo_of_gap
  · simp [locateFrom, skipGap, hbreak]
  · simp

/-- The end of a line leads to the start of the next one, where a key may begin. -/
theorem leadsTo_newline (b : List Nat) (T : List Token) (allowed : Bool) (l k i : Nat)
    (rest : List Char) :
    (between allowed b T (locateFrom l k i ('\n' :: rest))).LeadsTo
      (between true b T (visible (locateFrom (l + 1) 0 (i + 1) rest))) := by
  have hbreak : isBreak '\n' = true := by decide
  apply leadsTo_of_gap
  · rw [skipGap_visible]
    simp [locateFrom, skipGap, hbreak]
  · have hle := visible_length_le (locateFrom (l + 1) 0 (i + 1) rest)
    simp only [length_locateFrom, List.length_cons] at hle ⊢
    omega

/-! ## Lines -/

/-- A place where no key has begun is given up at the next line. -/
theorem leadsTo_without_key (allowed : Bool) (b : List Nat) (T : List Token) {limit l i : Nat}
    {rest : List Char} (hrest : FollowsAt limit rest) {k : KeyStart} (hline : k.glyph.line < l)
    (hrequired : k.required = false) :
    ({ between allowed b T (visible (locateFrom l 0 i rest)) with
        keyStart := some k } : Scanner).LeadsTo
      (between allowed b T (visible (locateFrom l 0 i rest))) := by
  apply leadsTo_of_alike
  · cases hgs : visible (locateFrom l 0 i rest) with
    | nil =>
        rw [advance?_stop rfl, advance?_stop rfl]
        simp [finish?, closeAllBlocks, between, inFlow, dropKey?, hrequired]
    | cons g more =>
        have hfirst := hrest.first hgs
        have hstale : k.isStale g = true := by simp [KeyStart.isStale, hfirst.line_eq, hline]
        have hfresh : freshAt? g (some k) = some none := by simp [freshAt?, hstale, hrequired]
        have hgap := skipGap_first false allowed more hfirst.starts
        let s := between allowed b T (g :: more)
        rw [advance?_glyph (s := { s with keyStart := some k }) hgap hfresh rfl,
          advance?_glyph (s := s) hgap rfl rfl]
  · exact Nat.le_refl _

/-- A line that is indented less closes a block. -/
theorem leadsTo_closed (allowed : Bool) {x : Nat} (b : List Nat) (T : List Token)
    {limit l i : Nat} {rest : List Char} (hrest : FollowsAt limit rest) (hx : limit < x) :
    (between allowed (x :: b) T (visible (locateFrom l 0 i rest))).LeadsTo
      (between allowed b (.blockEnd :: T) (visible (locateFrom l 0 i rest))) := by
  apply leadsTo_of_alike
  · cases hgs : visible (locateFrom l 0 i rest) with
    | nil =>
        rw [advance?_stop rfl, advance?_stop rfl]
        simp [finish?, closeAllBlocks, between, inFlow, dropKey?, List.replicate_succ']
    | cons g more =>
        have hfirst := hrest.first hgs
        have hcolumn : g.column < x := Nat.lt_of_le_of_lt hfirst.column_le hx
        have hgap := skipGap_first false allowed more hfirst.starts
        let closing := between allowed (x :: b) T (g :: more)
        let closed := between allowed b (.blockEnd :: T) (g :: more)
        have hclose : closing.closeBlocks g.column = closed.closeBlocks g.column := by
          simp [closing, closed, closeBlocks, between, inFlow, hcolumn, List.replicate_succ']
          omega
        have hclosing := advance?_glyph (s := closing) hgap rfl rfl
        have hclosed := advance?_glyph (s := closed) hgap rfl rfl
        change closing.advance? = closed.advance?
        rw [hclosing, hclosed]
        change Option.map _ ((closing.closeBlocks g.column).token? g more) =
          Option.map _ ((closed.closeBlocks g.column).token? g more)
        rw [hclose]
  · exact Nat.le_refl _

/-- A word at the end of a line is read up to the start of the next line. Where a key could begin
before it, none has. -/
theorem leadsTo_word (T : List Token) {limit l k i : Nat} {word rest : List Char}
    (hword : IsWord word) (hlimit : limit < leastColumn b)
    (hfloor : leastColumn b ≤ k) (allowed : Bool) (hrest : FollowsAt limit rest) :
    (between allowed b T (locateFrom l k i (word ++ '\n' :: rest))).LeadsTo
      (between true b (.scalar .plain (String.ofList word) :: T)
        (visible (locateFrom (l + 1) 0 (i + word.length + 1) rest))) := by
  have hplain := plain?_line (leastColumn b) l k i hword hlimit hrest
  have hle := visible_length_le (locateFrom (l + 1) 0 (i + word.length + 1) rest)
  obtain ⟨d, ds, rfl⟩ := List.exists_cons_of_ne_nil hword.1
  have hd : isWordChar d = true := hword.2 d List.mem_cons_self
  have hadvance := advance?_word allowed T hd (Nat.le_succ_of_le hfloor) hplain
  apply (leadsTo_of_advance? hadvance _).trans
  · cases allowed with
    | false => exact .refl _
    | true =>
        -- The place noted for a key is on the line that has ended.
        apply leadsTo_without_key true b _ hrest (Nat.lt_succ_self l)
        simp only [beq_eq_false_iff_ne, keyStartAt]
        omega
  · simp [between] at hle ⊢
    omega

/-- An item is read up to the start of the next line. -/
theorem leadsTo_item (b : List Nat) (T : List Token) {l k i : Nat} {word rest : List Char}
    (hword : IsWord word) (hrest : FollowsAt k rest) :
    (between true (k :: b) T (locateFrom l k i ('-' :: ' ' :: (word ++ '\n' :: rest)))).LeadsTo
      (between true (k :: b) (.scalar .plain (String.ofList word) :: .item :: T)
        (visible (locateFrom (l + 1) 0 (i + 2 + word.length + 1) rest))) := by
  let after := locateFrom l (k + 2) (i + 2) (word ++ '\n' :: rest)
  have hgs : locateFrom l k i ('-' :: ' ' :: (word ++ '\n' :: rest)) =
      ⟨'-', l, k, i⟩ :: ⟨' ', l, k + 1, i + 1⟩ :: after := by
    rw [locateFrom_cons l k i _ (by decide), locateFrom_cons l (k + 1) (i + 1) _ (by decide)]
  have hadvance : (between true (k :: b) T
      (⟨'-', l, k, i⟩ :: ⟨' ', l, k + 1, i + 1⟩ :: after)).advance? =
      some (.inl (between true (k :: b) (.item :: T) (⟨' ', l, k + 1, i + 1⟩ :: after))) := by
    have hgap := skipGap_first false true (g := ⟨'-', l, k, i⟩)
      (⟨' ', l, k + 1, i + 1⟩ :: after) rfl
    rw [between_advance? T hgap (Nat.le_refl _), token?_item rfl rfl]
    unfold item? indicate?
    rw [openBlock_eq_self _ _ (Nat.lt_succ_self k)]
    simp [dropKey?, emit, between, inFlow]
  have hstep := leadsTo_of_advance? hadvance (by simp [between])
  have hblank := leadsTo_blank (k :: b) (.item :: T) true l (k + 1) (i + 1) (word ++ '\n' :: rest)
  have hline := leadsTo_word (b := k :: b) (.item :: T) (l := l) (k := k + 2) (i := i + 2) hword
    (Nat.lt_succ_self k) (Nat.le_succ _) true hrest
  rw [locateFrom_cons l (k + 1) (i + 1) _ (by decide)] at hblank
  rw [hgs]
  exact hstep.trans (hblank.trans hline)

/-! ## Empty flow collections -/

theorem IsFlowPair.skipGap_eq {first last : Char} {t t' : Token} (h : IsFlowPair first last t t')
    (inFlow allowed : Bool) {g : Glyph} (more : List Glyph) (hg : g.char = first ∨ g.char = last) :
    skipGap inFlow false allowed (g :: more) = (allowed, g :: more) := by
  cases h <;> obtain hg | hg := hg <;> simp [skipGap, hg, isBreak]

theorem IsFlowPair.locateFrom_eq {first last : Char} {t t' : Token} (h : IsFlowPair first last t t')
    (l k i : Nat) (rest : List Char) :
    locateFrom l k i (first :: last :: rest) =
      ⟨first, l, k, i⟩ :: ⟨last, l, k + 1, i + 1⟩ :: locateFrom l (k + 2) (i + 2) rest := by
  cases h <;> simp [locateFrom, isBreak]

/-- An empty flow collection is read in two steps. -/
theorem IsFlowPair.leadsTo {first last : Char} {t t' : Token} (h : IsFlowPair first last t t')
    (T : List Token) (l k i : Nat) (rest : List Char)
    (hfloor : leastColumn b ≤ k) (hk : 0 < k) :
    (between false b T (locateFrom l k i (first :: last :: rest))).LeadsTo
      (between false b (t' :: t :: T) (locateFrom l (k + 2) (i + 2) rest)) := by
  rw [h.locateFrom_eq]
  let a : Glyph := ⟨first, l, k, i⟩
  let z : Glyph := ⟨last, l, k + 1, i + 1⟩
  let after := locateFrom l (k + 2) (i + 2) rest
  let opened : Scanner :=
    { between true b (t :: T) (z :: after) with outer := [none] }
  have hfirst : (between false b T (a :: z :: after)).advance? = some (.inl opened) := by
    have hgap := h.skipGap_eq false false (g := a) (z :: after) (.inl rfl)
    rw [between_advance? T hgap (Nat.le_succ_of_le hfloor), h.token?_first _ rfl hk]
    simp [opened, startFlow?, saveKey?, between, emit]
  have hlast : opened.advance? = some (.inl (between false b (t' :: t :: T) after)) := by
    have hgap := h.skipGap_eq true true (g := z) after (.inr rfl)
    rw [advance?_inside (s := opened) hgap rfl rfl (Nat.le_succ_of_le (Nat.le_succ_of_le hfloor)),
      h.token?_last _ rfl (Nat.succ_pos k)]
    simp [opened, endFlow?, dropKey?, between, emit]
  have hopened := leadsTo_of_advance? hfirst (by simp [opened, between])
  have hclosed := leadsTo_of_advance? hlast (by simp [opened, between])
  exact hopened.trans hclosed

/-! ## The end of the text -/

/-- At the end of the text the open blocks end, and the tokens are found. -/
theorem finds_stop (allowed : Bool) (b : List Nat) (T : List Token) :
    (between allowed b T []).Finds (List.replicate b.length Token.blockEnd ++ T).reverse := by
  refine ⟨1, Nat.le_refl _, ?_⟩
  have hadvance : (between allowed b T []).advance? =
      some (.inr (List.replicate b.length Token.blockEnd ++ T).reverse) := by
    rw [advance?_stop rfl]
    simp [finish?, closeAllBlocks, dropKey?, between, inFlow]
  simp [run?, hadvance]

end Scanner

end MethodFlow.Yaml
