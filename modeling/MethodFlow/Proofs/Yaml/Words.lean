import MethodFlow.Yaml.Token.Scan
/-!
# Words

A word is made of letters, digits and underscores. None of these characters means anything to the
reader of a document, so that a word is read as it stands: up to the colon of a key, or up to the
end of its line.
-/

namespace MethodFlow.Yaml

def isWordChar (c : Char) : Bool := c.isAlphanum || c == '_'

/-- A word has one character at least. -/
def IsWord (cs : List Char) : Prop := cs ≠ [] ∧ ∀ c ∈ cs, isWordChar c = true

instance (cs : List Char) : Decidable (IsWord cs) :=
  decidable_of_iff (cs ≠ [] ∧ cs.all isWordChar = true) (by simp [IsWord])

/-! ## Characters of words -/

theorem ne_of_isWordChar {c d : Char} (hc : isWordChar c = true) (hd : isWordChar d = false) :
    c ≠ d := by
  intro h
  rw [h, hd] at hc
  exact Bool.false_ne_true hc

theorem range_of_isWordChar {c : Char} (hc : isWordChar c = true) : '0' ≤ c ∧ c ≤ 'z' := by
  have hboth {p q : Prop} [Decidable p] [Decidable q] (h : (decide p && decide q) = true) :
      p ∧ q := by simpa using h
  have hcases : (((c.isUpper || c.isLower) || c.isDigit) || c == '_') = true := hc
  simp only [Bool.or_eq_true, beq_iff_eq] at hcases
  change 48 ≤ c.toNat ∧ c.toNat ≤ 122
  obtain ((hupper | hlower) | hdigit) | rfl := hcases
  · have hletter : 65 ≤ c.toNat ∧ c.toNat ≤ 90 := of_decide_eq_true hupper
    omega
  · have hletter : 97 ≤ c.toNat ∧ c.toNat ≤ 122 := hboth hlower
    omega
  · have hfigure : 48 ≤ c.toNat ∧ c.toNat ≤ 57 := hboth hdigit
    omega
  · decide

theorem isPrintable_of_isWordChar {c : Char} (hc : isWordChar c = true) :
    isPrintable c = true := by
  obtain ⟨hlow, hhigh⟩ := range_of_isWordChar hc
  have hlow : ' ' ≤ c := Char.le_trans (by decide) hlow
  have hhigh : c ≤ '~' := Char.le_trans hhigh (by decide)
  simp [isPrintable, hlow, hhigh]

theorem isBreak_of_isWordChar {c : Char} (hc : isWordChar c = true) : isBreak c = false := by
  simp [isBreak, ne_of_isWordChar hc (d := '\n') (by decide),
    ne_of_isWordChar hc (d := '\u2028') (by decide),
    ne_of_isWordChar hc (d := '\u2029') (by decide)]

theorem isSpace_of_isWordChar {c : Char} (hc : isWordChar c = true) : isSpace c = false := by
  simp [isSpace, isBlank, isBreak_of_isWordChar hc, ne_of_isWordChar hc (d := ' ') (by decide),
    ne_of_isWordChar hc (d := '\t') (by decide)]

/-! ## Glyphs of a line -/

theorem locateFrom_cons (l k i : Nat) {c : Char} (rest : List Char) (hc : isBreak c = false) :
    locateFrom l k i (c :: rest) = ⟨c, l, k, i⟩ :: locateFrom l (k + 1) (i + 1) rest := by
  rw [locateFrom, hc, if_neg Bool.false_ne_true]

@[simp] theorem length_locateFrom (l k i : Nat) (cs : List Char) :
    (locateFrom l k i cs).length = cs.length := by
  induction cs generalizing l k i with
  | nil => rfl
  | cons c cs ih =>
      rw [locateFrom]
      split <;> simp [ih]

/-- What is left after the blanks at the beginning of a line. -/
def visible (gs : List Glyph) : List Glyph := gs.dropWhile fun g => g.char == ' '

theorem visible_of_space {g : Glyph} (gs : List Glyph) (hg : g.char = ' ') :
    visible (g :: gs) = visible gs := by
  simp [visible, hg]

theorem visible_of_ne_space {g : Glyph} (gs : List Glyph) (hg : g.char ≠ ' ') :
    visible (g :: gs) = g :: gs := by
  simp [visible, hg]

theorem visible_length_le (gs : List Glyph) : (visible gs).length ≤ gs.length :=
  (List.dropWhile_sublist _).length_le

theorem visible_indented (l k i n : Nat) {c : Char} (rest : List Char) (hc : c ≠ ' ') :
    visible (locateFrom l k i (List.replicate n ' ' ++ c :: rest)) =
      locateFrom l (k + n) (i + n) (c :: rest) := by
  induction n generalizing k i with
  | zero => exact visible_of_ne_space _ hc
  | succ n ih =>
      have hline : List.replicate (n + 1) ' ' ++ c :: rest =
          ' ' :: (List.replicate n ' ' ++ c :: rest) := rfl
      rw [hline, locateFrom_cons l k i _ (by decide), visible_of_space _ rfl, ih (k + 1) (i + 1)]
      rw [Nat.add_assoc k, Nat.add_assoc i, Nat.add_comm 1]

/-- Whether a line may start with this character: the first one of a word, or the sign of an
item. -/
def startsLine (c : Char) : Bool := isWordChar c || c == '-'

theorem ne_of_startsLine {c d : Char} (hc : startsLine c = true) (hd : startsLine d = false) :
    c ≠ d := by
  intro h
  rw [h, hd] at hc
  exact Bool.false_ne_true hc

theorem isSpace_of_startsLine {c : Char} (hc : startsLine c = true) : isSpace c = false := by
  by_cases hword : isWordChar c = true
  · exact isSpace_of_isWordChar hword
  · have hitem : c = '-' := by simpa [startsLine, hword] using hc
    rw [hitem]
    decide

/-- What follows a line: the end of the text, or a line that is indented by `limit` columns at
most. -/
inductive FollowsAt (limit : Nat) : List Char → Prop
  | stop : FollowsAt limit []
  | line {n : Nat} {c : Char} (rest : List Char) (hn : n ≤ limit) (hc : startsLine c = true) :
      FollowsAt limit (List.replicate n ' ' ++ c :: rest)

theorem FollowsAt.mono {limit limit' : Nat} {cs : List Char} (h : FollowsAt limit cs)
    (hle : limit ≤ limit') : FollowsAt limit' cs := by
  cases h with
  | stop => exact .stop
  | line rest hn hc => exact .line rest (Nat.le_trans hn hle) hc

structure FirstOfLine (limit line : Nat) (g : Glyph) : Prop where
  starts : startsLine g.char = true
  column_le : g.column ≤ limit
  line_eq : g.line = line

theorem FollowsAt.first {limit l i : Nat} {cs : List Char} {g : Glyph} {more : List Glyph}
    (h : FollowsAt limit cs) (hg : visible (locateFrom l 0 i cs) = g :: more) :
    FirstOfLine limit l g := by
  cases h with
  | stop => simp [locateFrom, visible] at hg
  | @line n c rest hn hc =>
      rw [visible_indented l 0 i n rest (ne_of_startsLine hc (by decide))] at hg
      obtain ⟨rfl, -⟩ := List.cons.inj hg
      exact ⟨hc, by simpa using hn, rfl⟩

/-! ## Plain scalars -/

/-- A word inside a plain scalar is read as it stands. -/
theorem plainRest?_word (floor l k i : Nat) (text : List Char) {cs : List Char}
    (rest : List Char) (hcs : ∀ c ∈ cs, isWordChar c = true) :
    plainRest? false floor text [] (locateFrom l k i (cs ++ rest)) =
      plainRest? false floor (cs.reverse ++ text) []
        (locateFrom l (k + cs.length) (i + cs.length) rest) := by
  induction cs generalizing k i text with
  | nil => rfl
  | cons c cs ih =>
      have hc := hcs c List.mem_cons_self
      have hcolon : c ≠ ':' := ne_of_isWordChar hc (by decide)
      have htail := ih (k + 1) (i + 1) (c :: text) fun d hd => hcs d (List.mem_cons_of_mem c hd)
      rw [List.cons_append, locateFrom_cons l k i _ (isBreak_of_isWordChar hc)]
      simpa [plainRest?, isSpace_of_isWordChar hc, isStuckColon, endsPlain, hcolon, joined, folded,
        Nat.add_assoc, Nat.add_comm 1] using htail

/-- A key ends at its colon. -/
theorem plain?_key (floor l k i : Nat) {key : List Char} {c : Char} (rest : List Char)
    (hkey : IsWord key) (hc : isSpace c = true) :
    plain? false floor (locateFrom l k i (key ++ ':' :: c :: rest)) =
      some ⟨key, false,
        locateFrom l (k + key.length) (i + key.length) (':' :: c :: rest)⟩ := by
  have hcolon : isSpace ':' = false := by decide
  have hends (l k i : Nat) : wordEnds (locateFrom l k i (c :: rest)) = true := hc
  rw [plain?, plainRest?_word floor l k i [] _ hkey.2, locateFrom_cons _ _ _ _ (by decide)]
  simp [plainRest?, isStuckColon, endsPlain, hends, hcolon]

/-- A gap with a line break ends a plain scalar, if what comes next is too far left. -/
theorem plainRest?_gap (floor : Nat) (text gap : List Char) (gs : List Glyph)
    (hgap : gap.any isBreak = true)
    (hnext : ∀ g more, visible gs = g :: more → isSpace g.char = false ∧ g.column < floor) :
    plainRest? false floor text gap gs = some ⟨text.reverse, true, visible gs⟩ := by
  induction gs generalizing gap with
  | nil => simp [plainRest?, visible, hgap]
  | cons g gs ih =>
      by_cases hg : g.char = ' '
      · rw [visible_of_space gs hg] at hnext ⊢
        have htail := ih (g.char :: gap) (by simp [hgap]) hnext
        have hspace : isSpace ' ' = true := by decide
        simpa [plainRest?, hspace, hg] using htail
      · rw [visible_of_ne_space gs hg] at hnext ⊢
        obtain ⟨hspace, hcolumn⟩ := hnext g gs rfl
        have hne : gap.isEmpty = false := by
          cases gap with
          | nil => simp at hgap
          | cons c gap => rfl
        simp [plainRest?, hspace, hne, endsPlainGap, hcolumn, hgap]

/-- A word at the end of a line is read with the line break and the next line's indentation. -/
theorem plain?_line (floor l k i : Nat) {word rest : List Char} {limit : Nat}
    (hword : IsWord word) (hlimit : limit < floor) (hrest : FollowsAt limit rest) :
    plain? false floor (locateFrom l k i (word ++ '\n' :: rest)) =
      some ⟨word, true, visible (locateFrom (l + 1) 0 (i + word.length + 1) rest)⟩ := by
  have hnext : ∀ g more, visible (locateFrom (l + 1) 0 (i + word.length + 1) rest) = g :: more →
      isSpace g.char = false ∧ g.column < floor := by
    intro g more hg
    have hfirst := hrest.first hg
    exact ⟨isSpace_of_startsLine hfirst.starts, Nat.lt_of_le_of_lt hfirst.column_le hlimit⟩
  rw [plain?, plainRest?_word floor l k i [] _ hword.2]
  have hgap := plainRest?_gap floor (word.reverse ++ []) ['\n'] _ (by decide) hnext
  simpa [locateFrom, plainRest?, isSpace, isBlank, isBreak] using hgap

end MethodFlow.Yaml
