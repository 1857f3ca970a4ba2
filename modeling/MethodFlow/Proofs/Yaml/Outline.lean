import MethodFlow.Proofs.Yaml.Scanning
import MethodFlow.Yaml.Outline
/-!
# Outlines are read line by line

The lines of an outline of plain words give the tokens of its keys in order. What a line gives is
said for every block that it may stand in and for every text that may follow it, so that lines
can be put after each other and under a key:

* `Reads.append`, `ReadsAsValue.afterKey`, `Reads.underKey`, `Reads.asBlock`: how lines are put
  together;
* `Outline.reads_text`: by induction, what the lines of an outline are read as;
* `Outline.tokens?_text`: the tokens of a whole text.
-/

namespace MethodFlow.Yaml

open Scanner (between)

/-! ## Lines -/

/-- A scanner at the start of a line, with a block of this column innermost. -/
def lineStart (column : Nat) (b : List Nat) (T : List Token) (l i : Nat) (cs : List Char) :
    Scanner :=
  between true (column :: b) T (visible (locateFrom l 0 i cs))

/-- Lines of a block that are read as these tokens. -/
structure Reads (column : Nat) (cs : List Char) (ts : List Token) : Prop where
  follows : ∀ {R : List Char}, FollowsAt column R → FollowsAt column (cs ++ R)
  leads : ∀ (l i : Nat) (b : List Nat) (T : List Token) {R : List Char}, FollowsAt column R →
    ∃ l' i', (lineStart column b T l i (cs ++ R)).LeadsTo
      (lineStart column b (ts.reverse ++ T) l' i' R)

/-- What stands after a key of a block and is read as these tokens, up to the end of a line. -/
def ReadsAsValue (column : Nat) (cs : List Char) (ts : List Token) : Prop :=
  ∀ (l k i : Nat) (b : List Nat) (T : List Token) {R : List Char}, column < k →
    FollowsAt column R → ∃ l' i',
      (between false (column :: b) T (locateFrom l k i (cs ++ R))).LeadsTo
        (lineStart column b (ts.reverse ++ T) l' i' R)

namespace Reads

theorem nil (column : Nat) : Reads column [] [] where
  follows := id
  leads := fun l i _ _ _ _ => ⟨l, i, .refl _⟩

theorem append {column : Nat} {cs cs' : List Char} {ts ts' : List Token}
    (h : Reads column cs ts) (h' : Reads column cs' ts') :
    Reads column (cs ++ cs') (ts ++ ts') where
  follows := by
    intro R hR
    rw [List.append_assoc]
    exact h.follows (h'.follows hR)
  leads := by
    intro l i b T R hR
    obtain ⟨l₁, i₁, hfirst⟩ := h.leads l i b T (h'.follows hR)
    obtain ⟨l₂, i₂, hsecond⟩ := h'.leads l₁ i₁ b (ts.reverse ++ T) hR
    refine ⟨l₂, i₂, ?_⟩
    rw [List.append_assoc, List.reverse_append, List.append_assoc]
    exact hfirst.trans hsecond

end Reads

def spaces (n : Nat) : List Char := List.replicate n ' '

/-! ## Keys -/

def keyTokens (key : String) : List Token := [.key, .scalar .plain key, .value]

/-- A key that is plain and short enough to be found. -/
def IsKey (key : String) : Prop := IsWord key.toList ∧ key.toList.length ≤ 1024

instance (key : String) : Decidable (IsKey key) := inferInstanceAs (Decidable (_ ∧ _))

theorem IsKey.startsWord {key : String} (h : IsKey key) :
    ∃ d ds, key.toList = d :: ds ∧ startsLine d = true := by
  obtain ⟨d, ds, hkey⟩ := List.exists_cons_of_ne_nil h.1.1
  have hd : isWordChar d = true := by
    apply h.1.2
    rw [hkey]
    exact List.mem_cons_self
  exact ⟨d, ds, hkey, by simp [startsLine, hd]⟩

/-- A key is seen at its column, whatever the line is indented by. -/
theorem IsKey.visible_eq {key : String} (h : IsKey key) (l i n : Nat) (rest : List Char) :
    visible (locateFrom l 0 i (spaces n ++ (key.toList ++ rest))) =
      locateFrom l n (i + n) (key.toList ++ rest) := by
  obtain ⟨d, ds, hkey, hd⟩ := h.startsWord
  have hvisible := visible_indented l 0 i n (ds ++ rest) (ne_of_startsLine hd (by decide))
  simpa [hkey, spaces] using hvisible

theorem IsKey.followsAt {key : String} (h : IsKey key) (column : Nat) (rest : List Char) :
    FollowsAt column (spaces column ++ (key.toList ++ rest)) := by
  obtain ⟨d, ds, hkey, hd⟩ := h.startsWord
  rw [hkey]
  exact .line (ds ++ rest) (Nat.le_refl column) hd

/-- A line with a key is read as the key and what stands after it. -/
theorem ReadsAsValue.afterKey {column : Nat} {key : String} {c : Char} {cs : List Char}
    {ts : List Token} (h : ReadsAsValue column (c :: cs) ts) (hkey : IsKey key)
    (hc : isSpace c = true) :
    Reads column (spaces column ++ (key.toList ++ ':' :: c :: cs)) (keyTokens key ++ ts) where
  follows := by
    intro R _
    rw [List.append_assoc, List.append_assoc]
    exact hkey.followsAt column _
  leads := by
    intro l i b T R hR
    have hline : Scanner.KeyLine key.toList c := ⟨hkey.1, hkey.2, hc⟩
    have hfirst := Scanner.leadsTo_key (k := column) (.more b T) hline l (i + column) (cs ++ R)
    rw [String.ofList_toList] at hfirst
    obtain ⟨l', i', hvalue⟩ := h l (column + key.toList.length + 1)
      (i + column + key.toList.length + 1) b
      (.value :: .scalar .plain key :: .key :: T) (by omega) hR
    refine ⟨l', i', ?_⟩
    have hstart : lineStart column b T l i
        (spaces column ++ (key.toList ++ ':' :: c :: cs) ++ R) =
        between true (column :: b) T
          (locateFrom l column (i + column) (key.toList ++ ':' :: c :: (cs ++ R))) := by
      rw [lineStart, List.append_assoc, List.append_assoc, hkey.visible_eq]
      rfl
    rw [hstart]
    simpa [keyTokens] using hfirst.trans hvalue

/-! ## Values -/

theorem readsAsValue_word (column : Nat) {word : String} (h : IsWord word.toList) :
    ReadsAsValue column (' ' :: (word.toList ++ ['\n'])) [.scalar .plain word] := by
  intro l k i b T R hk hR
  have hblank := Scanner.leadsTo_blank (column :: b) T false l k i (word.toList ++ '\n' :: R)
  have hword := Scanner.leadsTo_word (b := column :: b) T (l := l) (k := k + 1) (i := i + 1) h
    (Nat.lt_succ_self column) (Nat.succ_le_succ (Nat.le_of_lt hk)) false hR
  rw [String.ofList_toList] at hword
  refine ⟨l + 1, i + 1 + word.toList.length + 1, ?_⟩
  simpa [lineStart] using hblank.trans hword

theorem readsAsValue_flowPair (column : Nat) {first last : Char} {t t' : Token}
    (h : Scanner.IsFlowPair first last t t') :
    ReadsAsValue column [' ', first, last, '\n'] [t, t'] := by
  intro l k i b T R hk hR
  have hblank := Scanner.leadsTo_blank (column :: b) T false l k i (first :: last :: '\n' :: R)
  have hpair := h.leadsTo (b := column :: b) T l (k + 1) (i + 1) ('\n' :: R)
    (Nat.succ_le_succ (Nat.le_of_lt hk)) (Nat.succ_pos k)
  have hline := Scanner.leadsTo_newline (column :: b) (t' :: t :: T) false l (k + 1 + 2)
    (i + 1 + 2) R
  exact ⟨l + 1, i + 1 + 2 + 1, hblank.trans (hpair.trans hline)⟩

/-- Lines under a key that belong to the block of the key, as the items of a list do. -/
theorem Reads.underKey {column : Nat} {cs : List Char} {ts : List Token}
    (h : Reads column cs ts) : ReadsAsValue column ('\n' :: cs) ts := by
  intro l k i b T R hk hR
  obtain ⟨l', i', hlines⟩ := h.leads (l + 1) (i + 1) b T hR
  have hline := Scanner.leadsTo_newline (column :: b) T false l k i (cs ++ R)
  exact ⟨l', i', hline.trans hlines⟩

/-- Lines under a key that are indented further and start with a key are a block of their own. -/
theorem Reads.asBlock {column : Nat} {key : String} {c : Char} {cs : List Char} {ts : List Token}
    (h : Reads (column + 2) (spaces (column + 2) ++ (key.toList ++ ':' :: c :: cs)) ts)
    (hkey : IsKey key) (hc : isSpace c = true) :
    ReadsAsValue column ('\n' :: (spaces (column + 2) ++ (key.toList ++ ':' :: c :: cs)))
      (.blockMapping :: (ts ++ [.blockEnd])) := by
  intro l k i b T R hk hR
  let line := spaces (column + 2) ++ (key.toList ++ ':' :: c :: cs)
  have hline : Scanner.KeyLine key.toList c := ⟨hkey.1, hkey.2, hc⟩
  have hbreak := Scanner.leadsTo_newline (column :: b) T false l k i (line ++ R)
  have hvisible : visible (locateFrom (l + 1) 0 (i + 1) (line ++ R)) =
      locateFrom (l + 1) (column + 2) (i + 1 + (column + 2))
        (key.toList ++ ':' :: c :: (cs ++ R)) := by
    rw [List.append_assoc, List.append_assoc, hkey.visible_eq]
    rfl
  have hopened := Scanner.leadsTo_opened (b := column :: b) (T := T) (k := column + 2)
    (Nat.le_succ _) hline (l + 1) (i + 1 + (column + 2)) (cs ++ R)
  rw [← hvisible] at hopened
  obtain ⟨l', i', hlines⟩ := h.leads (l + 1) (i + 1) (column :: b) (.blockMapping :: T)
    (hR.mono (Nat.le_add_right column 2))
  have hclosed := Scanner.leadsTo_closed true (x := column + 2) (column :: b)
    (ts.reverse ++ .blockMapping :: T) (l := l') (i := i') hR (by omega)
  refine ⟨l', i', ?_⟩
  simpa [lineStart, line] using hbreak.trans (hopened.trans (hlines.trans hclosed))

/-! ## Items -/

theorem reads_item (column : Nat) {word : String} (h : IsWord word.toList) :
    Reads column (spaces column ++ '-' :: ' ' :: (word.toList ++ ['\n']))
      [.item, .scalar .plain word] where
  follows := by
    intro R _
    rw [List.append_assoc]
    exact .line _ (Nat.le_refl column) rfl
  leads := by
    intro l i b T R hR
    have hitem := Scanner.leadsTo_item b T (l := l) (i := i + column) h hR
    rw [String.ofList_toList] at hitem
    have hvisible := visible_indented l 0 i column (c := '-') (' ' :: (word.toList ++ '\n' :: R))
      (by decide)
    refine ⟨l + 1, i + column + 2 + word.toList.length + 1, ?_⟩
    rw [Nat.zero_add] at hvisible
    simpa [lineStart, spaces, hvisible] using hitem

def itemTokens (items : List String) : List Token :=
  items.flatMap fun item => [.item, .scalar .plain item]

theorem reads_items (column : Nat) {items : List String}
    (h : ∀ item ∈ items, IsWord item.toList) :
    Reads column
      (items.flatMap fun item => spaces column ++ '-' :: ' ' :: (item.toList ++ ['\n']))
      (itemTokens items) := by
  induction items with
  | nil => exact .nil column
  | cons item items ih =>
      have hitem := reads_item column (h item List.mem_cons_self)
      have hitems := ih fun x hx => h x (List.mem_cons_of_mem item hx)
      exact hitem.append hitems

/-! ## Written characters -/

/-- The characters that an outline of plain words is written with. -/
def isWritten (c : Char) : Bool := isWordChar c || " \n:-[]\x7b\x7d".toList.contains c

theorem isPrintable_of_isWritten {c : Char} (hc : isWritten c = true) : isPrintable c = true := by
  rw [isWritten, Bool.or_eq_true] at hc
  cases hc with
  | inl hword => exact isPrintable_of_isWordChar hword
  | inr hsign =>
      have hsigns : " \n:-[]\x7b\x7d".toList.all isPrintable = true := by decide
      exact List.all_eq_true.mp hsigns c (List.contains_iff_mem.mp hsign)

def IsWritten (s : String) : Prop := ∀ c ∈ s.toList, isWritten c = true

instance (s : String) : Decidable (IsWritten s) :=
  decidable_of_iff (s.toList.all isWritten = true) (by simp [IsWritten])

namespace IsWritten

theorem of_isWord {s : String} (h : IsWord s.toList) : IsWritten s :=
  fun c hc => by simp [isWritten, h.2 c hc]

theorem append {s t : String} (hs : IsWritten s) (ht : IsWritten t) : IsWritten (s ++ t) := by
  intro c hc
  rw [String.toList_append, List.mem_append] at hc
  exact hc.elim (hs c) (ht c)

theorem join {ss : List String} (h : ∀ s ∈ ss, IsWritten s) : IsWritten (String.join ss) := by
  intro c hc
  rw [String.toList_join, List.mem_flatMap] at hc
  obtain ⟨s, hs, hc⟩ := hc
  exact h s hs c hc

theorem unifyBreaks {s : String} (h : IsWritten s) : Yaml.unifyBreaks s.toList = s.toList := by
  unfold IsWritten at h
  generalize s.toList = cs at h ⊢
  induction cs with
  | nil => rfl
  | cons c cs ih =>
      have hne (d : Char) (hd : isWritten d = false) : c ≠ d := by
        intro heq
        rw [← heq, h c List.mem_cons_self] at hd
        exact Bool.false_ne_true hd.symm
      have hreturn : c ≠ '\r' := hne '\r' (by decide)
      have hnext : c ≠ '\u0085' := hne '\u0085' (by decide)
      rw [Yaml.unifyBreaks, ih fun d hd => h d (List.mem_cons_of_mem c hd)]
      · simp [hreturn, hnext]
      · intro _ heq
        exact absurd heq hreturn

theorem locate? {s : String} (h : IsWritten s) :
    Yaml.locate? s = some (locateFrom 0 0 0 s.toList) := by
  have hprintable : s.toList.all isPrintable = true :=
    List.all_eq_true.mpr fun c hc => isPrintable_of_isWritten (h c hc)
  rw [Yaml.locate?, if_pos hprintable, h.unifyBreaks]

end IsWritten

/-! ## Outlines -/

namespace Outline

/-- All keys are found, and all words and items are read as they stand. -/
def IsPlain : Outline → Prop
  | .done => True
  | .word key text more => IsKey key ∧ IsWord text.toList ∧ more.IsPlain
  | .words key items more => IsKey key ∧ (∀ item ∈ items, IsWord item.toList) ∧ more.IsPlain
  | .block key content more => IsKey key ∧ content.IsPlain ∧ more.IsPlain

def tokens : Outline → List Token
  | .done => []
  | .word key text more => keyTokens key ++ .scalar .plain text :: more.tokens
  | .words key items more =>
    keyTokens key ++
      (if items.isEmpty then [.flowSequence, .flowSequenceEnd] else itemTokens items) ++ more.tokens
  | .block key content more =>
    keyTokens key ++
      (if content.isEmpty then [.flowMapping, .flowMappingEnd]
      else .blockMapping :: (content.tokens ++ [.blockEnd])) ++ more.tokens

theorem toList_indentation (depth : Nat) : (indentation depth).toList = spaces (2 * depth) :=
  String.toList_ofList

/-- An outline with keys starts with one of them. -/
theorem exists_firstKey {o : Outline} (h : o.IsPlain) (hne : o.isEmpty = false) (depth : Nat) :
    ∃ key c cs, IsKey key ∧ isSpace c = true ∧
      (o.text depth).toList = spaces (2 * depth) ++ (key.toList ++ ':' :: c :: cs) := by
  cases o with
  | done => simp [isEmpty] at hne
  | word key text more =>
      refine ⟨key, ' ', text.toList ++ '\n' :: (more.text depth).toList, h.1, by decide, ?_⟩
      simp [Outline.text, toList_indentation]
  | words key items more =>
      cases items with
      | nil =>
          refine ⟨key, ' ', '[' :: ']' :: '\n' :: (more.text depth).toList, h.1, by decide, ?_⟩
          simp [Outline.text, itemsText, toList_indentation]
      | cons item items =>
          let lines := (item :: items).map fun item => indentation depth ++ "- " ++ item ++ "\n"
          refine ⟨key, '\n', (String.join lines).toList ++ (more.text depth).toList, h.1,
            by decide, ?_⟩
          simp [Outline.text, itemsText, toList_indentation, lines]
  | block key content more =>
      by_cases hcontent : content.isEmpty = true
      · refine ⟨key, ' ', '\x7b' :: '\x7d' :: '\n' :: (more.text depth).toList, h.1, by decide, ?_⟩
        simp [Outline.text, hcontent, toList_indentation]
      · refine ⟨key, '\n', (content.text (depth + 1)).toList ++ (more.text depth).toList, h.1,
          by decide, ?_⟩
        simp [Outline.text, hcontent, toList_indentation]

/-- The lines of an outline are read as its tokens. -/
theorem reads_text {o : Outline} (h : o.IsPlain) (depth : Nat) :
    Reads (2 * depth) (o.text depth).toList o.tokens := by
  induction o generalizing depth with
  | done => exact .nil _
  | word key text more ih =>
      have hline := (readsAsValue_word (2 * depth) h.2.1).afterKey h.1 (by decide)
      have hmore := ih h.2.2 depth
      simpa [Outline.text, Outline.tokens, toList_indentation] using hline.append hmore
  | words key items more ih =>
      have hmore := ih h.2.2 depth
      cases items with
      | nil =>
          have hline := (readsAsValue_flowPair (2 * depth) .sequence).afterKey h.1 (by decide)
          simpa [Outline.text, itemsText, Outline.tokens, toList_indentation]
            using hline.append hmore
      | cons item items =>
          have hline := (reads_items (2 * depth) h.2.1).underKey.afterKey h.1 (by decide)
          simpa [Outline.text, itemsText, Outline.tokens, toList_indentation, String.toList_join,
            List.flatMap_map] using hline.append hmore
  | block key content more ihcontent ih =>
      have hmore := ih h.2.2 depth
      -- An empty block has no line of its own that could open it.
      by_cases hcontent : content.isEmpty = true
      · have hline := (readsAsValue_flowPair (2 * depth) .mapping).afterKey h.1 (by decide)
        simpa [Outline.text, Outline.tokens, hcontent, toList_indentation]
          using hline.append hmore
      · obtain ⟨first, c, cs, hfirst, hc, htext⟩ :=
          exists_firstKey h.2.1 (Bool.eq_false_iff.mpr hcontent) (depth + 1)
        have hinner := ihcontent h.2.1 (depth + 1)
        rw [htext, Nat.mul_add_one] at hinner
        rw [Nat.mul_add_one] at htext
        have hline := (hinner.asBlock hfirst hc).afterKey h.1 (by decide)
        simpa [Outline.text, Outline.tokens, hcontent, htext, toList_indentation]
          using hline.append hmore

theorem isWritten_indentation (depth : Nat) : IsWritten (indentation depth) := by
  intro c hc
  rw [toList_indentation] at hc
  rw [(List.mem_replicate.mp hc).2]
  decide

theorem isWritten_text {o : Outline} (h : o.IsPlain) (depth : Nat) : IsWritten (o.text depth) := by
  have hindent := isWritten_indentation depth
  induction o generalizing depth with
  | done => exact (by decide : IsWritten "")
  | word key text more ih =>
      have hline : IsWritten (indentation depth ++ key ++ ": " ++ text ++ "\n") :=
        (((hindent.append (.of_isWord h.1.1)).append (by decide)).append (.of_isWord h.2.1)).append
          (by decide)
      exact hline.append (ih h.2.2 depth hindent)
  | words key items more ih =>
      have hitems : IsWritten (itemsText depth items) := by
        cases items with
        | nil => exact (by decide : IsWritten " []\n")
        | cons item items =>
          apply IsWritten.append (by decide)
          apply IsWritten.join
          simp only [List.forall_mem_map]
          intro x hx
          exact ((hindent.append (by decide)).append (.of_isWord (h.2.1 x hx))).append (by decide)
      have hline : IsWritten (indentation depth ++ key ++ ":" ++ itemsText depth items) :=
        ((hindent.append (.of_isWord h.1.1)).append (by decide)).append hitems
      exact hline.append (ih h.2.2 depth hindent)
  | block key content more ihcontent ih =>
      have hcontent := ihcontent h.2.1 (depth + 1) (isWritten_indentation _)
      have hinner : IsWritten
          (if content.isEmpty then " \x7b\x7d\n" else "\n" ++ content.text (depth + 1)) := by
        split
        · decide
        · exact IsWritten.append (by decide) hcontent
      have hline : IsWritten (indentation depth ++ key ++ ":" ++ _) :=
        ((hindent.append (.of_isWord h.1.1)).append (by decide)).append hinner
      exact hline.append (ih h.2.2 depth hindent)

/-! ## The tokens of a whole text -/

/-- The text of an outline that is not empty gives its tokens, as one block. -/
theorem tokens?_text {o : Outline} (h : o.IsPlain) (hne : o.isEmpty = false) :
    tokens? (locateFrom 0 0 0 (o.text 0).toList) =
      some (.blockMapping :: (o.tokens ++ [.blockEnd])) := by
  obtain ⟨key, c, cs, hkey, hc, htext⟩ := exists_firstKey h hne 0
  have htext : (o.text 0).toList = key.toList ++ ':' :: c :: cs := htext
  have hline : Scanner.KeyLine key.toList c := ⟨hkey.1, hkey.2, hc⟩
  have hvisible : visible (locateFrom 0 0 0 (o.text 0).toList) =
      locateFrom 0 0 0 (o.text 0).toList := by
    have hsame := hkey.visible_eq 0 0 0 (':' :: c :: cs)
    rw [htext]
    exact hsame
  have hopened : (between true [] [] (locateFrom 0 0 0 (o.text 0).toList)).LeadsTo
      (lineStart 0 [] [.blockMapping] 0 0 (o.text 0).toList) := by
    rw [lineStart.eq_def, hvisible, htext]
    exact Scanner.leadsTo_opened (b := []) (T := []) (Nat.zero_le 0) hline 0 0 cs
  obtain ⟨l, i, hlines⟩ := (reads_text h 0).leads 0 0 [] [.blockMapping] .stop
  rw [List.append_nil] at hlines
  have hstop := Scanner.finds_stop true [0] (o.tokens.reverse ++ [.blockMapping])
  have hfound := (hopened.trans hlines) _ hstop
  simpa [tokens?, between, Scanner.ofGlyphs] using hfound.run?

end Outline

end MethodFlow.Yaml
