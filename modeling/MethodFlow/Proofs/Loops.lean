import Mathlib.Data.List.Forall2
/-!
# Loops

A loop that may fail and whose steps all succeed is the loop without failure, and one that has
succeeded is a success of every step:

* `foldlM_eq_ok`, `foldrM_eq_ok`: each step succeeds from the states that the steps before it lead
  to;
* `mapM_eq_ok_iff`: the results are those of the steps, one by one.

A loop that goes on until its test fails need not end.  That it does is a relation between the
states where it starts and ends:

* `EndsAfter.invariant`: what every pass keeps holds at the end, where there is no other pass.
-/

namespace MethodFlow

variable {α β ε : Type}

theorem ok_bind {a : α} {f : α → Except ε β} : (Except.ok a >>= f) = f a := rfl

/-! ## Folding -/

theorem foldlM_eq_ok {f : β → α → Except ε β} {g : β → α → β} {P : β → Prop} {l : List α} {b : β}
    (hb : P b) (hstep : ∀ a ∈ l, ∀ b, P b → f b a = .ok (g b a) ∧ P (g b a)) :
    l.foldlM f b = .ok (l.foldl g b) ∧ P (l.foldl g b) := by
  induction l generalizing b with
  | nil => exact ⟨rfl, hb⟩
  | cons a l ih =>
    obtain ⟨hfirst, hinv⟩ := hstep a List.mem_cons_self b hb
    rw [List.foldlM_cons, hfirst]
    exact ih hinv fun a ha => hstep a (List.mem_cons_of_mem _ ha)

theorem foldrM_eq_ok {f : α → β → Except ε β} {g : α → β → β} {P : β → Prop} {l : List α} {b : β}
    (hb : P b) (hstep : ∀ a ∈ l, ∀ b, P b → f a b = .ok (g a b) ∧ P (g a b)) :
    l.foldrM f b = .ok (l.foldr g b) ∧ P (l.foldr g b) := by
  induction l with
  | nil => exact ⟨rfl, hb⟩
  | cons a l ih =>
    obtain ⟨hrest, hinv⟩ := ih fun a ha => hstep a (List.mem_cons_of_mem _ ha)
    rw [List.foldrM_cons, hrest]
    exact hstep a List.mem_cons_self _ hinv

/-! ## Searching -/

theorem findSomeM?_eq_ok {f : α → Except ε (Option β)} {g : α → Option β} {l : List α}
    (h : ∀ a ∈ l, f a = .ok (g a)) : l.findSomeM? f = .ok (l.findSome? g) := by
  induction l with
  | nil => rfl
  | cons a l ih =>
    rw [List.findSomeM?, h a List.mem_cons_self, List.findSome?_cons]
    cases g a with
    | some b => rfl
    | none => exact ih fun a ha => h a (List.mem_cons_of_mem _ ha)

theorem findM?_eq_ok {f : α → Except ε Bool} {g : α → Bool} {l : List α}
    (h : ∀ a ∈ l, f a = .ok (g a)) : l.findM? f = .ok (l.find? g) := by
  induction l with
  | nil => rfl
  | cons a l ih =>
    rw [List.findM?, h a List.mem_cons_self, List.find?_cons]
    cases g a with
    | true => rfl
    | false => exact ih fun a ha => h a (List.mem_cons_of_mem _ ha)

theorem filterM_eq_ok {f : α → Except ε Bool} {g : α → Bool} {l : List α}
    (h : ∀ a ∈ l, f a = .ok (g a)) : l.filterM f = .ok (l.filter g) := by
  have hloop : ∀ kept, l.filterAuxM f kept = .ok ((l.filter g).reverse ++ kept) := by
    induction l with
    | nil => exact fun _ => rfl
    | cons a l ih =>
      intro kept
      rw [List.filterAuxM, h a List.mem_cons_self, ok_bind,
        ih fun a ha => h a (List.mem_cons_of_mem _ ha), List.filter_cons]
      cases g a <;> simp
  unfold List.filterM
  rw [hloop, ok_bind, List.append_nil, List.reverse_reverse]
  rfl

/-! ## Mapping -/

theorem mapM_eq_ok {f : α → Except ε β} {g : α → β} {l : List α}
    (h : ∀ a ∈ l, f a = .ok (g a)) : l.mapM f = .ok (l.map g) := by
  induction l with
  | nil => rfl
  | cons a l ih =>
    rw [List.mapM_cons, h a List.mem_cons_self, ih fun b hb => h b (List.mem_cons_of_mem _ hb)]
    rfl

theorem mapM_eq_ok_iff {f : α → Except ε β} {l : List α} {rows : List β} :
    l.mapM f = .ok rows ↔ List.Forall₂ (fun a row => f a = .ok row) l rows := by
  induction l generalizing rows with
  | nil =>
    rw [List.forall₂_nil_left_iff]
    exact ⟨fun h => by cases h; rfl, fun h => by rw [h]; rfl⟩
  | cons a l ih =>
    rw [List.mapM_cons, List.forall₂_cons_left_iff]
    constructor
    · intro h
      cases hrow : f a with
      | error => rw [hrow] at h; cases h
      | ok row =>
        cases hrest : l.mapM f with
        | error => rw [hrow, hrest] at h; cases h
        | ok rest =>
          rw [hrow, hrest] at h
          cases h
          exact ⟨row, rest, rfl, ih.mp hrest, rfl⟩
    · rintro ⟨row, rest, hrow, hrest, rfl⟩
      rw [hrow, ih.mpr hrest]
      rfl

/-- If all succeed then each does, and every result is one of theirs. -/
theorem exists_of_mapM_eq_ok {f : α → Except ε β} {l : List α} {rows : List β}
    (h : l.mapM f = .ok rows) :
    (∀ a ∈ l, ∃ row ∈ rows, f a = .ok row) ∧ ∀ row ∈ rows, ∃ a ∈ l, f a = .ok row := by
  induction mapM_eq_ok_iff.mp h with
  | nil => simp
  | cons hfirst hrest ih =>
    obtain ⟨hleft, hright⟩ := ih (mapM_eq_ok_iff.mpr hrest)
    constructor
    · refine List.forall_mem_cons.mpr ⟨⟨_, List.mem_cons_self, hfirst⟩, fun a ha => ?_⟩
      obtain ⟨row, hrow, heq⟩ := hleft a ha
      exact ⟨row, List.mem_cons_of_mem _ hrow, heq⟩
    · refine List.forall_mem_cons.mpr ⟨⟨_, List.mem_cons_self, hfirst⟩, fun row hrow => ?_⟩
      obtain ⟨a, ha, heq⟩ := hright row hrow
      exact ⟨a, List.mem_cons_of_mem _ ha, heq⟩

/-! ## Ending -/

/-- The loop begun at `a` ends at `b`, after `n` passes.  Where its test fails there is no pass. -/
inductive EndsAfter (pass? : α → Option α) : (n : Nat) → (a b : α) → Prop where
  | stop {a : α} (h : pass? a = none) : EndsAfter pass? 0 a a
  | pass {n : Nat} {a b c : α} (h : pass? a = some b) (hrest : EndsAfter pass? n b c) :
    EndsAfter pass? (n + 1) a c

theorem EndsAfter.invariant {pass? : α → Option α} {P : α → Prop} {n : Nat} {a c : α}
    (hpass : ∀ a b, P a → pass? a = some b → P b) (h : EndsAfter pass? n a c) (ha : P a) :
    P c ∧ pass? c = none := by
  induction h with
  | stop hstop => exact ⟨ha, hstop⟩
  | pass hb _ ih => exact ih (hpass _ _ ha hb)

end MethodFlow
