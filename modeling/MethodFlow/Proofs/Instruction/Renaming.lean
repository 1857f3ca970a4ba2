import MethodFlow.Proofs.Instruction.Fields
import MethodFlow.Proofs.Loops
import MethodFlow.Proofs.Verification.Operands
/-!
# Renaming labels

To rename the labels of an instruction or a block changes these and nothing else:

* `Instruction.mapLabels_eq_iff`, `Block.mapLabels_eq_iff`: the result is the one thing that has the
  same kinds and fields but for the labels, which are renamed one by one;
* `Outcomes.mapLabelsM_block`: a renaming with effects that always gives a label is the plain one,
  whatever counts as giving;
* `renaming_natural`: what is read off an instruction follows the renaming, and renamings compose.
-/

namespace MethodFlow

/-! ## What follows a renaming -/

namespace Instruction

variable {i : Instruction} {f : Label → Label}

@[simp] theorem dest?_mapLabels : (i.mapLabels f).dest? = i.dest? := by
  cases i <;> rfl

@[simp] theorem uses_mapLabels : (i.mapLabels f).uses = i.uses := by
  cases i <;> rfl

@[simp] theorem isControlTransfer_mapLabels :
    (i.mapLabels f).isControlTransfer = i.isControlTransfer := by
  cases i <;> rfl

theorem targets?_mapLabels (f : Label → Label) (i : Instruction) :
    (i.mapLabels f).targets? = i.targets?.map (List.map f) := by
  cases i <;> simp [mapLabels, targets?]

@[simp] theorem vars_mapLabels : (i.mapLabels f).vars = i.vars := by
  unfold vars
  rw [dest?_mapLabels, uses_mapLabels]

@[simp] theorem targets_mapLabels : (i.mapLabels f).targets = i.targets.map f := by
  unfold targets
  rw [targets?_mapLabels]
  cases i.targets? <;> rfl

theorem mapLabels_mapLabels (f g : Label → Label) (i : Instruction) :
    (i.mapLabels f).mapLabels g = i.mapLabels (g ∘ f) := by
  cases i <;> simp [mapLabels]

/-- An instruction refers to nothing but its targets. -/
theorem mapLabels_eq_self (h : ∀ l ∈ i.targets, f l = l) : i.mapLabels f = i := by
  cases i with
  | switch subject table otherwise =>
    have htable : table.map (fun row => { row with target := f row.target }) = table := by
      refine (List.map_congr_left fun row hrow => ?_).trans (List.map_id table)
      have htarget : f row.target = row.target := by
        apply h _
        exact List.mem_append_left _ (List.mem_map.mpr ⟨row, hrow, rfl⟩)
      rw [htarget]
      rfl
    have hotherwise : f otherwise = otherwise := by
      apply h _
      exact List.mem_append_right _ (List.mem_singleton.mpr rfl)
    rw [mapLabels, htable, hotherwise]
  | _ => simp_all [mapLabels, targets, targets?]

end Instruction

theorem Phi.mapLabels_mapLabels (f g : Label → Label) (phi : Phi) :
    (phi.mapLabels f).mapLabels g = phi.mapLabels (g ∘ f) := by
  simp [mapLabels]

theorem Block.mapLabels_mapLabels (f g : Label → Label) (b : Block) :
    (b.mapLabels f).mapLabels g = b.mapLabels (g ∘ f) := by
  simp [mapLabels, Phi.mapLabels_mapLabels, Instruction.mapLabels_mapLabels]

/-! ## What is renamed -/

def Field.mapLabels (f : Label → Label) : Field → Field
  | .label l => .label (f l)
  | .table rows => .table (rows.map fun row => { row with target := f row.target })
  | .variable v => .variable v
  | .optional v => .optional v
  | .variables vs => .variables vs
  | .plain value => .plain value

/-- The second instruction is of the kind of the first, and has its fields but for the labels, which
are renamed. -/
structure Instruction.RenamedBy (f : Label → Label) (i j : Instruction) : Prop where
  kind_eq : j.kind = i.kind
  fields_eq : j.fields = i.fields.map (·.mapLabels f)

structure Phi.RenamedBy (f : Label → Label) (p q : Phi) : Prop where
  dest_eq : q.dest = p.dest
  incomings : List.Forall₂ (fun i j => j.source = f i.source ∧ j.value = i.value)
    p.incomings q.incomings

structure Block.RenamedBy (f : Label → Label) (b c : Block) : Prop where
  label_eq : c.label = b.label
  phis : List.Forall₂ (Phi.RenamedBy f) b.phis c.phis
  instructions : List.Forall₂ (Instruction.RenamedBy f) b.instructions c.instructions

theorem map_eq_iff_forall₂ {α β : Type} {g : α → β} {R : α → β → Prop}
    (hR : ∀ a b, g a = b ↔ R a b) (l : List α) (l' : List β) :
    l.map g = l' ↔ List.Forall₂ R l l' := by
  rw [← List.forall₂_eq_eq_eq, List.forall₂_map_left_iff]
  simp only [hR]

namespace Instruction

variable {f : Label → Label}

@[simp] theorem kind_mapLabels (i : Instruction) : (i.mapLabels f).kind = i.kind := by
  cases i <;> rfl

theorem fields_mapLabels (i : Instruction) :
    (i.mapLabels f).fields = i.fields.map (·.mapLabels f) := by
  cases i <;> rfl

theorem mapLabels_eq_iff (i j : Instruction) : i.mapLabels f = j ↔ i.RenamedBy f j := by
  constructor
  · rintro rfl
    exact ⟨i.kind_mapLabels, i.fields_mapLabels⟩
  · intro h
    apply eq_of_fields
    · rw [kind_mapLabels, h.kind_eq]
    · rw [fields_mapLabels, h.fields_eq]

theorem mapLabels_id (i : Instruction) : i.mapLabels id = i := mapLabels_eq_self fun _ _ => rfl

end Instruction

namespace Phi

variable {f : Label → Label}

theorem mapLabels_eq_iff (p q : Phi) : p.mapLabels f = q ↔ p.RenamedBy f q := by
  have hincoming (i j : Incoming) :
      { i with source := f i.source } = j ↔ j.source = f i.source ∧ j.value = i.value := by
    cases j; simp [eq_comm]
  have hincomings := map_eq_iff_forall₂ hincoming p.incomings
  constructor
  · rintro rfl
    exact ⟨rfl, (hincomings _).mp rfl⟩
  · rintro ⟨hdest, htaken⟩
    cases q
    cases hdest
    rw [mapLabels, (hincomings _).mpr htaken]

theorem mapLabels_id (p : Phi) : p.mapLabels id = p := by
  simp [mapLabels]

end Phi

namespace Block

variable {f : Label → Label}

theorem mapLabels_eq_iff (b c : Block) : b.mapLabels f = c ↔ b.RenamedBy f c := by
  have hphis := map_eq_iff_forall₂ (Phi.mapLabels_eq_iff (f := f)) b.phis c.phis
  have hinstructions := map_eq_iff_forall₂ (Instruction.mapLabels_eq_iff (f := f))
    b.instructions c.instructions
  constructor
  · rintro rfl
    exact ⟨rfl, hphis.mp rfl, hinstructions.mp rfl⟩
  · rintro ⟨hlabel, hrenamed, hrenamed'⟩
    cases c
    cases hlabel
    rw [mapLabels, hphis.mpr hrenamed, hinstructions.mpr hrenamed']

theorem mapLabels_id (b : Block) : b.mapLabels id = b := by
  simp [mapLabels, Phi.mapLabels_id, Instruction.mapLabels_id]

end Block

/-! ## Renaming with effects -/

structure Outcomes (m : Type → Type) [Monad m] where
  Gives : {α : Type} → m α → α → Prop
  pure : ∀ {α : Type} (a : α), Gives (Pure.pure a) a
  bind : ∀ {α β : Type} {x : m α} {k : α → m β} {a : α} {b : β},
    Gives x a → Gives (k a) b → Gives (x >>= k) b

namespace Outcomes

/-- A computation that may fail gives what it succeeds with. -/
def succeeding (ε : Type) : Outcomes (Except ε) where
  Gives x a := x = .ok a
  pure _ := rfl
  bind hx hk := by rw [hx, ok_bind, hk]

/-- A computation with a state gives what it answers in this state, if it leaves the state. -/
def staying {σ : Type} (s : σ) : Outcomes (StateM σ) where
  Gives x a := x.run s = (a, s)
  pure _ := rfl
  bind hx hk := by rw [StateT.run_bind, hx]; exact hk

variable {m : Type → Type} [Monad m] [LawfulMonad m] (o : Outcomes m) {α β : Type}

theorem mapM {f : α → m β} {g : α → β} (h : ∀ a, o.Gives (f a) (g a)) (l : List α) :
    o.Gives (l.mapM f) (l.map g) := by
  induction l with
  | nil => exact o.pure []
  | cons a l ih =>
    rw [List.mapM_cons]
    exact o.bind (h a) (o.bind ih (o.pure _))

variable {step : Label → m Label} {f : Label → Label} (h : ∀ l, o.Gives (step l) (f l))

include h

theorem mapLabelsM_instruction (i : Instruction) :
    o.Gives (i.mapLabelsM step) (i.mapLabels f) := by
  cases i with
  | branch | pairBranch => exact o.bind (h _) (o.bind (h _) (o.pure _))
  | jump => exact o.bind (h _) (o.pure _)
  | switch subject table otherwise =>
    have htable := o.mapM (f := fun row : SwitchCase => do
      return { row with target := ← step row.target })
      (fun row => o.bind (h row.target) (o.pure { row with target := f row.target })) table
    exact o.bind htable (o.bind (h _) (o.pure _))
  | _ => exact o.pure _

theorem mapLabelsM_phi (p : Phi) : o.Gives (p.mapLabelsM step) (p.mapLabels f) := by
  have hincomings := o.mapM (f := fun i : Incoming => do
    return { i with source := ← step i.source })
    (fun i => o.bind (h i.source) (o.pure { i with source := f i.source })) p.incomings
  exact o.bind hincomings (o.pure _)

theorem mapLabelsM_block (b : Block) : o.Gives (b.mapLabelsM step) (b.mapLabels f) :=
  o.bind (o.mapM (o.mapLabelsM_phi h) b.phis)
    (o.bind (o.mapM (o.mapLabelsM_instruction h) b.instructions) (o.pure _))

end Outcomes

theorem Instruction.mapLabelsM_ok (ε : Type) (f : Label → Label) (i : Instruction) :
    i.mapLabelsM (fun l => (.ok (f l) : Except ε Label)) = .ok (i.mapLabels f) :=
  (Outcomes.succeeding ε).mapLabelsM_instruction (fun _ => rfl) i

/-- A renaming that never fails renames the whole block. -/
theorem Block.renameUntil_ok (ε : Type) (f : Label → Label) (b : Block) :
    b.renameUntil (fun l => (.ok (f l) : Except ε Label)) = (b.mapLabels f, none) := by
  apply (Outcomes.staying (none : Option ε)).mapLabelsM_block
  intro l
  rfl

/-- What is read off an instruction follows a renaming of its labels, or does not see it. An
instruction or a block keeps all but its labels, and these are renamed each. To rename by the
identity changes nothing, and to rename twice is to rename once, by both one after the other. A
renaming that may fail does the same as long as it does not. -/
theorem renaming_natural (f g : Label → Label) :
    (∀ i : Instruction,
      (i.mapLabels f).targets? = i.targets?.map (List.map f) ∧
      (i.mapLabels f).dest? = i.dest? ∧
      (i.mapLabels f).uses = i.uses ∧
      (i.mapLabels f).kind = i.kind ∧
      (i.mapLabels f).isControlTransfer = i.isControlTransfer ∧
      (∀ j, i.mapLabels f = j ↔ i.RenamedBy f j) ∧
      i.mapLabels id = i ∧
      (i.mapLabels f).mapLabels g = i.mapLabels (g ∘ f) ∧
      ∀ ε, i.mapLabelsM (fun l => (.ok (f l) : Except ε Label)) = .ok (i.mapLabels f)) ∧
    ∀ b : Block,
      (∀ c, b.mapLabels f = c ↔ b.RenamedBy f c) ∧
      b.mapLabels id = b ∧
      (b.mapLabels f).mapLabels g = b.mapLabels (g ∘ f) ∧
      ∀ ε, b.renameUntil (fun l => (.ok (f l) : Except ε Label)) = (b.mapLabels f, none) := by
  constructor
  · intro i
    exact ⟨i.targets?_mapLabels f, Instruction.dest?_mapLabels, Instruction.uses_mapLabels,
      i.kind_mapLabels, Instruction.isControlTransfer_mapLabels, i.mapLabels_eq_iff, i.mapLabels_id,
      i.mapLabels_mapLabels f g, fun ε => i.mapLabelsM_ok ε f⟩
  · intro b
    exact ⟨b.mapLabels_eq_iff, b.mapLabels_id, b.mapLabels_mapLabels f g,
      fun ε => b.renameUntil_ok ε f⟩

end MethodFlow
