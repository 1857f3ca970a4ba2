import MethodFlow.Proofs.ControlFlow.Reachability
import MethodFlow.Proofs.Escape.FactOrder
import MethodFlow.Proofs.NullCheck.Rewriting
import MethodFlow.Proofs.Splitting.Refusal
/-!
# Programs that only grow

A block may get more phis, more incomings and more instructions, and its operands may be rewritten,
but what stands in it stays and keeps its order:

* `Block.keptIn_renameUntil`: a renaming keeps a block, even if it breaks off;
* `InPlace.labelled`: blocks that are changed in their places keep their numbers;
* `Inserts.keptIn`, `exists_split_kept`: the insertion of null checks and a split keep all blocks,
  whether the split is refused or not.
-/

namespace MethodFlow

/-! ## What is kept -/

/-- The instruction with the blocks that it names and the object that it is called on left out. -/
def Instruction.form (i : Instruction) : Instruction := i.withoutLabels.mapObject fun _ => 0

/-- The second phi takes what the first takes, and more after it, into the same variable. -/
structure Phi.KeptIn (p q : Phi) : Prop where
  dest_eq : q.dest = p.dest
  uses : p.uses <+: q.uses

/-- The second block has the phis of the first in their places, and its instructions in their order
with others in front, between and behind; operands may differ. -/
structure Block.KeptIn (b c : Block) : Prop where
  label_eq : c.label = b.label
  phis : ∀ (n : Nat) (phi : Phi), b.phis[n]? = some phi →
    ∃ psi, c.phis[n]? = some psi ∧ phi.KeptIn psi
  instructions : (b.instructions.map (·.form)).Sublist (c.instructions.map (·.form))

namespace Phi.KeptIn

variable {p q r : Phi}

theorem refl (p : Phi) : p.KeptIn p := ⟨rfl, List.prefix_refl _⟩

theorem trans (h : p.KeptIn q) (h' : q.KeptIn r) : p.KeptIn r :=
  ⟨h'.dest_eq.trans h.dest_eq, h.uses.trans h'.uses⟩

theorem of_eq (hdest : q.dest = p.dest) (huses : q.uses = p.uses) : p.KeptIn q :=
  ⟨hdest, huses ▸ List.prefix_refl _⟩

end Phi.KeptIn

theorem Phi.keptIn_extend (p : Phi) (node copy : Label) : p.KeptIn (p.extend node copy) := by
  unfold Phi.extend
  split
  · exact .refl p
  · refine ⟨rfl, ?_⟩
    simp only [Phi.uses, List.map_append]
    exact List.prefix_append _ _

namespace Block.KeptIn

variable {b c d : Block}

theorem refl (b : Block) : b.KeptIn b := ⟨rfl, fun _ phi h => ⟨phi, h, .refl phi⟩, List.Sublist.refl _⟩

theorem trans (h : b.KeptIn c) (h' : c.KeptIn d) : b.KeptIn d where
  label_eq := h'.label_eq.trans h.label_eq
  phis n phi hphi := by
    obtain ⟨psi, hpsi, hkept⟩ := h.phis n phi hphi
    obtain ⟨chi, hchi, hkept'⟩ := h'.phis n psi hpsi
    exact ⟨chi, hchi, hkept.trans hkept'⟩
  instructions := h.instructions.trans h'.instructions

end Block.KeptIn

/-! ## Changes of one block -/

namespace Block

variable {b c : Block}

theorem keptIn_addAll (b : Block) (is : List Instruction) : b.KeptIn (b.addAll is) where
  label_eq := rfl
  phis _ phi h := ⟨phi, h, .refl phi⟩
  instructions := by
    simp only [addAll, List.map_append]
    exact List.sublist_append_left _ _

theorem keptIn_add (b : Block) (i : Instruction) : b.KeptIn (b.add i) := b.keptIn_addAll [i]

theorem keptIn_addPhi (b : Block) (phi : Phi) : b.KeptIn (b.addPhi phi) where
  label_eq := rfl
  phis n phi h := by
    have hlt : n < b.phis.length := (List.getElem?_eq_some_iff.mp h).1
    exact ⟨phi, (List.getElem?_append_left hlt).trans h, .refl phi⟩
  instructions := List.Sublist.refl _

theorem keptIn_insert {position : Nat} {i : Instruction} (h : b.insert position i = .ok c) :
    b.KeptIn c := by
  unfold insert at h
  split at h
  · cases h
    refine ⟨rfl, fun _ phi h => ⟨phi, h, .refl phi⟩, List.Sublist.map _ ?_⟩
    calc b.instructions
        = b.instructions.take position ++ b.instructions.drop position :=
          (List.take_append_drop position _).symm
      List.Sublist _ (b.instructions.take position ++ i :: b.instructions.drop position) :=
          (List.sublist_cons_self i _).append_left _
  · cases h

/-- Phis that are changed one by one stay in their places. -/
theorem keptIn_mapPhis {f : Phi → Phi} (hf : ∀ phi : Phi, phi.KeptIn (f phi)) (b : Block) :
    b.KeptIn { b with phis := b.phis.map f } where
  label_eq := rfl
  phis n phi h := by
    refine ⟨f phi, ?_, hf phi⟩
    rw [List.getElem?_map, h, Option.map_some]
  instructions := List.Sublist.refl _

/-- Phis and instructions that agree one by one, up to operands. -/
theorem KeptIn.of_map_eq (hlabel : c.label = b.label)
    (hphis : c.phis.map (fun phi => (phi.dest, phi.uses)) =
      b.phis.map fun phi => (phi.dest, phi.uses))
    (hinstructions : c.instructions.map (·.form) = b.instructions.map (·.form)) : b.KeptIn c where
  label_eq := hlabel
  phis n phi h := by
    have hplace := congrArg (·[n]?) hphis
    simp only [List.getElem?_map, h, Option.map_some] at hplace
    obtain ⟨psi, hpsi, heq⟩ := Option.map_eq_some_iff.mp hplace
    obtain ⟨hdest, huses⟩ := Prod.mk.inj heq
    exact ⟨psi, hpsi, .of_eq hdest huses⟩
  instructions := hinstructions ▸ List.Sublist.refl _

end Block

/-! ## Renaming -/

/-- Whatever the state, the computation gives something with the property. -/
def Always {σ α : Type} (P : α → Prop) (x : StateM σ α) : Prop := ∀ s, P (x.run s).1

namespace Always

variable {σ α β γ : Type} {P : α → Prop} {Q : β → Prop}

theorem pure {a : α} (h : P a) : Always P (Pure.pure a : StateM σ α) := fun _ => h

theorem any (x : StateM σ α) : Always (fun _ => True) x := fun _ => trivial

theorem bind {x : StateM σ α} {f : α → StateM σ β} (hx : Always P x)
    (hf : ∀ a, P a → Always Q (f a)) : Always Q (x >>= f) :=
  fun s => hf _ (hx s) (x.run s).2

/-- Items that are changed one by one agree in what each change leaves alone. -/
theorem mapM {f : α → StateM σ β} {before : α → γ} {after : β → γ}
    (h : ∀ a, Always (fun b => after b = before a) (f a)) (l : List α) :
    Always (fun l' => l'.map after = l.map before) (l.mapM f) := by
  induction l with
  | nil => exact pure rfl
  | cons a l ih =>
    rw [List.mapM_cons]
    refine bind (h a) fun b hb => bind ih fun l' hl' => pure ?_
    rw [List.map_cons, List.map_cons, hb, hl']

end Always

section Renaming

variable {σ : Type} (step : Label → StateM σ Label)

theorem Instruction.always_mapLabelsM (i : Instruction) :
    Always (fun j => j.form = i.form) (i.mapLabelsM step) := by
  cases i with
  | branch | pairBranch =>
    exact .bind (.any _) fun _ _ => .bind (.any _) fun _ _ => .pure rfl
  | jump => exact .bind (.any _) fun _ _ => .pure rfl
  | switch subject table otherwise =>
    have htable : Always (fun rows => rows.map (fun row : SwitchCase => { row with target := 0 }) =
        table.map fun row => { row with target := 0 })
        (table.mapM fun row => do return { row with target := ← step row.target }) := by
      refine Always.mapM (fun row => ?_) table
      exact .bind (.any _) fun _ _ => .pure rfl
    refine .bind htable fun rows hrows => .bind (.any _) fun _ _ => .pure ?_
    simp only [form, withoutLabels, mapLabels, mapObject, hrows]
  | _ => exact .pure rfl

theorem Phi.always_mapLabelsM (p : Phi) :
    Always (fun q => (q.dest, q.uses) = (p.dest, p.uses)) (p.mapLabelsM step) := by
  have hincomings : Always (fun is => is.map (·.value) = p.uses)
      (p.incomings.mapM fun i => do return { i with source := ← step i.source }) := by
    refine Always.mapM (fun i => ?_) p.incomings
    exact .bind (.any _) fun _ _ => .pure rfl
  exact .bind hincomings fun is his => .pure (congrArg (Prod.mk p.dest) his)

theorem Block.always_mapLabelsM (b : Block) : Always b.KeptIn (b.mapLabelsM step) :=
  .bind (.mapM (Phi.always_mapLabelsM step) b.phis) fun _ hphis =>
    .bind (.mapM (Instruction.always_mapLabelsM step) b.instructions) fun _ hinstructions =>
      .pure (.of_map_eq rfl hphis hinstructions)

end Renaming

/-- A renaming keeps a block, also if it breaks off on the way. -/
theorem Block.keptIn_renameUntil {ε : Type} (f : Label → Except ε Label) (b : Block) :
    b.KeptIn (b.renameUntil f).1 :=
  b.always_mapLabelsM _ none

theorem Block.keptIn_mapLabels (f : Label → Label) (b : Block) : b.KeptIn (b.mapLabels f) := by
  have hkept := b.keptIn_renameUntil fun l => (.ok (f l) : Except Unit Label)
  rwa [b.renameUntil_ok Unit f] at hkept

/-! ## Null checks -/

/-- Checks stand between the instructions, and calls change their objects only. -/
theorem Guards.forms_sublist {kinds : List Dispatch} {is js : List Instruction} {checks : Checks}
    (h : Guards kinds is js checks) : (is.map (·.form)).Sublist (js.map (·.form)) := by
  induction h with
  | nil => exact List.Sublist.refl _
  | keep _ _ ih => exact ih.cons_cons _
  | @check call checked object is js checks _ hobject _ ih =>
    have hform : (Instruction.invoke { call with object := some checked }).form =
        (Instruction.invoke call).form := by
      simp [Instruction.form, Instruction.withoutLabels, Instruction.mapLabels,
        Instruction.mapObject, hobject]
    rw [List.map_cons, List.map_cons, List.map_cons, hform]
    exact (ih.cons_cons _).cons _

theorem Block.Guards.keptIn {kinds : List Dispatch} {b c : Block} {checks : Checks}
    (h : b.Guards kinds c checks) : b.KeptIn c where
  label_eq := h.label_eq
  phis _ phi hphi := ⟨phi, h.phis_eq ▸ hphi, .refl phi⟩
  instructions := h.instructions.forms_sublist

theorem GuardsBlocks.exists_getElem? {kinds : List Dispatch} {bs cs : List Block} {checks : Checks}
    (h : GuardsBlocks kinds bs cs checks) {n : Nat} {b : Block} (hb : bs[n]? = some b) :
    ∃ c, cs[n]? = some c ∧ b.KeptIn c := by
  induction h generalizing n with
  | nil => cases hb
  | @cons d d' bs cs own more hd _ ih =>
    cases n with
    | zero =>
      cases hb
      exact ⟨d', rfl, hd.keptIn⟩
    | succ n => exact ih hb

/-! ## Programs -/

namespace Program

variable {p q r : Program} {b c : Block} {l : Label} {domain nodes copies : List Label}

/-- The second program has the variables of the first, with more behind them, and its blocks in
their places. -/
structure KeptIn (p q : Program) : Prop where
  infos : p.infos.toList <+: q.infos.toList
  blocks : ∀ (n : Nat) (b : Block), p.blocks[n]? = some b → ∃ c, q.blocks[n]? = some c ∧ b.KeptIn c

namespace KeptIn

theorem refl (p : Program) : p.KeptIn p := ⟨List.prefix_refl _, fun _ b h => ⟨b, h, .refl b⟩⟩

theorem trans (h : p.KeptIn q) (h' : q.KeptIn r) : p.KeptIn r where
  infos := h.infos.trans h'.infos
  blocks n b hb := by
    obtain ⟨c, hc, hkept⟩ := h.blocks n b hb
    obtain ⟨d, hd, hkept'⟩ := h'.blocks n c hc
    exact ⟨d, hd, hkept.trans hkept'⟩

variable (h : p.KeptIn q)

include h

theorem variableCount_le : p.variableCount ≤ q.variableCount := by
  have hlength := h.infos.length_le
  rwa [Array.length_toList, Array.length_toList] at hlength

theorem blockCount_le : p.blockCount ≤ q.blockCount := by
  rcases Nat.eq_zero_or_pos p.blockCount with hzero | hpos
  · omega
  · have hlast : p.blockCount - 1 < p.blocks.size := Nat.sub_lt hpos Nat.one_pos
    obtain ⟨c, hc, -⟩ := h.blocks _ _ (Array.getElem?_eq_getElem hlast)
    have hlt : p.blockCount - 1 < q.blockCount := (Array.getElem?_eq_some_iff.mp hc).1
    omega

/-- A variable of the program is called what it was called. -/
theorem nameOf_eq {v : Variable} (hv : v.index < p.variableCount) : q.nameOf v = p.nameOf v := by
  obtain ⟨more, hmore⟩ := h.infos
  have hlt : v.index < p.infos.size := hv
  have hinfo : q.infos[v.index]? = p.infos[v.index]? := by
    rw [← Array.getElem?_toList, ← hmore, List.getElem?_append_left hlt, Array.getElem?_toList]
  unfold nameOf
  rw [hinfo, Array.getElem?_eq_getElem hlt]

theorem labelled (hp : p.Labelled) (hcount : q.blockCount = p.blockCount) : q.Labelled := by
  intro n c hc
  have hlt : n < p.blockCount := hcount ▸ (Array.getElem?_eq_some_iff.mp hc).1
  obtain ⟨d, hd, hkept⟩ := h.blocks n _ (Array.getElem?_eq_getElem hlt)
  rw [hc] at hd
  cases hd
  rw [hkept.label_eq]
  exact hp n _ (Array.getElem?_eq_getElem hlt)

end KeptIn

structure InPlace (p q : Program) : Prop where
  infos_eq : q.infos = p.infos
  blockCount_eq : q.blockCount = p.blockCount
  blocks : ∀ (n : Nat) (b : Block), p.blocks[n]? = some b → ∃ c, q.blocks[n]? = some c ∧ b.KeptIn c

namespace InPlace

theorem refl (p : Program) : p.InPlace p := ⟨rfl, rfl, (KeptIn.refl p).blocks⟩

theorem keptIn (h : p.InPlace q) : p.KeptIn q := ⟨h.infos_eq ▸ List.prefix_refl _, h.blocks⟩

theorem trans (h : p.InPlace q) (h' : q.InPlace r) : p.InPlace r :=
  ⟨h'.infos_eq.trans h.infos_eq, h'.blockCount_eq.trans h.blockCount_eq,
    (h.keptIn.trans h'.keptIn).blocks⟩

theorem labelled (h : p.InPlace q) (hp : p.Labelled) : q.Labelled :=
  h.keptIn.labelled hp h.blockCount_eq

end InPlace

theorem inPlace_setBlock (hb : p.blocks[l.index]? = some b) (h : b.KeptIn c) :
    p.InPlace (p.setBlock l c) where
  infos_eq := rfl
  blockCount_eq := Array.size_setIfInBounds
  blocks n d hd := by
    unfold setBlock
    rw [Array.getElem?_setIfInBounds]
    split
    · next heq =>
      subst heq
      rw [hb] at hd
      cases hd
      exact ⟨c, if_pos (Array.getElem?_eq_some_iff.mp hb).1, h⟩
    · exact ⟨d, hd, .refl d⟩

theorem block_eq_ok_iff : p.block l = .ok b ↔ p.blocks[l.index]? = some b := by
  unfold block
  cases p.blocks[l.index]? <;> simp

theorem inPlace_modifyBlock {f : Block → Block} (hf : ∀ b : Block, b.KeptIn (f b))
    (h : p.modifyBlock l f = .ok q) : p.InPlace q := by
  unfold modifyBlock at h
  cases hb : p.block l with
  | error e =>
    rw [hb] at h
    cases h
  | ok b =>
    rw [hb] at h
    cases h
    exact inPlace_setBlock (block_eq_ok_iff.mp hb) (hf b)

/-! ## Passes -/

theorem Inserts.keptIn {kinds : List Dispatch} {checks : Checks} (h : p.Inserts kinds q checks) :
    p.KeptIn q where
  infos := by
    rw [h.infos_eq, Array.toList_append]
    exact List.prefix_append _ _
  blocks n b hb := by
    rw [← Array.getElem?_toList] at hb
    obtain ⟨c, hc, hkept⟩ := h.blocks.exists_getElem? hb
    exact ⟨c, by rwa [← Array.getElem?_toList], hkept⟩

theorem Copied.keptIn (h : Copied p nodes copies q) : p.KeptIn q where
  infos := h.infos_eq ▸ List.prefix_refl _
  blocks _ b hb :=
    ⟨b, (h.getElem?_of_lt (Array.getElem?_eq_some_iff.mp hb).1).trans hb, .refl b⟩

/-- A copy carries the number of its place. -/
theorem Copied.labelled (h : Copied p nodes copies q) (hp : p.Labelled) : q.Labelled := by
  intro n b hb
  rcases Nat.lt_or_ge n p.blockCount with hlt | hge
  · rw [h.getElem?_of_lt hlt] at hb
    exact hp n b hb
  · have hn : n < p.blockCount + nodes.length :=
      h.blockCount_eq ▸ (Array.getElem?_eq_some_iff.mp hb).1
    have hplace : n - p.blockCount < nodes.length := by omega
    obtain ⟨copy, hcopy, hpair⟩ := h.fresh.exists_copy rfl (List.getElem?_eq_getElem hplace)
    have hindex : copy.index = n := by
      rw [h.fresh.index_eq hcopy]
      omega
    have hblock := h.getElem?_copy hpair
    rw [hindex, hb] at hblock
    cases hblock
    exact hindex

theorem inPlace_redirectBlocks (p : Program) (pairs : List (Label × Label)) (labels : List Label) :
    p.InPlace (p.redirectBlocks pairs labels) := by
  unfold redirectBlocks
  induction labels generalizing p with
  | nil => exact .refl p
  | cons l rest ih =>
    refine InPlace.trans ?_ (ih _)
    refine ⟨rfl, Array.size_modify, fun n b hb => ?_⟩
    rw [Array.getElem?_modify, hb]
    split
    · exact ⟨_, rfl, b.keptIn_mapLabels _⟩
    · exact ⟨b, rfl, .refl b⟩

theorem inPlace_extendPhis (p : Program) (node copy : Label) (exits : List Label) :
    p.InPlace (p.extendPhis node copy exits).2 := by
  induction exits generalizing p with
  | nil => exact .refl p
  | cons exit rest ih =>
    unfold extendPhis
    cases h : p.modifyBlock exit fun b => { b with phis := b.phis.map (·.extend node copy) } with
    | error e => exact .refl p
    | ok q =>
      have hfirst : p.InPlace q :=
        inPlace_modifyBlock (Block.keptIn_mapPhis fun phi => phi.keptIn_extend node copy) h
      exact hfirst.trans (ih q)

/-- Whether the phis of all exits are extended or not, blocks are changed in their places. -/
theorem inPlace_extendExits (p : Program) (pairs : List (Label × Label)) (domain : List Label)
    (rest : List (Label × Label)) : p.InPlace (p.extendExits pairs domain rest).2 := by
  induction rest generalizing p with
  | nil => exact .refl p
  | cons pair rest ih =>
    unfold extendExits
    cases p.exitsOf pairs domain pair.2 with
    | error e => exact .refl p
    | ok exits =>
      have hfirst := inPlace_extendPhis p pair.1 pair.2 exits
      dsimp only
      split
      · next q h =>
        rw [h] at hfirst
        exact hfirst.trans (ih q)
      · next e q h =>
        rw [h] at hfirst
        exact hfirst

/-- A split of known blocks keeps the program and adds a block for each node, whatever it answers. -/
theorem exists_split_kept (hknown : ∀ l ∈ nodes ++ domain, l.index < p.blockCount)
    (hroom : p.blockCount + nodes.length ≤ indexLimit) :
    ∃ (copies : List Label) (result : Except MethodError Unit) (q : Program),
      p.split domain nodes = .ok (result.map fun _ => copies, q) ∧
      p.Fresh nodes.length copies ∧ p.KeptIn q ∧ (p.Labelled → q.Labelled) ∧
      q.infos = p.infos ∧ q.blockCount = p.blockCount + nodes.length := by
  obtain ⟨hnodes, hdomain⟩ := List.forall_mem_append.mp hknown
  obtain ⟨copies, copied, hcopies⟩ := exists_copyBlocks hroom
  have hcopied := copied_of_copyBlocks hnodes hcopies
  have hchanged : copied.InPlace ((redirected copied domain nodes copies).extendExits
      (nodes.zip copies) domain (nodes.zip copies)).2 :=
    (inPlace_redirectBlocks copied (nodes.zip copies) (copies ++ domain)).trans
      (inPlace_extendExits _ _ _ _)
  refine ⟨copies, _, _, split_eq_extendExits hnodes hdomain hcopies rfl, hcopied.fresh,
    hcopied.keptIn.trans hchanged.keptIn, fun hp => hchanged.labelled (hcopied.labelled hp), ?_, ?_⟩
  · rw [hchanged.infos_eq, hcopied.infos_eq]
  · rw [hchanged.blockCount_eq, hcopied.blockCount_eq]

end Program

end MethodFlow
