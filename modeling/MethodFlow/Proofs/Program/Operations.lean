import MethodFlow.Proofs.Program.Growth
/-!
# Operations on programs

Programs are made by operations, one after the other, from the empty program. Each operation that
creates something gives it the next number, and leaves alone what has a number:

* `grown_perform`: what one operation adds, and that it keeps the rest;
* `keptIn_after`: what is there at one time is there later;
* `numbers_stable`: numbers once given stay, through any series of operations.
-/

namespace MethodFlow

inductive Operation where
  | createVariable (name : Option String)
  | createBlock
  | add (l : Label) (i : Instruction)
  | addAll (l : Label) (is : List Instruction)
  | insert (l : Label) (position : Nat) (i : Instruction)
  | addPhi (l : Label) (phi : Phi)
  | rename (l : Label) (f : Label → Except Violation Label)
  | insertNullChecks (kinds : List Dispatch)
  | split (domain nodes : List Label)

inductive Operation.Answer where
  | done
  | created (number : Nat)
  | inserted (count : Nat)
  | copied (copies : List Label)
  | refused (e : MethodError)
  | broken (violation : Violation)

namespace Program

open Operation (Answer)

variable {p q : Program} {op : Operation} {ops : List Operation}

/-- A program that was changed, or was not because the block is missing. -/
def edited (p : Program) : Except MethodError Program → Answer × Program
  | .ok q => (.done, q)
  | .error e => (.refused e, p)

/-- Inserts an instruction into a block, at a position that the block must have. -/
def insertInto (p : Program) (l : Label) (position : Nat) (i : Instruction) : Answer × Program :=
  match p.block l with
  | .error e => (.refused e, p)
  | .ok b =>
    match b.insert position i with
    | .ok c => (.done, p.setBlock l c)
    | .error violation => (.broken violation, p)

/-- Renames the labels in a block; a renaming that breaks off leaves what it has done. -/
def renameIn (p : Program) (l : Label) (f : Label → Except Violation Label) : Answer × Program :=
  match p.block l with
  | .error e => (.refused e, p)
  | .ok b => ((b.renameUntil f).2.elim .done .broken, p.setBlock l (b.renameUntil f).1)

def splitAnswer : Except MethodError (List Label) → Answer
  | .ok copies => .copied copies
  | .error e => .refused e

/-- The answer to an operation and the program that it leaves. What an operation leaves that runs out
of numbers is left open here: series of operations are looked at as long as there are numbers. -/
def perform (p : Program) : Operation → Answer × Program
  | .createVariable name =>
    match p.createVariable name with
    | .ok (v, q) => (.created v.index, q)
    | .error violation => (.broken violation, p)
  | .createBlock =>
    match p.createBlock with
    | .ok (l, q) => (.created l.index, q)
    | .error violation => (.broken violation, p)
  | .add l i => p.edited (p.modifyBlock l (·.add i))
  | .addAll l is => p.edited (p.modifyBlock l (·.addAll is))
  | .insert l position i => p.insertInto l position i
  | .addPhi l phi => p.edited (p.modifyBlock l (·.addPhi phi))
  | .rename l f => p.renameIn l f
  | .insertNullChecks kinds =>
    match p.insertNullChecks kinds with
    | .ok (count, q) => (.inserted count, q)
    | .error violation => (.broken violation, p)
  | .split domain nodes =>
    match p.split domain nodes with
    | .ok (result, q) => (splitAnswer result, q)
    | .error violation => (.broken violation, p)

/-! ## Room -/

def newVariables (p : Program) : Operation → Nat
  | .createVariable _ => 1
  | .insertNullChecks kinds => p.guardCount kinds
  | _ => 0

def newBlocks (p : Program) : Operation → Nat
  | .createBlock => 1
  | .split domain nodes =>
    if ∀ l ∈ nodes ++ domain, l.index < p.blockCount then nodes.length else 0
  | _ => 0

/-- There are numbers for all that the operation creates. -/
def HasRoomFor (p : Program) (op : Operation) : Prop :=
  p.variableCount + p.newVariables op ≤ indexLimit ∧ p.blockCount + p.newBlocks op ≤ indexLimit

instance (p : Program) (op : Operation) : Decidable (p.HasRoomFor op) :=
  inferInstanceAs (Decidable (_ ∧ _))

def after (p : Program) (ops : List Operation) : Program := ops.foldl (fun p op => (p.perform op).2) p

/-- There are numbers at every step. -/
def HasRoomForAll (p : Program) : List Operation → Prop
  | [] => True
  | op :: ops => p.HasRoomFor op ∧ (p.perform op).2.HasRoomForAll ops

instance decidableHasRoomForAll :
    (p : Program) → (ops : List Operation) → Decidable (p.HasRoomForAll ops)
  | _, [] => isTrue trivial
  | p, op :: ops => @instDecidableAnd _ _ _ (decidableHasRoomForAll (p.perform op).2 ops)

/-! ## One operation -/

/-- The operation keeps the program, and creates as many variables and blocks as it says. -/
structure Grown (p : Program) (op : Operation) : Prop where
  keptIn : p.KeptIn (p.perform op).2
  labelled : p.Labelled → (p.perform op).2.Labelled
  variableCount_eq : (p.perform op).2.variableCount = p.variableCount + p.newVariables op
  blockCount_eq : (p.perform op).2.blockCount = p.blockCount + p.newBlocks op

theorem InPlace.grown (h : p.InPlace (p.perform op).2) (hvariables : p.newVariables op = 0)
    (hblocks : p.newBlocks op = 0) : p.Grown op where
  keptIn := h.keptIn
  labelled := h.labelled
  variableCount_eq := by rw [hvariables, variableCount, h.infos_eq]; rfl
  blockCount_eq := by rw [hblocks, h.blockCount_eq]; rfl

theorem inPlace_edited {f : Block → Block} (hf : ∀ b : Block, b.KeptIn (f b)) (l : Label) :
    p.InPlace (p.edited (p.modifyBlock l f)).2 := by
  cases h : p.modifyBlock l f with
  | error e => exact .refl p
  | ok q => exact inPlace_modifyBlock hf h

theorem inPlace_insertInto (p : Program) (l : Label) (position : Nat) (i : Instruction) :
    p.InPlace (p.insertInto l position i).2 := by
  unfold insertInto
  cases hb : p.block l with
  | error e => exact .refl p
  | ok b =>
    dsimp only
    cases hc : b.insert position i with
    | error violation => exact .refl p
    | ok c => exact inPlace_setBlock (block_eq_ok_iff.mp hb) (Block.keptIn_insert hc)

theorem inPlace_renameIn (p : Program) (l : Label) (f : Label → Except Violation Label) :
    p.InPlace (p.renameIn l f).2 := by
  unfold renameIn
  cases hb : p.block l with
  | error e => exact .refl p
  | ok b => exact inPlace_setBlock (block_eq_ok_iff.mp hb) (b.keptIn_renameUntil f)

theorem createVariable_eq_ok (name : Option String) (hlt : p.variableCount < indexLimit) :
    p.createVariable name =
      .ok (⟨p.variableCount, hlt⟩, { p with infos := p.infos.push ⟨name⟩ }) := by
  unfold createVariable Variable.ofIndex
  rw [dif_pos hlt, ok_bind]
  rfl

theorem createBlock_eq_ok (hlt : p.blockCount < indexLimit) :
    p.createBlock = .ok (⟨p.blockCount, hlt⟩, p.append (.empty ⟨p.blockCount, hlt⟩)) := by
  unfold createBlock Label.ofIndex
  rw [dif_pos hlt, ok_bind]
  rfl

theorem keptIn_append (p : Program) (b : Block) : p.KeptIn (p.append b) where
  infos := List.prefix_refl _
  blocks _ c hc :=
    ⟨c, (getElem?_append_of_lt b (Array.getElem?_eq_some_iff.mp hc).1).trans hc, .refl c⟩

theorem Labelled.append {b : Block} (hp : p.Labelled) (hb : b.label.index = p.blockCount) :
    (p.append b).Labelled := by
  intro n c hc
  unfold Program.append at hc
  rw [Array.getElem?_push] at hc
  split at hc
  · next heq =>
    cases hc
    exact hb.trans heq.symm
  · exact hp n c hc

/-- Unknown blocks are found before anything is changed. -/
theorem perform_split_of_unknown {domain nodes : List Label}
    (hunknown : ¬∀ l ∈ nodes ++ domain, l.index < p.blockCount) :
    ∃ e, p.perform (.split domain nodes) = (.refused e, p) := by
  have hfar : ∃ l ∈ nodes ++ domain, p.blockCount ≤ l.index := by
    simpa only [not_forall, Nat.not_lt, exists_prop] using hunknown
  obtain ⟨e, he⟩ := exists_split_error_of_unknown hfar
  refine ⟨e, ?_⟩
  simp only [perform, he, splitAnswer]

theorem grown_createVariable {name : Option String} (h : p.HasRoomFor (.createVariable name)) :
    p.Grown (.createVariable name) := by
  have hperform : (p.perform (.createVariable name)).2 =
      { p with infos := p.infos.push ⟨name⟩ } := by
    simp only [perform, createVariable_eq_ok name h.1]
  refine ⟨hperform ▸ ⟨?_, (KeptIn.refl p).blocks⟩, fun hp => hperform ▸ hp, ?_, ?_⟩
  · rw [Array.toList_push]
    exact List.prefix_append _ _
  · rw [hperform]
    exact Array.size_push _
  · rw [hperform]
    rfl

theorem grown_createBlock (h : p.HasRoomFor .createBlock) : p.Grown .createBlock := by
  have hperform : (p.perform .createBlock).2 = p.append (.empty ⟨p.blockCount, h.2⟩) := by
    simp only [perform, createBlock_eq_ok h.2]
  refine ⟨hperform ▸ p.keptIn_append _, fun hp => hperform ▸ hp.append rfl, ?_, ?_⟩
  · rw [hperform]
    rfl
  · rw [hperform, blockCount_append]
    rfl

theorem grown_insertNullChecks {kinds : List Dispatch} (h : p.HasRoomFor (.insertNullChecks kinds)) :
    p.Grown (.insertNullChecks kinds) := by
  have hroom : HasRoom p.variableCount (p.guardCount kinds) := .inr h.1
  obtain ⟨q, checks, hq, hinserts, hlength⟩ := exists_insertNullChecks hroom
  have hperform : (p.perform (.insertNullChecks kinds)).2 = q := by
    simp only [perform, hq]
  refine ⟨hperform ▸ hinserts.keptIn, fun hp => ?_, ?_, ?_⟩
  · rw [hperform]
    exact hinserts.keptIn.labelled hp hinserts.blockCount_eq
  · rw [hperform, hinserts.variableCount_eq, hlength]
    rfl
  · rw [hperform, hinserts.blockCount_eq]
    rfl

theorem grown_split {domain nodes : List Label} (h : p.HasRoomFor (.split domain nodes)) :
    p.Grown (.split domain nodes) := by
  by_cases hknown : ∀ l ∈ nodes ++ domain, l.index < p.blockCount
  · have hnew : p.newBlocks (.split domain nodes) = nodes.length := if_pos hknown
    obtain ⟨copies, result, q, hq, -, hkept, hlabelled, hinfos, hcount⟩ :=
      exists_split_kept hknown (hnew ▸ h.2)
    have hperform : (p.perform (.split domain nodes)).2 = q := by
      simp only [perform, hq]
    refine ⟨hperform ▸ hkept, fun hp => hperform ▸ hlabelled hp, ?_, ?_⟩
    · rw [hperform, variableCount, hinfos]
      rfl
    · rw [hperform, hcount, hnew]
  · have hnone : p.newBlocks (.split domain nodes) = 0 := if_neg hknown
    obtain ⟨e, he⟩ := perform_split_of_unknown hknown
    apply InPlace.grown _ rfl hnone
    rw [he]
    exact .refl p

/-- What is there stays, whatever is done. -/
theorem grown_perform (h : p.HasRoomFor op) : p.Grown op := by
  cases op with
  | createVariable name => exact grown_createVariable h
  | createBlock => exact grown_createBlock h
  | add l i => exact (inPlace_edited (fun b => b.keptIn_add i) l).grown rfl rfl
  | addAll l is => exact (inPlace_edited (fun b => b.keptIn_addAll is) l).grown rfl rfl
  | insert l position i => exact (p.inPlace_insertInto l position i).grown rfl rfl
  | addPhi l phi => exact (inPlace_edited (fun b => b.keptIn_addPhi phi) l).grown rfl rfl
  | rename l f => exact (p.inPlace_renameIn l f).grown rfl rfl
  | insertNullChecks kinds => exact grown_insertNullChecks h
  | split domain nodes => exact grown_split h

/-- What is created gets the next number, and copies get the next numbers in order. -/
structure CreatesNext (p : Program) (op : Operation) : Prop where
  variable_number : ∀ name, op = .createVariable name →
    (p.perform op).1 = .created p.variableCount
  block_number : op = .createBlock → (p.perform op).1 = .created p.blockCount
  copy_numbers : ∀ domain nodes copies, op = .split domain nodes →
    (p.perform op).1 = .copied copies →
    copies.map (·.index) = List.range' p.blockCount nodes.length

theorem createsNext_perform (h : p.HasRoomFor op) : p.CreatesNext op where
  variable_number name hop := by
    subst hop
    simp only [perform, createVariable_eq_ok name h.1]
  block_number hop := by
    subst hop
    simp only [perform, createBlock_eq_ok h.2]
  copy_numbers domain nodes copies hop hcopied := by
    subst hop
    by_cases hknown : ∀ l ∈ nodes ++ domain, l.index < p.blockCount
    · have hnew : p.newBlocks (.split domain nodes) = nodes.length := if_pos hknown
      obtain ⟨made, result, q, hq, hfresh, -⟩ := exists_split_kept hknown (hnew ▸ h.2)
      simp only [perform, hq] at hcopied
      cases result with
      | error e => cases hcopied
      | ok =>
        cases hcopied
        exact hfresh
    · obtain ⟨e, he⟩ := perform_split_of_unknown hknown
      rw [he] at hcopied
      cases hcopied

/-! ## Series of operations -/

theorem after_append (p : Program) (before later : List Operation) :
    p.after (before ++ later) = (p.after before).after later := List.foldl_append

theorem hasRoomForAll_append {before later : List Operation} :
    p.HasRoomForAll (before ++ later) ↔
      p.HasRoomForAll before ∧ (p.after before).HasRoomForAll later := by
  induction before generalizing p with
  | nil => exact (and_iff_right trivial).symm
  | cons op before ih =>
    rw [List.cons_append, HasRoomForAll, HasRoomForAll, ih, and_assoc]
    rfl

/-- What is there is there after any series of operations. -/
theorem keptIn_after (h : p.HasRoomForAll ops) : p.KeptIn (p.after ops) := by
  induction ops generalizing p with
  | nil => exact .refl p
  | cons op ops ih => exact (grown_perform h.1).keptIn.trans (ih h.2)

theorem Labelled.after (hp : p.Labelled) (h : p.HasRoomForAll ops) : (p.after ops).Labelled := by
  induction ops generalizing p with
  | nil => exact hp
  | cons op ops ih => exact ih ((grown_perform h.1).labelled hp) h.2

theorem labelled_empty : empty.Labelled := by
  intro n b hb
  cases hb

/-- From the empty program on, blocks carry the numbers of their places, and what has a number keeps
it: later on there are the same variables and blocks and maybe more, variables are called what they
were called, and blocks have the phis, the incomings and the instructions that they had, in the same
order. What is created gets the next number. -/
theorem numbers_stable (before later : List Operation)
    (hroom : empty.HasRoomForAll (before ++ later)) :
    (empty.after before).Labelled ∧
    (empty.after before).KeptIn (empty.after (before ++ later)) ∧
    (empty.after before).variableCount ≤ (empty.after (before ++ later)).variableCount ∧
    (empty.after before).blockCount ≤ (empty.after (before ++ later)).blockCount ∧
    (∀ v : Variable, v.index < (empty.after before).variableCount →
      (empty.after (before ++ later)).nameOf v = (empty.after before).nameOf v) ∧
    ∀ op rest, later = op :: rest →
      (empty.after before).CreatesNext op ∧ (empty.after before).Grown op := by
  obtain ⟨hbefore, hlater⟩ := hasRoomForAll_append.mp hroom
  have hkept : (empty.after before).KeptIn (empty.after (before ++ later)) := by
    rw [after_append]
    exact keptIn_after hlater
  refine ⟨labelled_empty.after hbefore, hkept, hkept.variableCount_le, hkept.blockCount_le,
    fun v hv => hkept.nameOf_eq hv, fun op rest heq => ?_⟩
  subst heq
  exact ⟨createsNext_perform hlater.1, grown_perform hlater.1⟩

/-- Two blocks, and a call in the first of them. -/
def opening : List Operation :=
  [.createVariable (some "this"), .createBlock, .createBlock,
    .addAll 0 [.invoke ⟨.virtual, ⟨"A", "f", [], "V"⟩, some 0, [], none⟩, .jump 1],
    .addPhi 1 ⟨0, [⟨0, 0⟩]⟩, .add 1 (.exit none)]

/-- A check for the call, and two splits of which the second is refused. -/
def closing : List Operation :=
  [.insertNullChecks [.virtual], .split [0] [1], .split [0] [7], .createBlock]

theorem opening_stays :
    empty.HasRoomForAll (opening ++ closing) ∧
      (empty.after opening).KeptIn (empty.after (opening ++ closing)) ∧
      empty.after (opening ++ closing) =
        ⟨#[⟨0, [], [.nullCheck 1 0, .invoke ⟨.virtual, ⟨"A", "f", [], "V"⟩, some 1, [], none⟩,
              .jump 2]⟩,
            ⟨1, [⟨0, [⟨0, 0⟩]⟩], [.exit none]⟩, ⟨2, [⟨0, [⟨0, 0⟩]⟩], [.exit none]⟩, ⟨3, [], []⟩],
          #[⟨some "this"⟩, ⟨none⟩]⟩ ∧
      (empty.after (opening ++ closing)).nameOf 0 = .ok (some "this") ∧
      (empty.after opening).Labelled ∧ (empty.after opening).CreatesNext (.insertNullChecks [.virtual]) := by
  have hroom : empty.HasRoomForAll (opening ++ closing) := of_decide_eq_true (by cbv)
  obtain ⟨hlabelled, hkept, -, -, hname, hnext⟩ := numbers_stable opening closing hroom
  refine ⟨hroom, hkept, by cbv, ?_, hlabelled, (hnext _ _ rfl).1⟩
  rw [hname 0 (by cbv)]
  cbv

end Program

end MethodFlow
