import MethodFlow.Proofs.ControlFlow.Reachability
import MethodFlow.Proofs.Strict.Graph
/-!
# Strict verification

Verification with strict tables and strict labels.  The table of marks has an entry for each block,
but it is read at the numbers that blocks carry, which need not be those of their places.  And the
next block has a number, but in a program of too many blocks this need not be a label:

* `run_successors_of_last`: the block of the last label may be in need of another one;
* `gives_verify`: where a number is that of no block, an error comes before the table is read, so
  that a label can be missing but no entry.
-/

namespace MethodFlow.Strict

open MethodFlow.Graph

/-- A computation that ends in a result or an error, unless a violation ends it. -/
abbrev Checked := ExceptT MethodError (Except Violation)

/-- It ends as it should, unless the program has more blocks than there are labels and it is in need
of one more. -/
def Gives {α : Type} (p : Program) (run : Checked α) (outcome : Except MethodError α) : Prop :=
  run.run = .ok outcome ∨ indexLimit < p.blockCount ∧ run.run = .error .labelTooLarge

/-! ## Checks

Each definition is the one of its name, with strict tables and labels. -/

def successors (p : Program) (l : Label) : Checked (List Label) := do
  let b ← p.block l
  match b.last?.bind Instruction.targets? with
  | some targets => return targets
  | none =>
    if l.index + 1 < p.blockCount then return [← Label.ofIndex (l.index + 1)] else return []

def edgesFrom (p : Program) (b : Block) : Checked (List (Nat × Nat)) := do
  (← successors p b.label).mapM fun target => do
    let target ← p.checkLabel target (.named "control transfer target")
    return (b.label.index, target)

def controlEdges (p : Program) : Checked (List (Nat × Nat)) := do
  return (← p.blocks.toList.mapM (edgesFrom p)).flatten

def phiDefect? (phi : Phi) (predecessors : List Nat) (reachable : Array Bool) :
    Except Violation (Option PhiDefect) := do
  let sources := phi.incomings.map (·.source.index)
  match sourceDefect? phi.dest.index predecessors [] sources with
  | some defect => return some defect
  | none =>
    let missing ← predecessors.findM? fun b => do
      return (← read reachable b) && !sources.contains b
    return missing.map (.missingSource phi.dest.index)

def invalidPhi? (g : Adjacency) (reachable : Array Bool) (b : Block) :
    Except Violation (Option MethodError) := do
  if ← read reachable b.label.index then
    b.phis.findSomeM? fun phi => do
      return (← phiDefect? phi (predecessors g b.label.index) reachable).map
        (.invalidPhi b.label.index)
  else return none

def reachableBlocks (p : Program) (g : Adjacency) : Except Violation (Array Bool) :=
  if p.blockCount = 0 then .ok #[] else spread g (.replicate p.blockCount false) [0]

def disagreement? (p : Program) (edges : List (Nat × Nat)) :
    Except Violation (Option MethodError) := do
  let g ← ofEdges p.blockCount edges
  let reachable ← reachableBlocks p g
  p.blocks.toList.findSomeM? (invalidPhi? g reachable)

def verify (p : Program) : Checked Unit := do
  p.verifyOperands
  match p.blocks.toList.findSome? Block.malformed? with
  | some e => throw e
  | none =>
    match ← disagreement? p (← controlEdges p) with
    | some e => throw e
    | none => return ()

variable {p : Program} {b : Block} {g : Adjacency} {reachable : Array Bool}

/-! ## Control flow -/

section Gives

variable {α β : Type} {run : Checked α} {outcome : Except MethodError α}

/-- What the first step should end in is what the second goes on from. -/
theorem Gives.bind {f : α → Checked β} {g : α → Except MethodError β} (h : Gives p run outcome)
    (hnext : ∀ a, outcome = .ok a → Gives p (f a) (g a)) :
    Gives p (run >>= f) (outcome >>= g) := by
  unfold Gives
  rw [ExceptT.run_bind]
  rcases h with hrun | ⟨hlarge, hrun⟩
  · rw [hrun]
    cases outcome with
    | error e => exact .inl rfl
    | ok a => exact hnext a rfl
  · rw [hrun]
    exact .inr ⟨hlarge, rfl⟩

theorem gives_mapM {f : α → Checked β} {g : α → Except MethodError β}
    (h : ∀ a, Gives p (f a) (g a)) (l : List α) : Gives p (l.mapM f) (l.mapM g) := by
  induction l with
  | nil => exact .inl rfl
  | cons a l ih =>
    rw [List.mapM_cons, List.mapM_cons]
    exact (h a).bind fun _ _ => ih.bind fun _ _ => .inl rfl

/-- A step that always succeeds adds no error and no violation to those of the step before. -/
theorem run_bind_iff_of_exists {f : α → Checked β}
    (h : ∀ a, run.run = .ok (.ok a) → ∃ b, (f a).run = .ok (.ok b)) :
    (∀ e, (run >>= f).run = .ok (.error e) ↔ run.run = .ok (.error e)) ∧
      ∀ violation, (run >>= f).run = .error violation ↔ run.run = .error violation := by
  cases hrun : run.run with
  | error violation =>
    have hends : (run >>= f).run = .error violation := by
      rw [ExceptT.run_bind, hrun]
      rfl
    simp [hends]
  | ok outcome =>
    cases outcome with
    | error e =>
      have hends : (run >>= f).run = .ok (.error e) := by
        rw [ExceptT.run_bind, hrun]
        rfl
      simp [hends]
    | ok a =>
      obtain ⟨b, hb⟩ := h a hrun
      have hends : (run >>= f).run = .ok (.ok b) := by
        rw [ExceptT.run_bind, hrun]
        exact hb
      simp [hends]

end Gives

theorem gives_successors (p : Program) (l : Label) : Gives p (successors p l) (p.successors l) := by
  refine Gives.bind (.inl rfl) fun b _ => ?_
  cases b.last?.bind Instruction.targets? with
  | some targets => exact .inl rfl
  | none =>
    dsimp only
    by_cases hnext : l.index + 1 < p.blockCount
    · rw [if_pos hnext, if_pos hnext]
      unfold Gives Label.ofIndex Label.next?
      by_cases hlabel : l.index + 1 < indexLimit
      · rw [dif_pos hlabel, dif_pos hlabel]
        exact .inl rfl
      · rw [dif_neg hlabel]
        exact .inr ⟨by omega, rfl⟩
    · rw [if_neg hnext, if_neg hnext]
      exact .inl rfl

/-- The block of the last label has no label to fall through to, though there may be a next block. -/
theorem run_successors_of_last {l : Label} (hb : p.block l = .ok b)
    (hfalls : b.last?.bind Instruction.targets? = none) (hlast : l.index + 1 = indexLimit)
    (hlarge : indexLimit < p.blockCount) :
    (successors p l).run = .error .labelTooLarge := by
  have hnext : l.index + 1 < p.blockCount := hlast ▸ hlarge
  have hlabel : Label.ofIndex (l.index + 1) = .error .labelTooLarge :=
    dif_neg (Nat.not_lt_of_le hlast.ge)
  unfold successors
  rw [hb]
  simp only [liftM, monadLift, MonadLift.monadLift, ExceptT.run_bind, ExceptT.run_mk, pure_bind,
    hfalls, hnext, if_true, hlabel]
  rfl

theorem gives_edgesFrom (p : Program) (b : Block) : Gives p (edgesFrom p b) (p.edgesFrom b) := by
  refine (gives_successors p b.label).bind fun targets _ => ?_
  exact gives_mapM (fun target => Gives.bind (.inl rfl) fun _ _ => .inl rfl) targets

theorem gives_controlEdges (p : Program) : Gives p (controlEdges p) p.controlEdges :=
  (gives_mapM (gives_edgesFrom p) _).bind fun _ _ => .inl rfl

/-! ## Phis -/

theorem phiDefect_eq_ok {phi : Phi} {preds : List Nat} (h : ∀ u ∈ preds, u < reachable.size) :
    phiDefect? phi preds reachable = .ok (phi.defect? preds reachable) := by
  unfold phiDefect? Phi.defect?
  generalize phi.incomings.map (·.source.index) = sources
  dsimp only
  cases sourceDefect? phi.dest.index preds [] sources with
  | some defect => rfl
  | none =>
    have hmissing : preds.findM? (fun u => do return (← read reachable u) && !sources.contains u) =
        .ok (preds.find? fun u => reachable[u]?.getD false && !sources.contains u) := by
      refine findM?_eq_ok fun u hu => ?_
      rw [read_eq_ok_getD (h u hu) false]
      rfl
    dsimp only
    rw [hmissing]
    rfl

/-- The predecessors of a block are read as well as the block itself. -/
theorem invalidPhi_eq_ok (hb : b.label.index < reachable.size)
    (hpreds : ∀ u ∈ predecessors g b.label.index, u < reachable.size) :
    invalidPhi? g reachable b = .ok (b.invalidPhi? g reachable) := by
  unfold invalidPhi? Block.invalidPhi?
  rw [read_eq_ok_getD hb false]
  cases reachable[b.label.index]?.getD false with
  | false => rfl
  | true =>
    refine findSomeM?_eq_ok fun phi _ => ?_
    rw [phiDefect_eq_ok hpreds]
    rfl

/-! ## Programs -/

theorem reachableBlocks_eq_ok (hg : Closed g) (hsize : size g = p.blockCount) :
    reachableBlocks p g = .ok (p.reachableBlocks g) := by
  unfold reachableBlocks Program.reachableBlocks
  split
  · next hempty =>
    rw [hempty, Graph.spread, if_neg (by simp), Graph.spread]
    rfl
  · next hne =>
    refine spread_eq_ok hg (by rw [Array.size_replicate, hsize]) fun node hnode => ?_
    rw [List.mem_singleton.mp hnode, hsize]
    exact Nat.pos_of_ne_zero hne

/-- Whatever numbers the blocks carry, a block for which edges have been found is in the table. -/
theorem disagreement_eq_ok {edges : List (Nat × Nat)} (h : p.controlEdges = .ok edges) :
    disagreement? p edges = .ok (p.blocks.toList.findSome?
      (·.invalidPhi? (.ofEdges p.blockCount edges)
        (p.reachableBlocks (.ofEdges p.blockCount edges)))) := by
  obtain ⟨hblocks, hlt⟩ := Program.lt_of_controlEdges h
  have hclosed : Closed (Adjacency.ofEdges p.blockCount edges) := Adjacency.closed_ofEdges _ _
  have hsize : size (Adjacency.ofEdges p.blockCount edges) = p.blockCount :=
    Adjacency.size_ofEdges_of_lt fun edge hedge => max_lt (hlt edge hedge).1 (hlt edge hedge).2
  have hmarks : (p.reachableBlocks (.ofEdges p.blockCount edges)).size = p.blockCount := by
    rw [Program.reachableBlocks, size_spread, Array.size_replicate]
  unfold disagreement?
  rw [ofEdges_eq_ok, ok_bind, reachableBlocks_eq_ok hclosed hsize, ok_bind]
  refine findSomeM?_eq_ok fun b hb => invalidPhi_eq_ok ?_ fun u hu => ?_
  · rw [hmarks]
    exact hblocks b (Array.mem_toList_iff.mp hb)
  · rw [hmarks]
    exact (hlt _ (Adjacency.mem_predecessors_ofEdges.mp hu)).1

theorem gives_verify (p : Program) : Gives p (verify p) p.verify := by
  unfold verify Program.verify Program.controlFlow
  refine Gives.bind (.inl rfl) fun _ _ => ?_
  cases p.blocks.toList.findSome? Block.malformed? with
  | some e => exact .inl rfl
  | none =>
    dsimp only
    rw [bind_assoc]
    refine (gives_controlEdges p).bind fun edges hedges => ?_
    rw [pure_bind, disagreement_eq_ok hedges]
    cases p.blocks.toList.findSome? (·.invalidPhi? (.ofEdges p.blockCount edges)
      (p.reachableBlocks (.ofEdges p.blockCount edges))) <;> exact .inl rfl

/-- A number that is that of no block. -/
example : verify ⟨#[⟨7, [], [.exit none]⟩], #[]⟩ =
    .ok (.error (.danglingLabel 7 1 (.named "block lookup"))) := rfl

end MethodFlow.Strict
