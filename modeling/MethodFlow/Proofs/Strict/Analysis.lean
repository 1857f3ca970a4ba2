import MethodFlow.Proofs.Escape.Sinks
import MethodFlow.Proofs.Strict.DisjointSet
import MethodFlow.Proofs.Strict.Verification
/-!
# Strict analyses

The analyses with strict tables and labels.  One check of the operands, which are listed apart from
the facts and the sinks, is all that keeps them from leaving a table:

* `ofFacts_eq_ok`: facts about variables of the table, and slots in it, need no further check;
* `checks_suffice`: an analysis of any program ends in the error of the check or in its result.
-/

namespace MethodFlow

/-- The sinks of an instruction are variables that it names. -/
theorem Instruction.mem_vars_of_mem_sinks {i : Instruction} {v : Variable} (h : v ∈ i.sinks) :
    v ∈ i.vars :=
  List.mem_append_right _ (mem_sinks_iff.mp h).2

namespace Strict

open MethodFlow.Graph

/-! ## Analyses

Each definition is the one of its name, with strict tables. -/

def marksOf (size : Nat) (entries : List Nat) : Except Violation (Array Bool) :=
  entries.foldlM (fun marks entry => write marks entry true) (.replicate size false)

def markedIn (marks : Array Bool) : Except Violation (List Nat) :=
  (List.range marks.size).filterM (read marks)

def classes (variableCount : Nat) (facts : List Fact) : Except Violation DisjointSet :=
  (Fact.copies facts).foldlM
    (fun s pair => do return (← union s pair.1.index pair.2.index).2) (.ofSize variableCount)

def seed (classCount : Nat) (classOf : Array Nat) (marks : Array Bool) :
    Except Violation (Array Bool) := do
  marksOf classCount (← (← markedIn marks).mapM (read classOf))

def classGraph (classCount : Nat) (classOf : Array Nat) (facts : List Fact) :
    Except Violation Adjacency := do
  ofEdges classCount (← (Fact.fieldEdges facts).mapM fun (object, value) => do
    return (← read classOf object.index, ← read classOf value.index))

def close (g : Adjacency) (flags : Array Bool) : Except Violation (Array Bool) := do
  let (flags, _) ← markCycles g flags
  spread g (.replicate flags.size false) (← markedIn flags)

def ofFacts (variableCount : Nat) (slots : List Nat) (facts : List Fact) :
    Except Violation EscapeFacts := do
  let released ← marksOf variableCount (slots ++ (Fact.escapees facts).map (·.index))
  let constructed ← marksOf variableCount ((Fact.allocations facts).map (·.index))
  let classOf := (← pack (← classes variableCount facts) variableCount).1
  let classCount := (DisjointSet.classesOf? classOf).getD 0
  let seeded ← seed classCount classOf released
  let g ← classGraph classCount classOf facts
  return { classOf, escaping := ← close g seeded, constructed, edgeCount := edgeCount g }

def check (p : Program) (config : EscapeConfig) : Checked Unit :=
  if config.verifyFirst then verify p else p.verifyOperands

def analyze (p : Program) (parameterCount : Nat) (config : EscapeConfig) : Checked EscapeFacts := do
  check p config
  let slots := EscapeFacts.parameterSlots p.variableCount parameterCount config.markReceiver
  ofFacts p.variableCount slots p.facts

def sinkFlags (p : Program) : Checked (Array Bool) := do
  p.verifyOperands
  let sinks := p.blocks.toList.flatMap fun b => b.instructions.flatMap Instruction.sinks
  marksOf p.variableCount (sinks.map (·.index))

/-! ## Marks -/

theorem marksOf_eq_ok {size : Nat} {entries : List Nat} (h : ∀ entry ∈ entries, entry < size) :
    marksOf size entries = .ok (EscapeFacts.marksOf size entries) := by
  refine (foldlM_eq_ok (P := fun marks => marks.size = size) Array.size_replicate ?_).1
  intro entry hentry marks hsize
  exact ⟨write_eq_ok (hsize ▸ h entry hentry), Array.size_setIfInBounds.trans hsize⟩

theorem markedIn_eq_ok (marks : Array Bool) :
    markedIn marks = .ok (EscapeFacts.markedIn marks) :=
  filterM_eq_ok fun _ hentry => read_eq_ok_getD (List.mem_range.mp hentry) false

theorem close_eq_ok {g : Adjacency} {flags : Array Bool} (hg : Closed g)
    (hsize : flags.size = size g) : close g flags = .ok (EscapeFacts.close g flags) := by
  have hflagged : (Graph.markCycles g flags).1.size = size g :=
    (markCycles_spec hg hsize).1.size_eq.trans hsize
  unfold close EscapeFacts.close reachable
  rw [markCycles_eq_ok hg hsize, ok_bind]
  dsimp only
  rw [markedIn_eq_ok, ok_bind, hflagged]
  refine spread_eq_ok hg Array.size_replicate fun node hnode => ?_
  exact hflagged ▸ (EscapeFacts.mem_markedIn.mp hnode).lt_size

/-! ## Classes -/

section Facts

variable {n : Nat} {slots : List Nat} {facts : List Fact}

theorem classes_eq_ok (n : Nat) (facts : List Fact) :
    classes n facts = .ok (EscapeFacts.classes n facts) :=
  (Sound.ofSize n).unionAll_eq_ok Variable.index _

theorem read_classOf {v : Nat} (hv : v < n) :
    read ((EscapeFacts.classes n facts).pack n).1 v = .ok (EscapeFacts.classNumber n facts v) :=
  read_eq_ok (by rw [EscapeFacts.getElem?_classOf, if_pos hv])

theorem classGraph_eq_ok (hedges : ∀ edge ∈ Fact.fieldEdges facts,
      edge.1.index < n ∧ edge.2.index < n) :
    classGraph (EscapeFacts.classTotal n facts) ((EscapeFacts.classes n facts).pack n).1 facts =
      .ok (EscapeFacts.fieldGraph n facts) := by
  have hnumbers : ∀ edge ∈ Fact.fieldEdges facts, (do
      return (← read ((EscapeFacts.classes n facts).pack n).1 edge.1.index,
        ← read ((EscapeFacts.classes n facts).pack n).1 edge.2.index) :
          Except Violation (Nat × Nat)) =
      .ok (EscapeFacts.classNumber n facts edge.1.index,
        EscapeFacts.classNumber n facts edge.2.index) := by
    intro edge hedge
    obtain ⟨hobject, hvalue⟩ := hedges edge hedge
    rw [read_classOf hobject, ok_bind, read_classOf hvalue, ok_bind]
    rfl
  unfold classGraph EscapeFacts.fieldGraph EscapeFacts.classGraph
  rw [mapM_eq_ok hnumbers, ok_bind, ofEdges_eq_ok]
  refine congrArg _ (Adjacency.ofEdges_congr fun (c, d) => ?_)
  refine Iff.trans ?_ EscapeFacts.mem_classEdges.symm
  rw [List.mem_map]
  constructor
  · rintro ⟨⟨u, v⟩, hedge, heq⟩
    cases heq
    obtain ⟨hobject, hvalue⟩ := hedges _ hedge
    exact ⟨u, v, Fact.mem_fieldEdges.mp hedge, hobject, hvalue, rfl, rfl⟩
  · rintro ⟨u, v, hholds, -, -, rfl, rfl⟩
    exact ⟨(u, v), Fact.mem_fieldEdges.mpr hholds, rfl⟩

/-- Numbers that are packed are below the number of classes. -/
theorem seed_eq_ok (entries : List Nat) :
    seed (EscapeFacts.classTotal n facts) ((EscapeFacts.classes n facts).pack n).1
        (EscapeFacts.marksOf n entries) =
      .ok (EscapeFacts.marksOf (EscapeFacts.classTotal n facts)
        (entries.filterMap fun v => ((EscapeFacts.classes n facts).pack n).1[v]?)) := by
  have hmarked : ∀ x, x ∈ EscapeFacts.markedIn (EscapeFacts.marksOf n entries) ↔
      x ∈ entries ∧ x < n := fun x => by
    rw [EscapeFacts.mem_markedIn, EscapeFacts.marked_marksOf]
  have hnumbers : (EscapeFacts.markedIn (EscapeFacts.marksOf n entries)).mapM
      (read ((EscapeFacts.classes n facts).pack n).1) = .ok _ :=
    mapM_eq_ok fun x hx => read_classOf ((hmarked x).mp hx).2
  unfold seed
  rw [markedIn_eq_ok, ok_bind, hnumbers, ok_bind, marksOf_eq_ok]
  · refine congrArg _ (EscapeFacts.marksOf_congr fun c => ?_)
    simp only [List.mem_map, hmarked, List.mem_filterMap, EscapeFacts.getElem?_classOf,
      Option.ite_none_right_eq_some, Option.some_inj, and_assoc]
  · intro c hc
    obtain ⟨x, hx, rfl⟩ := List.mem_map.mp hc
    exact EscapeFacts.classNumber_lt ((hmarked x).mp hx).2

/-- Facts about variables of the table need no further check. -/
theorem ofFacts_eq_ok (hslots : ∀ x ∈ slots, x < n)
    (hfacts : ∀ fact ∈ facts, ∀ v ∈ fact.vars, v.index < n) :
    ofFacts n slots facts = .ok (EscapeFacts.ofFacts n slots facts) := by
  have hreleased : ∀ x ∈ slots ++ (Fact.escapees facts).map (·.index), x < n := by
    intro x hx
    rcases List.mem_append.mp hx with hx | hx
    · exact hslots x hx
    · obtain ⟨v, hv, rfl⟩ := List.mem_map.mp hx
      exact hfacts _ (Fact.mem_escapees.mp hv) v List.mem_cons_self
  have hallocated : ∀ x ∈ (Fact.allocations facts).map (·.index), x < n := by
    intro x hx
    obtain ⟨v, hv, rfl⟩ := List.mem_map.mp hx
    exact hfacts _ (Fact.mem_allocations.mp hv) v List.mem_cons_self
  have hedges : ∀ edge ∈ Fact.fieldEdges facts, edge.1.index < n ∧ edge.2.index < n := by
    intro edge hedge
    have hlt := hfacts _ (Fact.mem_fieldEdges.mp hedge)
    exact ⟨hlt _ List.mem_cons_self, hlt _ (List.mem_cons_of_mem _ List.mem_cons_self)⟩
  have hclosed : Closed (EscapeFacts.fieldGraph n facts) := Adjacency.closed_ofEdges _ _
  unfold ofFacts
  rw [marksOf_eq_ok hreleased, ok_bind, marksOf_eq_ok hallocated, ok_bind, classes_eq_ok, ok_bind,
    pack_eq_ok (EscapeFacts.forest_classes n facts), ok_bind]
  dsimp only
  rw [← EscapeFacts.classTotal, seed_eq_ok, ok_bind, classGraph_eq_ok hedges, ok_bind,
    close_eq_ok hclosed, ok_bind]
  · rfl
  · rw [EscapeFacts.size_marksOf, EscapeFacts.size_fieldGraph]

/-- Without a check, a fact leads out of the table. -/
example : ofFacts 1 [] [.escapes 3] = .error .outsideTable := rfl

end Facts

/-! ## Programs -/

theorem gives_check (p : Program) (config : EscapeConfig) :
    Gives p (check p config) (if config.verifyFirst then p.verify else p.verifyOperands) := by
  unfold check
  split
  · exact gives_verify p
  · exact .inl rfl

theorem lt_of_mem_parameterSlots {n parameterCount : Nat} {markReceiver : Bool} {x : Nat}
    (h : x ∈ EscapeFacts.parameterSlots n parameterCount markReceiver) : x < n :=
  List.mem_range.mp (List.mem_filter.mp h).1

/-- After a check that has let the program pass, no table is left. -/
theorem ofFacts_eq_ok_of_passes {p : Program} {config : EscapeConfig} (h : p.Passes config)
    (parameterCount : Nat) :
    ofFacts p.variableCount
        (EscapeFacts.parameterSlots p.variableCount parameterCount config.markReceiver) p.facts =
      .ok (EscapeFacts.ofFacts p.variableCount
        (EscapeFacts.parameterSlots p.variableCount parameterCount config.markReceiver) p.facts) :=
  ofFacts_eq_ok (fun _ => lt_of_mem_parameterSlots) fun _ => h.inRange.fact_lt

theorem gives_analyze (p : Program) (parameterCount : Nat) (config : EscapeConfig) :
    Gives p (analyze p parameterCount config) (EscapeFacts.analyze p parameterCount config) := by
  have hanalyze : EscapeFacts.analyze p parameterCount config =
      (if config.verifyFirst then p.verify else p.verifyOperands) >>= fun _ =>
        .ok (EscapeFacts.ofFacts p.variableCount
          (EscapeFacts.parameterSlots p.variableCount parameterCount config.markReceiver)
          p.facts) := by
    unfold EscapeFacts.analyze
    split <;> rfl
  rw [hanalyze]
  refine (gives_check p config).bind fun _ hcheck => ?_
  dsimp only
  rw [ofFacts_eq_ok_of_passes hcheck]
  exact .inl rfl

/-- What ends an analysis has ended the check. -/
theorem run_analyze_iff (p : Program) (parameterCount : Nat) (config : EscapeConfig) :
    (∀ e, (analyze p parameterCount config).run = .ok (.error e) ↔
        (check p config).run = .ok (.error e)) ∧
      ∀ violation, (analyze p parameterCount config).run = .error violation ↔
        (check p config).run = .error violation := by
  refine run_bind_iff_of_exists fun _ hrun => ?_
  have hpass : p.Passes config := by
    rcases gives_check p config with hcheck | ⟨-, hcheck⟩
    · rw [hrun, Except.ok.injEq] at hcheck
      exact hcheck.symm
    · rw [hrun] at hcheck
      cases hcheck
  dsimp only
  rw [ofFacts_eq_ok_of_passes hpass]
  exact ⟨_, rfl⟩

theorem run_sinkFlags (p : Program) : (sinkFlags p).run = .ok p.sinkFlags := by
  unfold sinkFlags Program.sinkFlags
  cases hoperands : p.verifyOperands with
  | error e => rfl
  | ok =>
    have hin := Program.verifyOperands_eq_ok_iff.mp hoperands
    dsimp only
    rw [marksOf_eq_ok]
    · rfl
    · intro x hx
      obtain ⟨v, hv, rfl⟩ := List.mem_map.mp hx
      obtain ⟨b, hb, hsinks⟩ := List.mem_flatMap.mp hv
      obtain ⟨i, hi, hmem⟩ := List.mem_flatMap.mp hsinks
      exact hin.variable_lt b (Array.mem_toList_iff.mp hb) i hi v
        (Instruction.mem_vars_of_mem_sinks hmem)

end Strict

namespace Program

/-- With a strict table wherever one is read or written and a strict label for the block that
control falls through to, programs are verified and analysed with the same results; only a program
of too many blocks can be in need of a label that there is not, and no table is ever left.  An
analysis ends in the error or the violation of its check, and in no other. -/
theorem checks_suffice (p : Program) (parameterCount : Nat) (config : EscapeConfig) :
    (Strict.Gives p (Strict.verify p) p.verify ∧
      (Strict.sinkFlags p).run = .ok p.sinkFlags ∧
      Strict.Gives p (Strict.analyze p parameterCount config)
        (EscapeFacts.analyze p parameterCount config)) ∧
    (∀ e, (Strict.sinkFlags p).run = .ok (.error e) ↔ p.verifyOperands = .error e) ∧
    ((∀ e, (Strict.analyze p parameterCount config).run = .ok (.error e) ↔
        (Strict.check p config).run = .ok (.error e)) ∧
      ∀ violation, (Strict.analyze p parameterCount config).run = .error violation ↔
        (Strict.check p config).run = .error violation) ∧
    ∀ i : Instruction,
      (∀ fact ∈ i.facts, ∀ v ∈ fact.vars, v ∈ i.dest?.toList ++ i.uses) ∧
      ∀ v ∈ i.sinks, v ∈ i.dest?.toList ++ i.uses := by
  refine ⟨⟨Strict.gives_verify p, Strict.run_sinkFlags p,
    Strict.gives_analyze p parameterCount config⟩, fun e => ?_,
    Strict.run_analyze_iff p parameterCount config, fun i =>
      ⟨fun _ hfact => Instruction.mem_vars_of_mem_facts hfact,
        fun _ => Instruction.mem_vars_of_mem_sinks⟩⟩
  rw [Strict.run_sinkFlags, Except.ok.injEq]
  exact checked_eq_error_iff

end Program

end MethodFlow
