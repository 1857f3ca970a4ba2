import MethodFlow.Proofs.Escape.CopyClasses
import MethodFlow.Proofs.Graph.Agreement
/-!
# The summary of an analysis

The summary counts classes and lists variables.  Both say what the queries do:

* `ncard_marked`: the marks of a table that are set are as many as it counts;
* `ncard_classes`, `ncard_escaping`, `ncard_classEdges`: what each of the three counts of a summary
  counts;
* `summary_agrees`: the summary of every analysis agrees with the queries, variable by variable.
-/

namespace MethodFlow

open MethodFlow.Graph

namespace EscapeFacts

/-! ## Tables that are counted -/

theorem length_filter_range (l : List Bool) :
    ((List.range l.length).filter fun i => l[i]?.getD false).length = l.count true := by
  induction l with
  | nil => rfl
  | cons b l ih =>
    have hrest : (((List.range l.length).map Nat.succ).filter
        fun i => (b :: l)[i]?.getD false).length = l.count true := by
      rw [List.filter_map, List.length_map, ← ih]
      rfl
    rw [List.length_cons, List.range_succ_eq_map, List.filter_cons]
    cases b with
    | true => exact (congrArg Nat.succ hrest).trans (List.count_cons_self).symm
    | false => exact hrest.trans (List.count_cons_of_ne (by decide)).symm

theorem length_markedIn (marks : Array Bool) : (markedIn marks).length = marks.count true := by
  calc (markedIn marks).length
    _ = ((List.range marks.toList.length).filter fun i => marks.toList[i]?.getD false).length := by
      simp only [markedIn, Array.getElem?_toList]
      rfl
    _ = marks.toList.count true := length_filter_range marks.toList
    _ = marks.count true := Array.count_toList

theorem ncard_marked (marks : Array Bool) : {c | Marked marks c}.ncard = marks.count true := by
  have hnodup : (markedIn marks).Nodup := List.nodup_range.filter _
  have hmarked : {c | Marked marks c} = ↑(markedIn marks).toFinset := by
    ext c
    rw [List.coe_toFinset, Set.mem_ofPred_eq, Set.mem_ofPred_eq, mem_markedIn]
  rw [hmarked, Set.ncard_coe_finset, List.toFinset_card_of_nodup hnodup, length_markedIn]

/-! ## Lists of variables -/

section Lists

variable {f : EscapeFacts} {v : Variable} {x : Nat}

theorem pairwise_escapingVariables (f : EscapeFacts) : f.escapingVariables.Pairwise (· < ·) :=
  List.pairwise_lt_range.filter _

theorem pairwise_candidates (f : EscapeFacts) : f.candidates.Pairwise (· < ·) :=
  (List.pairwise_lt_range.filter _).filter _

theorem disjoint_candidates (f : EscapeFacts) : f.escapingVariables.Disjoint f.candidates := by
  intro x hescaping hcandidate
  have hescapes : f.escapesAt x = true := (List.mem_filter.mp hescaping).2
  have hlocal : (!f.escapesAt x) = true := (List.mem_filter.mp hcandidate).2
  rw [hescapes] at hlocal
  cases hlocal

theorem escapes_eq_ok_iff {b : Bool} : f.escapes v = .ok b ↔
    v.index < f.variableCount ∧ f.escapesAt v.index = b := by
  unfold escapes escapes? class? escapesAt variableCount
  rcases Nat.lt_or_ge v.index f.classOf.size with hlt | hge
  · rw [Array.getElem?_eq_getElem hlt]
    simp [hlt]
  · rw [Array.getElem?_eq_none hge]
    simp [Nat.not_lt.mpr hge]

theorem mem_escapingVariables : v.index ∈ f.escapingVariables ↔ f.escapes v = .ok true := by
  rw [escapes_eq_ok_iff]
  exact List.mem_filter.trans (and_congr_left' List.mem_range)

/-- A query that may be refused says what the other one says, or names the variable. -/
theorem tryEscapes_of_lt (hv : v.index < f.variableCount) :
    ∃ b, f.escapes v = .ok b ∧ f.tryEscapes v = .ok b := by
  refine ⟨f.escapesAt v.index, escapes_eq_ok_iff.mpr ⟨hv, rfl⟩, ?_⟩
  unfold tryEscapes escapes? class? escapesAt
  rw [Array.getElem?_eq_getElem hv]
  rfl

theorem tryEscapes_of_le (hv : f.variableCount ≤ v.index) :
    f.tryEscapes v = .error (.danglingVariable v.index f.variableCount (.named "escape query")) := by
  unfold tryEscapes escapes? class?
  rw [Array.getElem?_eq_none hv]
  rfl

end Lists

/-! ## Classes that are counted -/

section Classes

variable {n : Nat} {slots : List Nat} {facts : List Fact}

theorem ncard_classes (n : Nat) (slots : List Nat) (facts : List Fact) :
    {c | ∃ x < n, (ofFacts n slots facts).classOf[x]? = some c}.ncard =
      (ofFacts n slots facts).classCount := by
  have hclasses : {c | ∃ x < n, (ofFacts n slots facts).classOf[x]? = some c} =
      ↑(Finset.range (classTotal n facts)) := by
    ext c
    rw [Finset.coe_range, Set.mem_Iio, Set.mem_ofPred_eq]
    exact lt_classTotal_iff.symm
  rw [hclasses, Set.ncard_coe_finset, Finset.card_range, classCount_ofFacts]

/-- A place is listed exactly if its class is flagged. -/
theorem mem_escapingVariables_iff {x : Nat} : x ∈ (ofFacts n slots facts).escapingVariables ↔
    ∃ c, (ofFacts n slots facts).classOf[x]? = some c ∧
      Marked (ofFacts n slots facts).escaping c := by
  unfold escapingVariables escapesAt
  rw [List.mem_filter, List.mem_range]
  constructor
  · rintro ⟨hx, hescapes⟩
    have hclass := Array.getElem?_eq_getElem hx
    have hlt : (ofFacts n slots facts).classOf[x] < (ofFacts n slots facts).escaping.size := by
      rw [size_escaping]
      exact lt_classTotal_iff.mpr ⟨x, variableCount_ofFacts n slots facts ▸ hx, hclass⟩
    refine ⟨_, hclass, ?_⟩
    rw [hclass] at hescapes
    dsimp only at hescapes
    rw [Array.getElem?_eq_getElem hlt, Option.getD_some] at hescapes
    rw [Marked, Array.getElem?_eq_getElem hlt, hescapes]
  · rintro ⟨c, hclass, hmark⟩
    refine ⟨(Array.getElem?_eq_some_iff.mp hclass).1, ?_⟩
    rw [hclass]
    dsimp only
    rw [hmark]
    rfl

/-- A class escapes exactly if one of its variables does. -/
theorem marked_escaping_iff_exists {c : Nat} : Marked (ofFacts n slots facts).escaping c ↔
    ∃ x ∈ (ofFacts n slots facts).escapingVariables,
      (ofFacts n slots facts).classOf[x]? = some c := by
  constructor
  · intro hmark
    have hc : c < classTotal n facts := size_escaping n slots facts ▸ hmark.lt_size
    obtain ⟨x, -, hclass⟩ := exists_classOf_eq hc
    exact ⟨x, mem_escapingVariables_iff.mpr ⟨c, hclass, hmark⟩, hclass⟩
  · rintro ⟨x, hx, hclass⟩
    obtain ⟨d, hclass', hmark⟩ := mem_escapingVariables_iff.mp hx
    rw [hclass] at hclass'
    cases hclass'
    exact hmark

theorem ncard_escaping (n : Nat) (slots : List Nat) (facts : List Fact) :
    {c | ∃ x ∈ (ofFacts n slots facts).escapingVariables,
      (ofFacts n slots facts).classOf[x]? = some c}.ncard =
      (ofFacts n slots facts).escaping.count true := by
  rw [← ncard_marked]
  simp only [marked_escaping_iff_exists]

/-- The field edges are counted by the classes that they lead between, and not one by one. -/
theorem ncard_classEdges (hin : Inside n facts) (slots : List Nat) :
    {e : Nat × Nat | ∃ u v, (Fact.flow facts).Holds u v ∧
      (ofFacts n slots facts).class? u = some e.1 ∧
      (ofFacts n slots facts).class? v = some e.2}.ncard = (ofFacts n slots facts).edgeCount := by
  have hedges := (Adjacency.lists_ofEdges (classTotal n facts) ((Fact.fieldEdges facts).filterMap
    fun edge => do
      return (← ((classes n facts).pack n).1[edge.1.index]?,
        ← ((classes n facts).pack n).1[edge.2.index]?))).edgeCount_eq
  refine Eq.trans (congrArg Set.ncard ?_) hedges.symm
  ext ⟨c, d⟩
  rw [Set.mem_ofPred_eq, Set.mem_ofPred_eq, mem_classEdges]
  constructor
  · rintro ⟨u, v, hholds, hu, hv⟩
    obtain ⟨hinu, hinv⟩ := hin.2.1 u v hholds
    rw [class?_ofFacts hinu, Option.some_inj] at hu
    rw [class?_ofFacts hinv, Option.some_inj] at hv
    exact ⟨u, v, hholds, hinu, hinv, hu, hv⟩
  · rintro ⟨u, v, hholds, hinu, hinv, hu, hv⟩
    refine ⟨u, v, hholds, ?_, ?_⟩
    · rw [class?_ofFacts hinu, hu]
    · rw [class?_ofFacts hinv, hv]

theorem mem_candidates {x : Nat} : x ∈ (ofFacts n slots facts).candidates ↔
    ∃ v, v.index = x ∧ .allocates v ∈ facts ∧ (ofFacts n slots facts).escapes v = .ok false := by
  unfold candidates constructedVariables
  rw [List.mem_filter, List.mem_filter, getD_constructed, decide_eq_true_iff, List.mem_range,
    Bool.not_eq_true']
  constructor
  · rintro ⟨⟨hx, ⟨v, hv, rfl⟩, -⟩, hlocal⟩
    exact ⟨v, rfl, Fact.mem_allocations.mp hv, escapes_eq_ok_iff.mpr ⟨hx, hlocal⟩⟩
  · rintro ⟨v, rfl, hv, hlocal⟩
    obtain ⟨hx, hlocal⟩ := escapes_eq_ok_iff.mp hlocal
    have hlt : v.index < n := variableCount_ofFacts n slots facts ▸ hx
    exact ⟨⟨hx, ⟨v, Fact.mem_allocations.mpr hv, rfl⟩, hlt⟩, hlocal⟩

end Classes

end EscapeFacts

/-! ## Programs -/

namespace Program

variable {p : Program} {parameterCount : Nat} {config : EscapeConfig} {facts : EscapeFacts}
  {v : Variable}

def Constructs (p : Program) (v : Variable) : Prop :=
  ∃ b ∈ p.blocks, ∃ className, .construct v className ∈ b.instructions

theorem allocates_mem_facts : .allocates v ∈ p.facts ↔ p.Constructs v := by
  have hinstruction : ∀ i : Instruction,
      .allocates v ∈ i.facts ↔ ∃ className, i = .construct v className := by
    intro i
    cases i with
    | getField dest object | putField object =>
      cases object <;> simp [Instruction.facts, Fact.fieldAccess]
    | _ => simp [Instruction.facts, Fact.call, eq_comm]
  rw [Fact.mem_facts_of_not_copy fun _ _ heq => by cases heq]
  refine exists_congr fun b => and_congr_right fun _ => ?_
  simp only [hinstruction]
  constructor
  · rintro ⟨i, hi, className, rfl⟩
    exact ⟨className, hi⟩
  · rintro ⟨className, hi⟩
    exact ⟨_, hi, className, rfl⟩

structure SummaryAgrees (p : Program) (facts : EscapeFacts) : Prop where
  variableCount_eq : facts.summary.variableCount = p.variableCount
  /-- The classes are those of the variables. -/
  classCount_eq : facts.summary.classCount = facts.classCount ∧
    facts.classCount = {c | ∃ x < p.variableCount, facts.classOf[x]? = some c}.ncard
  pairwise_escaping : facts.summary.escapingVariables.Pairwise (· < ·)
  mem_escaping : ∀ v : Variable,
    v.index ∈ facts.summary.escapingVariables ↔ facts.escapes v = .ok true
  /-- Nothing else is listed, even in a table that is too long for all of it to be variables. -/
  mem_escaping_iff : ∀ x, x ∈ facts.summary.escapingVariables ↔
    ∃ c, facts.classOf[x]? = some c ∧ facts.escaping[c]? = some true
  pairwise_local : facts.summary.localAllocations.Pairwise (· < ·)
  local_eq : facts.summary.localAllocations = facts.candidates
  mem_local : ∀ x, x ∈ facts.summary.localAllocations ↔
    ∃ v, v.index = x ∧ p.Constructs v ∧ facts.escapes v = .ok false
  disjoint : facts.summary.escapingVariables.Disjoint facts.summary.localAllocations
  escapingClassCount_eq : facts.summary.escapingClassCount =
    {c | ∃ x ∈ facts.summary.escapingVariables, facts.classOf[x]? = some c}.ncard
  /-- An edge leads from the class of an object to that of what goes in or out of its field. -/
  edgeCount_eq : facts.summary.edgeCount = {e : Nat × Nat | ∃ u v, p.flow.Holds u v ∧
    facts.class? u = some e.1 ∧ facts.class? v = some e.2}.ncard
  tryEscapes_of_lt : ∀ v : Variable, v.index < p.variableCount →
    ∃ b, facts.escapes v = .ok b ∧ facts.tryEscapes v = .ok b
  tryEscapes_of_le : ∀ v : Variable, p.variableCount ≤ v.index → facts.tryEscapes v =
    .error (.danglingVariable v.index p.variableCount (.named "escape query"))

/-- An analysis that succeeds has passed its check, and what it gives follows from the facts. -/
theorem of_analyze_eq_ok (h : EscapeFacts.analyze p parameterCount config = .ok facts) :
    p.Passes config ∧ EscapeFacts.ofFacts p.variableCount
      (EscapeFacts.parameterSlots p.variableCount parameterCount config.markReceiver)
      p.facts = facts := by
  have hpass : p.Passes config := by
    unfold Passes
    cases hcheck : if config.verifyFirst then p.verify else p.verifyOperands with
    | error e =>
      rw [analyze_eq_error_iff.mpr hcheck] at h
      cases h
    | ok => rfl
  rw [analyze_eq_of_passes hpass parameterCount] at h
  exact ⟨hpass, Except.ok.inj h⟩

/-- Whatever program is analysed successfully, the summary agrees with the queries. -/
theorem summary_agrees (p : Program) (parameterCount : Nat) (config : EscapeConfig)
    (facts : EscapeFacts) (h : EscapeFacts.analyze p parameterCount config = .ok facts) :
    p.SummaryAgrees facts := by
  obtain ⟨hpass, rfl⟩ := of_analyze_eq_ok h
  have hcount := EscapeFacts.variableCount_ofFacts p.variableCount
    (EscapeFacts.parameterSlots p.variableCount parameterCount config.markReceiver) p.facts
  exact {
    variableCount_eq := hcount
    classCount_eq := ⟨rfl, (EscapeFacts.ncard_classes _ _ _).symm⟩
    pairwise_escaping := EscapeFacts.pairwise_escapingVariables _
    mem_escaping := fun _ => EscapeFacts.mem_escapingVariables
    mem_escaping_iff := fun _ => EscapeFacts.mem_escapingVariables_iff
    pairwise_local := EscapeFacts.pairwise_candidates _
    local_eq := rfl
    mem_local := fun x => by
      simp only [← allocates_mem_facts]
      exact EscapeFacts.mem_candidates
    disjoint := EscapeFacts.disjoint_candidates _
    escapingClassCount_eq := (EscapeFacts.ncard_escaping _ _ _).symm
    edgeCount_eq := by
      rw [← Fact.flow_facts]
      exact (EscapeFacts.ncard_classEdges hpass.inRange.inside_facts _).symm
    tryEscapes_of_lt := fun v hv => EscapeFacts.tryEscapes_of_lt (hcount.symm ▸ hv)
    tryEscapes_of_le := fun v hv => by
      rw [EscapeFacts.tryEscapes_of_le (hcount.symm ▸ hv), hcount] }

/-- Two variables with one object in whose fields another is stored, and a load of what may be in a
field of that, which is locked. -/
def nesting : Program :=
  ⟨#[⟨0, [], [.construct 1 "Box", .construct 2 "Box", .assign 3 1,
      .putField (some 1) 2 ⟨"Box", "first"⟩ "LBox;", .putField (some 3) 2 ⟨"Box", "second"⟩ "LBox;",
      .getField 4 (some 2) ⟨"Box", "first"⟩ "LBox;", .monitorEnter 4, .exit none]⟩],
    .replicate 5 ⟨none⟩⟩

/-- Three field accesses, but two edges; five variables, but four classes. -/
theorem nesting_agrees :
    ∃ facts, EscapeFacts.analyze nesting 0 ⟨true, true, true⟩ = .ok facts ∧
      facts.summary = ⟨5, 4, 2, 2, [0, 4], [1, 2]⟩ ∧
      {e : Nat × Nat | ∃ u v, nesting.flow.Holds u v ∧ facts.class? u = some e.1 ∧
        facts.class? v = some e.2}.ncard = 2 ∧
      {c | ∃ x < 5, facts.classOf[x]? = some c}.ncard = 4 ∧
      facts.tryEscapes 9 = .error (.danglingVariable 9 5 (.named "escape query")) := by
  have hanalysis : EscapeFacts.analyze nesting 0 ⟨true, true, true⟩ =
      .ok ⟨#[0, 1, 2, 1, 3], #[true, false, false, true], #[false, true, true, false, false], 2⟩ := by
    cbv
  have hagrees := summary_agrees nesting 0 ⟨true, true, true⟩ _ hanalysis
  exact ⟨_, hanalysis, by decide, hagrees.edgeCount_eq.symm,
    (hagrees.classCount_eq.1.trans hagrees.classCount_eq.2).symm,
    hagrees.tryEscapes_of_le 9 (by decide)⟩

end Program

end MethodFlow
