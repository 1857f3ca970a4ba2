import MethodFlow.Escape.Analysis
import MethodFlow.Proofs.DisjointSet.Classes
import MethodFlow.Proofs.Escape.Classes
import MethodFlow.Proofs.Graph.Cycle
import MethodFlow.Proofs.Verification.Operands
/-!
# The analysis is exact

The analysis works on numbered classes, a graph of fields between them, flags on cycles and what
can be reached.  What comes out is said without any of these:

* `escapes_iff_exposed`: of a program that has been verified, exactly the exposed variables
  escape.
-/

namespace MethodFlow

open Relation MethodFlow.Graph

/-! ## Tables of marks -/

namespace EscapeFacts

theorem size_marksOf (size : Nat) (entries : List Nat) : (marksOf size entries).size = size := by
  have hsize : ∀ marks : Array Bool,
      (entries.foldl (fun marks entry => marks.setIfInBounds entry true) marks).size =
        marks.size := by
    induction entries with
    | nil => exact fun _ => rfl
    | cons entry entries ih => exact fun marks => (ih _).trans Array.size_setIfInBounds
  rw [marksOf, hsize, Array.size_replicate]

theorem marked_foldl {marks : Array Bool} {entries : List Nat} {v : Nat} :
    Marked (entries.foldl (fun marks entry => marks.setIfInBounds entry true) marks) v ↔
      (v ∈ entries ∧ v < marks.size) ∨ Marked marks v := by
  induction entries generalizing marks with
  | nil => simp
  | cons entry entries ih =>
    rw [List.foldl_cons, ih, marked_setIfInBounds, Array.size_setIfInBounds, List.mem_cons]
    constructor
    · rintro (⟨hmem, hlt⟩ | ⟨rfl, hlt⟩ | hmark)
      · exact .inl ⟨.inr hmem, hlt⟩
      · exact .inl ⟨.inl rfl, hlt⟩
      · exact .inr hmark
    · rintro (⟨rfl | hmem, hlt⟩ | hmark)
      · exact .inr (.inl ⟨rfl, hlt⟩)
      · exact .inl ⟨hmem, hlt⟩
      · exact .inr (.inr hmark)

theorem marked_marksOf {size v : Nat} {entries : List Nat} :
    Marked (marksOf size entries) v ↔ v ∈ entries ∧ v < size := by
  rw [marksOf, marked_foldl, Array.size_replicate, or_iff_left (not_marked_replicate _)]

theorem marksOf_congr {size : Nat} {entries entries' : List Nat}
    (h : ∀ v, v ∈ entries ↔ v ∈ entries') : marksOf size entries = marksOf size entries' := by
  refine Array.ext (by rw [size_marksOf, size_marksOf]) fun v hv hv' => ?_
  have hmarked : Marked (marksOf size entries) v ↔
      Marked (marksOf size entries') v := by
    rw [marked_marksOf, marked_marksOf, h]
  rw [Marked, Marked, Array.getElem?_eq_getElem hv, Array.getElem?_eq_getElem hv',
    Option.some_inj, Option.some_inj] at hmarked
  exact Bool.eq_iff_iff.mpr hmarked

theorem getD_marksOf (size : Nat) (entries : List Nat) (v : Nat) :
    (marksOf size entries)[v]?.getD false = decide (v ∈ entries ∧ v < size) := by
  rw [Bool.eq_iff_iff, decide_eq_true_iff, ← marked_marksOf, Marked]
  cases (marksOf size entries)[v]? <;> simp

theorem mem_markedIn {marks : Array Bool} {v : Nat} : v ∈ markedIn marks ↔ Marked marks v := by
  rw [markedIn, List.mem_filter, List.mem_range, Marked]
  constructor
  · rintro ⟨hlt, hget⟩
    rw [Array.getElem?_eq_getElem hlt] at hget ⊢
    rwa [Option.getD_some, ← Option.some_inj] at hget
  · intro h
    exact ⟨Marked.lt_size h, by rw [h]; rfl⟩

/-- Closing flags marks what can be reached from a flag or a cycle. -/
theorem marked_close_iff {g : Adjacency} (hg : Closed g) {flags : Array Bool}
    (hsize : flags.size = size g) {v : Nat} :
    Marked (close g flags) v ↔
      ∃ u, (Marked flags u ∨ TransGen (Edge g) u u) ∧ ReflTransGen (Edge g) u v := by
  have hcut := (markCycles_spec hg hsize).1
  rw [close, marked_reachable_iff hg]
  constructor
  · rintro ⟨u, hu, -, hpath⟩
    exact ⟨u, hcut.sound u (mem_markedIn.mp hu), hpath⟩
  · rintro ⟨u, hstart, hpath⟩
    have hflagged : ∃ w, Marked (markCycles g flags).1 w ∧ ReflTransGen (Edge g) w u := by
      rcases hstart with hmark | hcycle
      · exact ⟨u, hcut.mono u hmark, .refl⟩
      · obtain ⟨w, hmark, -, hback⟩ := markCycles_cuts hg hsize hcycle
        exact ⟨w, hmark, hback⟩
    obtain ⟨w, hmark, hback⟩ := hflagged
    have hlt : w < size g := by
      rw [← hsize, ← hcut.size_eq]
      exact hmark.lt_size
    exact ⟨w, mem_markedIn.mpr hmark, hlt, hback.trans hpath⟩

/-! ## The classes of a list of facts -/

section Facts

variable {n : Nat} {slots : List Nat} {facts : List Fact}

/-- The number of the class of a variable: the place of its root among the roots that appear. -/
def classNumber (n : Nat) (facts : List Fact) (v : Nat) : Nat :=
  (DisjointSet.appearing ((classes n facts).roots n)).idxOf ((classes n facts).root v)

theorem classes_eq_unionAll (n : Nat) (facts : List Fact) :
    classes n facts = (DisjointSet.ofSize n).unionAll Variable.index (Fact.copies facts) := rfl

theorem forest_classes (n : Nat) (facts : List Fact) : (classes n facts).Forest :=
  (DisjointSet.forest_ofSize n).unionAll _ _

theorem root_classes_eq_iff (n : Nat) (facts : List Fact) (u v : Variable) :
    (classes n facts).root u.index = (classes n facts).root v.index ↔
      EqvGen (Fact.flow facts).Copies u v := by
  have hcopies : (fun u v => (u, v) ∈ Fact.copies facts) = (Fact.flow facts).Copies := by
    funext u v
    exact propext Fact.mem_copies
  rw [← hcopies, classes_eq_unionAll]
  exact DisjointSet.root_unionAll_ofSize_eq_iff _ (fun _ _ => Variable.ext) _ _ _ _

/-- A number that is no variable's is alone in its class. -/
theorem eq_of_root_classes_eq {x y : Nat} (hx : indexLimit ≤ x)
    (h : (classes n facts).root y = (classes n facts).root x) : y = x := by
  refine DisjointSet.eq_of_root_unionAll_eq _ (DisjointSet.forest_ofSize n) (fun z hz => ?_)
    (fun u hu => ?_) _ h
  · rwa [DisjointSet.root_ofSize, DisjointSet.root_ofSize] at hz
  · have := u.index_lt
    omega

theorem mem_appearing_roots {v : Nat} (hv : v < n) :
    (classes n facts).root v ∈ DisjointSet.appearing ((classes n facts).roots n) :=
  DisjointSet.mem_appearing.mpr (DisjointSet.mem_roots hv)

theorem classNumber_eq_iff {u v : Nat} (hu : u < n) :
    classNumber n facts u = classNumber n facts v ↔
      (classes n facts).root u = (classes n facts).root v :=
  List.idxOf_inj (mem_appearing_roots hu)

theorem getElem?_classOf (n : Nat) (facts : List Fact) (v : Nat) :
    ((classes n facts).pack n).1[v]? = if v < n then some (classNumber n facts v) else none :=
  DisjointSet.getElem?_pack (forest_classes n facts) n v

def classTotal (n : Nat) (facts : List Fact) : Nat :=
  (DisjointSet.classesOf? ((classes n facts).pack n).1).getD 0

theorem classTotal_eq_length (n : Nat) (facts : List Fact) :
    classTotal n facts = (DisjointSet.appearing ((classes n facts).roots n)).length := by
  rw [classTotal, DisjointSet.pack_fst (forest_classes n facts), DisjointSet.classesOf_map_idxOf]

theorem classNumber_lt {v : Nat} (hv : v < n) : classNumber n facts v < classTotal n facts := by
  rw [classTotal_eq_length]
  exact List.idxOf_lt_length_of_mem (mem_appearing_roots hv)

/-! ## The graph of classes -/

/-- Every variable of the facts is in the table. -/
def Inside (n : Nat) (facts : List Fact) : Prop :=
  (∀ u v, (Fact.flow facts).Copies u v → u.index < n ∧ v.index < n) ∧
  (∀ u v, (Fact.flow facts).Holds u v → u.index < n ∧ v.index < n) ∧
  ∀ v, (Fact.flow facts).Released v → v.index < n

def fieldGraph (n : Nat) (facts : List Fact) : Adjacency :=
  classGraph (classTotal n facts) ((classes n facts).pack n).1 facts

theorem classifies_classNumber (hin : Inside n facts) :
    (Fact.flow facts).Classifies (fun v => v.index < n) (fun v => classNumber n facts v.index) where
  number_eq_iff hu _ := (classNumber_eq_iff hu).trans (root_classes_eq_iff n facts _ _)
  copies_inside huv := hin.1 _ _ huv
  holds_inside huv := hin.2.1 _ _ huv

theorem mem_classEdges {c d : Nat} :
    (c, d) ∈ (Fact.fieldEdges facts).filterMap (fun edge => do
        return (← ((classes n facts).pack n).1[edge.1.index]?,
          ← ((classes n facts).pack n).1[edge.2.index]?)) ↔
      ∃ u v, (Fact.flow facts).Holds u v ∧ u.index < n ∧ v.index < n ∧
        classNumber n facts u.index = c ∧ classNumber n facts v.index = d := by
  rw [List.mem_filterMap]
  constructor
  · rintro ⟨⟨u, v⟩, hmem, heq⟩
    simp only [getElem?_classOf] at heq
    split at heq
    · split at heq
      · cases heq
        exact ⟨u, v, Fact.mem_fieldEdges.mp hmem, ‹_›, ‹_›, rfl, rfl⟩
      · cases heq
    · cases heq
  · rintro ⟨u, v, hfield, hu, hv, rfl, rfl⟩
    refine ⟨(u, v), Fact.mem_fieldEdges.mpr hfield, ?_⟩
    simp only [getElem?_classOf, if_pos hu, if_pos hv]
    rfl

theorem edge_fieldGraph (hin : Inside n facts) {c d : Nat} :
    Edge (fieldGraph n facts) c d ↔
      (Fact.flow facts).ClassEdge (fun v => classNumber n facts v.index) c d := by
  refine Adjacency.edge_ofEdges.trans (mem_classEdges.trans ?_)
  constructor
  · rintro ⟨u, v, hfield, -, -, hu, hv⟩
    exact ⟨u, v, hfield, hu, hv⟩
  · rintro ⟨u, v, hfield, hu, hv⟩
    obtain ⟨hinu, hinv⟩ := hin.2.1 _ _ hfield
    exact ⟨u, v, hfield, hinu, hinv, hu, hv⟩

theorem size_fieldGraph (n : Nat) (facts : List Fact) :
    size (fieldGraph n facts) = classTotal n facts := by
  refine Adjacency.size_ofEdges_of_lt fun edge hedge => ?_
  obtain ⟨u, v, -, hu, hv, hc, hd⟩ := mem_classEdges.mp hedge
  have hltu : classNumber n facts u.index < classTotal n facts := classNumber_lt hu
  have hltv : classNumber n facts v.index < classTotal n facts := classNumber_lt hv
  omega

/-! ## Escaping classes -/

theorem escaping_eq_close (n : Nat) (slots : List Nat) (facts : List Fact) :
    (ofFacts n slots facts).escaping =
      close (fieldGraph n facts) (marksOf (classTotal n facts)
        ((slots ++ (Fact.escapees facts).map (·.index)).filterMap
          fun v => ((classes n facts).pack n).1[v]?)) := rfl

theorem mem_seeds {c : Nat} :
    c ∈ (slots ++ (Fact.escapees facts).map (·.index)).filterMap
        (fun v => ((classes n facts).pack n).1[v]?) ↔
      (∃ x ∈ slots, x < n ∧ classNumber n facts x = c) ∨
        ∃ v, (Fact.flow facts).Released v ∧ v.index < n ∧ classNumber n facts v.index = c := by
  simp only [List.mem_filterMap, List.mem_append, List.mem_map, getElem?_classOf,
    Fact.mem_escapees, Option.ite_none_right_eq_some, Option.some.injEq]
  constructor
  · rintro ⟨x, hx | ⟨v, hv, rfl⟩, hlt, hc⟩
    · exact .inl ⟨x, hx, hlt, hc⟩
    · exact .inr ⟨v, hv, hlt, hc⟩
  · rintro (⟨x, hx, hlt, hc⟩ | ⟨v, hv, hlt, hc⟩)
    · exact ⟨x, .inl hx, hlt, hc⟩
    · exact ⟨v.index, .inr ⟨v, hv, rfl⟩, hlt, hc⟩

/-- No field leads away from the class of a number that is no variable's. -/
theorem not_classPath_of_isolated {x : Nat} (hx : indexLimit ≤ x) (hlt : x < n) (v : Variable) :
    ¬ ReflTransGen ((Fact.flow facts).ClassEdge fun v => classNumber n facts v.index)
      (classNumber n facts x) (classNumber n facts v.index) := by
  intro h
  have hne : ∀ u : Variable, classNumber n facts x ≠ classNumber n facts u.index := by
    intro u hu
    have heq := eq_of_root_classes_eq hx ((classNumber_eq_iff hlt).mp hu).symm
    have := u.index_lt
    omega
  rcases h.cases_head with heq | ⟨d, ⟨u, w, hfield, hu, -⟩, -⟩
  · exact hne v heq
  · exact hne u hu.symm

/-- The escaping classes of the facts are those of the exposed variables. -/
theorem marked_escaping_iff (hin : Inside n facts) {v : Variable} (hv : v.index < n) :
    Marked (ofFacts n slots facts).escaping (classNumber n facts v.index) ↔
      (Fact.flow facts).Exposed (fun v => v.index ∈ slots) v := by
  have hedge : Edge (fieldGraph n facts) =
      (Fact.flow facts).ClassEdge fun v => classNumber n facts v.index := by
    funext c d
    exact propext (edge_fieldGraph hin)
  have hsize : (marksOf (classTotal n facts)
      ((slots ++ (Fact.escapees facts).map (·.index)).filterMap
        fun v => ((classes n facts).pack n).1[v]?)).size = size (fieldGraph n facts) := by
    rw [size_marksOf, size_fieldGraph]
  have hclosed : Closed (fieldGraph n facts) := Adjacency.closed_ofEdges _ _
  rw [escaping_eq_close, marked_close_iff hclosed hsize, hedge,
    (classifies_classNumber hin).exposed_iff_classes hv]
  constructor
  · rintro ⟨c, hmark | hcycle, hpath⟩
    · rcases mem_seeds.mp (marked_marksOf.mp hmark).1 with ⟨x, hx, hlt, rfl⟩ | ⟨u, hu, hlt, hc⟩
      · by_cases hlimit : x < indexLimit
        · exact ⟨_, .inl ⟨⟨x, hlimit⟩, hlt, .inl hx, rfl⟩, hpath⟩
        · exact absurd hpath (not_classPath_of_isolated (by omega) hlt v)
      · exact ⟨c, .inl ⟨u, hlt, .inr hu, hc⟩, hpath⟩
    · exact ⟨c, .inr hcycle, hpath⟩
  · rintro ⟨c, ⟨u, hlt, hstart, rfl⟩ | hcycle, hpath⟩
    · refine ⟨_, .inl (marked_marksOf.mpr ⟨mem_seeds.mpr ?_, classNumber_lt hlt⟩), hpath⟩
      rcases hstart with hslot | hreleased
      · exact .inl ⟨u.index, hslot, hlt, rfl⟩
      · exact .inr ⟨u, hreleased, hlt, rfl⟩
    · exact ⟨c, .inr hcycle, hpath⟩

theorem size_escaping (n : Nat) (slots : List Nat) (facts : List Fact) :
    (ofFacts n slots facts).escaping.size = classTotal n facts := by
  rw [escaping_eq_close, close, size_reachable, size_fieldGraph]

/-! ## Answers -/

theorem variableCount_ofFacts (n : Nat) (slots : List Nat) (facts : List Fact) :
    (ofFacts n slots facts).variableCount = n :=
  DisjointSet.size_pack (forest_classes n facts) n

theorem class?_ofFacts {v : Variable} (hv : v.index < n) :
    (ofFacts n slots facts).class? v = some (classNumber n facts v.index) := by
  show ((classes n facts).pack n).1[v.index]? = _
  rw [getElem?_classOf, if_pos hv]

/-- Two variables of the table have one class exactly if copies connect them. -/
theorem class?_ofFacts_eq_iff {u v : Variable} (hu : u.index < n) (hv : v.index < n) :
    (ofFacts n slots facts).class? u = (ofFacts n slots facts).class? v ↔
      EqvGen (Fact.flow facts).Copies u v := by
  rw [class?_ofFacts hu, class?_ofFacts hv, Option.some_inj, classNumber_eq_iff hu]
  exact root_classes_eq_iff n facts u v

/-- Asking for a variable of the table has an answer, which says whether it is exposed. -/
theorem exists_escapes_ofFacts (hin : Inside n facts) {v : Variable} (hv : v.index < n) :
    ∃ b, (ofFacts n slots facts).escapes v = .ok b ∧
      (b = true ↔ (Fact.flow facts).Exposed (fun v => v.index ∈ slots) v) := by
  have hlt : classNumber n facts v.index < (ofFacts n slots facts).escaping.size := by
    rw [size_escaping]
    exact classNumber_lt hv
  have hget := Array.getElem?_eq_getElem hlt
  refine ⟨(ofFacts n slots facts).escaping[classNumber n facts v.index], ?_, ?_⟩
  · simp only [escapes, escapes?, class?_ofFacts hv, Option.map_some, hget, Option.getD_some]
  · rw [← marked_escaping_iff hin hv, Marked, hget, Option.some_inj]

theorem getD_constructed (n : Nat) (slots : List Nat) (facts : List Fact) (x : Nat) :
    (ofFacts n slots facts).constructed[x]?.getD false =
      decide ((∃ v ∈ Fact.allocations facts, v.index = x) ∧ x < n) :=
  (getD_marksOf n _ x).trans (by simp only [List.mem_map])

theorem isConstructed_ofFacts {v : Variable} (hv : v.index < n) :
    (ofFacts n slots facts).isConstructed v = .ok (decide (v ∈ Fact.allocations facts)) := by
  have hmem : (∃ u ∈ Fact.allocations facts, u.index = v.index) ∧ v.index < n ↔
      v ∈ Fact.allocations facts := by
    constructor
    · rintro ⟨⟨u, hu, heq⟩, -⟩
      exact Variable.ext heq ▸ hu
    · intro hmem
      exact ⟨⟨v, hmem, rfl⟩, hv⟩
  rw [isConstructed, if_pos ((variableCount_ofFacts n slots facts).symm ▸ hv), getD_constructed,
    decide_eq_decide.mpr hmem]

end Facts

theorem escapesAt_of_escapes {facts : EscapeFacts} {v : Variable} {b : Bool}
    (h : facts.escapes v = .ok b) : facts.escapesAt v.index = b := by
  unfold escapes escapes? class? at h
  unfold escapesAt
  cases hclass : facts.classOf[v.index]? with
  | none =>
    rw [hclass] at h
    cases h
  | some c =>
    rw [hclass] at h
    cases h
    rfl

theorem not_mem_candidates {facts : EscapeFacts} {v : Variable}
    (h : facts.escapes v = .ok true) : v.index ∉ facts.candidates := by
  intro hmem
  have hlocal : (!facts.escapesAt v.index) = true := (List.mem_filter.mp hmem).2
  rw [escapesAt_of_escapes h] at hlocal
  cases hlocal

end EscapeFacts

/-! ## Programs -/

theorem Instruction.Copies.mem_vars {i : Instruction} {u v : Variable} (h : i.Copies u v) :
    u ∈ i.vars ∧ v ∈ i.vars := by
  cases h <;> simp [Instruction.vars, Instruction.dest?, Instruction.uses]

theorem Instruction.Holds.mem_vars {i : Instruction} {u v : Variable} (h : i.Holds u v) :
    u ∈ i.vars ∧ v ∈ i.vars := by
  cases h <;> simp [Instruction.vars, Instruction.dest?, Instruction.uses]

theorem Instruction.Releases.mem_vars {i : Instruction} {v : Variable} (h : i.Releases v) :
    v ∈ i.vars := by
  cases h <;> simp_all [Instruction.vars, Instruction.dest?, Instruction.uses]

theorem Instruction.mem_vars_of_allocates {i : Instruction} {v : Variable}
    (h : .allocates v ∈ i.facts) : v ∈ i.vars := by
  have haccess : ∀ object value, .allocates v ≠ Fact.fieldAccess object value := by
    intro object value
    cases object <;> exact Fact.noConfusion
  cases i <;> simp_all [Instruction.facts, Fact.call, Instruction.vars, Instruction.dest?]

def Fact.vars : Fact → List Variable
  | .copy dest source => [dest, source]
  | .escapes v => [v]
  | .holds object value => [object, value]
  | .allocates v => [v]

/-- The facts of an instruction name nothing that the instruction does not. -/
theorem Instruction.mem_vars_of_mem_facts {i : Instruction} {fact : Fact} (h : fact ∈ i.facts) :
    ∀ v ∈ fact.vars, v ∈ i.vars := by
  cases fact with
  | copy dest source =>
    obtain ⟨hdest, hsource⟩ := (Fact.copy_mem_facts.mp h).mem_vars
    exact List.forall_mem_cons.mpr ⟨hdest, List.forall_mem_singleton.mpr hsource⟩
  | escapes v => exact List.forall_mem_singleton.mpr (Fact.escapes_mem_facts.mp h).mem_vars
  | holds object value =>
    obtain ⟨hobject, hvalue⟩ := (Fact.holds_mem_facts.mp h).mem_vars
    exact List.forall_mem_cons.mpr ⟨hobject, List.forall_mem_singleton.mpr hvalue⟩
  | allocates v => exact List.forall_mem_singleton.mpr (mem_vars_of_allocates h)

namespace Program

variable {p : Program}

/-- Whatever the facts of a program name is in its table. -/
theorem InRange.fact_lt (h : p.InRange) {fact : Fact} (hfact : fact ∈ p.facts) :
    ∀ v ∈ fact.vars, v.index < p.variableCount := by
  obtain ⟨b, hb, ⟨phi, hphi, hmem⟩ | ⟨i, hi, hmem⟩⟩ := Fact.mem_facts.mp hfact
  · obtain ⟨incoming, hin, rfl⟩ := Fact.mem_phi_facts.mp hmem
    exact List.forall_mem_cons.mpr ⟨h.phi_dest b hb phi hphi,
      List.forall_mem_singleton.mpr (h.phi_value b hb phi hphi incoming hin)⟩
  · exact fun v hv => h.variable_lt b hb i hi v (Instruction.mem_vars_of_mem_facts hmem v hv)

theorem InRange.inside_facts (h : p.InRange) : EscapeFacts.Inside p.variableCount p.facts := by
  refine ⟨fun u v huv => ?_, fun u v huv => ?_, fun v hv => ?_⟩
  · have hlt := h.fact_lt (show .copy u v ∈ p.facts from huv)
    exact ⟨hlt u List.mem_cons_self, hlt v (List.mem_cons_of_mem _ List.mem_cons_self)⟩
  · have hlt := h.fact_lt (show .holds u v ∈ p.facts from huv)
    exact ⟨hlt u List.mem_cons_self, hlt v (List.mem_cons_of_mem _ List.mem_cons_self)⟩
  · exact h.fact_lt (show .escapes v ∈ p.facts from hv) v List.mem_cons_self

/-- The variable is a slot of the parameters, of which the first is the receiver's. -/
def IsSlot (p : Program) (parameterCount : Nat) (markReceiver : Bool) (v : Variable) : Prop :=
  v.index < p.variableCount ∧ (if markReceiver then 0 else 1) ≤ v.index ∧ v.index ≤ parameterCount

theorem mem_parameterSlots {parameterCount : Nat} {markReceiver : Bool} {v : Variable} :
    v.index ∈ EscapeFacts.parameterSlots p.variableCount parameterCount markReceiver ↔
      p.IsSlot parameterCount markReceiver v := by
  rw [EscapeFacts.parameterSlots, List.mem_filter, List.mem_range, IsSlot]
  cases markReceiver <;> simp [and_comm, Nat.one_le_iff_ne_zero]

/-- Whether the program passes the check that the configuration selects. -/
def Passes (p : Program) (config : EscapeConfig) : Prop :=
  (if config.verifyFirst then p.verify else p.verifyOperands) = .ok ()

theorem Passes.inRange {config : EscapeConfig} (h : p.Passes config) : p.InRange := by
  unfold Passes at h
  split at h
  · exact verifyOperands_eq_ok_iff.mp (verifyOperands_of_verify h)
  · exact verifyOperands_eq_ok_iff.mp h

theorem analyze_eq_of_passes {config : EscapeConfig} (h : p.Passes config) (parameterCount : Nat) :
    EscapeFacts.analyze p parameterCount config =
      .ok (EscapeFacts.ofFacts p.variableCount
        (EscapeFacts.parameterSlots p.variableCount parameterCount config.markReceiver)
        p.facts) := by
  unfold Passes at h
  unfold EscapeFacts.analyze
  split
  · next hverify =>
    rw [if_pos hverify] at h
    rw [h]
    rfl
  · next hverify =>
    rw [if_neg hverify] at h
    rw [h]
    rfl

/-- A result that follows a check adds no error. -/
theorem checked_eq_error_iff {α : Type} {check : Except MethodError Unit} {a : α}
    {e : MethodError} : (do check; return a) = .error e ↔ check = .error e := by
  cases check with
  | error => exact ⟨fun h => by cases h; rfl, fun h => by cases h; rfl⟩
  | ok => exact ⟨fun h => (nomatch h), fun h => (nomatch h)⟩

/-- An analysis ends in an error exactly if the check that is selected does, and in the same. -/
theorem analyze_eq_error_iff {config : EscapeConfig} {parameterCount : Nat} {e : MethodError} :
    EscapeFacts.analyze p parameterCount config = .error e ↔
      (if config.verifyFirst then p.verify else p.verifyOperands) = .error e := by
  unfold EscapeFacts.analyze
  split
  · exact checked_eq_error_iff
  · exact checked_eq_error_iff

/-- The answer for a variable, said of the flow of the program. -/
theorem exists_escapes_of_passes {config : EscapeConfig} (h : p.Passes config)
    (parameterCount : Nat) {v : Variable} (hv : v.index < p.variableCount) :
    ∃ b, (EscapeFacts.ofFacts p.variableCount
        (EscapeFacts.parameterSlots p.variableCount parameterCount config.markReceiver)
        p.facts).escapes v = .ok b ∧
      (b = true ↔ p.flow.Exposed (p.IsSlot parameterCount config.markReceiver) v) := by
  have hslot : (fun v : Variable => v.index ∈ EscapeFacts.parameterSlots p.variableCount
      parameterCount config.markReceiver) = p.IsSlot parameterCount config.markReceiver := by
    funext v
    exact propext mem_parameterSlots
  rw [← hslot, ← Fact.flow_facts]
  exact EscapeFacts.exists_escapes_ofFacts h.inRange.inside_facts hv

theorem escapes_iff_exposed (p : Program) (parameterCount : Nat) (config : EscapeConfig)
    (h : p.Passes config) :
    ∃ facts, EscapeFacts.analyze p parameterCount config = .ok facts ∧
      ∀ v : Variable, v.index < p.variableCount →
        ∃ b, facts.escapes v = .ok b ∧
          (b = true ↔ p.flow.Exposed (p.IsSlot parameterCount config.markReceiver) v) :=
  ⟨_, analyze_eq_of_passes h parameterCount, fun _ hv => exists_escapes_of_passes h _ hv⟩

/-- Two objects that hold each other. -/
def ring : Program :=
  ⟨#[⟨0, [], [
      .construct 1 "Node",
      .construct 2 "Node",
      .putField (some 1) 2 ⟨"Node", "next"⟩ "LNode;",
      .putField (some 2) 1 ⟨"Node", "next"⟩ "LNode;",
      .exit none]⟩], .replicate 3 ⟨none⟩⟩

theorem ring_escapes :
    ring.Passes ⟨true, false, false⟩ ∧
      ∃ facts, EscapeFacts.analyze ring 0 ⟨true, false, false⟩ = .ok facts ∧
        facts.escapes 2 = .ok true := by
  have hpass : ring.Passes ⟨true, false, false⟩ := rfl
  obtain ⟨facts, hfacts, hall⟩ := escapes_iff_exposed ring 0 ⟨true, false, false⟩ hpass
  obtain ⟨b, hb, hiff⟩ := hall 2 (by decide)
  have hfirst : ring.flow.Holds 1 2 :=
    ⟨_, Array.mem_singleton.mpr rfl, .putField (some _) _ ⟨"Node", "next"⟩ "LNode;",
      by simp, .putField _ _ _ _⟩
  have hsecond : ring.flow.Holds 2 1 :=
    ⟨_, Array.mem_singleton.mpr rfl, .putField (some _) _ ⟨"Node", "next"⟩ "LNode;",
      by simp, .putField _ _ _ _⟩
  have hcycle : ring.flow.OnCycle 2 := ⟨_, _, .refl, hsecond, .single (.inr (.inr hfirst))⟩
  have htrue : b = true := hiff.mpr (.cyclic hcycle)
  refine ⟨hpass, facts, hfacts, ?_⟩
  rw [hb, htrue]

end Program

end MethodFlow
