import MethodFlow.Proofs.Method.Stages
/-!
# Methods with dangling operands

No facts are wanted of a method whose program names what it does not have.  Operands are looked at
before null checks are inserted or after, as the configuration says:

* `run_eq_error_of_verifyFirst`, `run_eq_error_of_no_checks`: where nothing is inserted before
  operands are looked at, the method is refused and handed back as it was;
* `refused_iff_of_dangling`: after an insertion it is refused only if an operand dangles in the
  table that has grown, and analysed if the checks have taken the place of whatever was missing.
-/

namespace MethodFlow

/-! ## Operands of a program that grows -/

namespace Program

variable {p : Program} {count : Nat}

/-- The program names a block that it lacks, or a variable that it would lack with so many more. -/
def Dangles (p : Program) (count : Nat) : Prop :=
  ∃ b ∈ p.blocks, (∃ v ∈ b.vars, p.variableCount + count ≤ v.index) ∨
    ∃ l ∈ b.labels, p.blockCount ≤ l.index

theorem inRange_grow_iff : (p.grow count).InRange ↔ ¬ p.Dangles count := by
  have hblocks : (p.grow count).blockCount = p.blockCount := rfl
  rw [inRange_iff_blocks, variableCount_grow, hblocks]
  constructor
  · rintro h ⟨b, hb, ⟨v, hv, hle⟩ | ⟨l, hl, hle⟩⟩
    · exact Nat.not_lt_of_le hle ((h b hb).1 v hv)
    · exact Nat.not_lt_of_le hle ((h b hb).2 l hl)
  · intro h b hb
    exact ⟨fun v hv => Nat.lt_of_not_le fun hle => h ⟨b, hb, .inl ⟨v, hv, hle⟩⟩,
      fun l hl => Nat.lt_of_not_le fun hle => h ⟨b, hb, .inr ⟨l, hl, hle⟩⟩⟩

end Program

/-! ## The stages of a run -/

namespace Method

variable {m : Method} {config : AnalysisConfig} {e : MethodError}

theorem run_eq_error_of_verifyFirst (hverify : config.escape.verifyFirst = true)
    (h : m.program.verifyOperands = .error e) : m.run config = .ok ⟨m, .error e⟩ :=
  run_eq_of_verify_error hverify (Program.verify_eq_error h)

/-- A run that does not verify first goes on with the program after the insertion. -/
theorem run_eq_of_withNullChecks (hverify : config.escape.verifyFirst = false) {inserted : Nat}
    {m' : Method} (h : m.withNullChecks config.nullCheck = .ok (inserted, m')) :
    m.run config = .ok ⟨m', (m'.escapeFacts? config.escape).map fun escape? =>
      ⟨m'.reference, inserted, escape?⟩⟩ := by
  rw [(admitted_of_not_verifyFirst hverify).run_eq, h]
  rfl

theorem run_eq_error_of_no_checks (hverify : config.escape.verifyFirst = false)
    (hchecks : config.nullCheck.enabled = false) (henabled : config.escape.enabled = true)
    (h : m.program.verifyOperands = .error e) : m.run config = .ok ⟨m, .error e⟩ := by
  rw [run_eq_of_withNullChecks hverify (withNullChecks_of_disabled hchecks),
    escapeFacts_eq_error henabled h]
  rfl

theorem run_eq_of_insertNullChecks (hverify : config.escape.verifyFirst = false)
    (hchecks : config.nullCheck.enabled = true) {inserted : Nat} {q : Program}
    (h : m.program.insertNullChecks config.nullCheck.kinds = .ok (inserted, q)) :
    m.run config = .ok ⟨{ m with program := q },
      (({ m with program := q } : Method).escapeFacts? config.escape).map fun escape? =>
        ⟨m.reference, inserted, escape?⟩⟩ := by
  refine run_eq_of_withNullChecks hverify ?_
  rw [withNullChecks_of_enabled hchecks, h]
  rfl

theorem run_eq_violation (hverify : config.escape.verifyFirst = false)
    (hchecks : config.nullCheck.enabled = true) {violation : Violation}
    (h : m.program.insertNullChecks config.nullCheck.kinds = .error violation) :
    m.run config = .error violation := by
  rw [(admitted_of_not_verifyFirst hverify).run_eq, withNullChecks_of_enabled hchecks, h]
  rfl

/-! ## Which methods are refused -/

/-- The run ends in an error about the method. -/
def Refused (config : AnalysisConfig) (m : Method) : Prop :=
  ∃ outcome e, m.run config = .ok outcome ∧ outcome.result = .error e

/-- The run ends with facts about the method. -/
def Analysed (config : AnalysisConfig) (m : Method) : Prop :=
  ∃ outcome facts, m.run config = .ok outcome ∧ outcome.result = .ok facts

theorem Refused.not_analysed (h : m.Refused config) : ¬ m.Analysed config := by
  obtain ⟨outcome, e, hrun, hresult⟩ := h
  rintro ⟨outcome', facts, hrun', hresult'⟩
  rw [hrun] at hrun'
  cases hrun'
  rw [hresult] at hresult'
  cases hresult'

/-- Checks are inserted first: the method is analysed exactly if their variables are all that its
operands lack. -/
theorem refused_or_analysed_of_checks (hverify : config.escape.verifyFirst = false)
    (hchecks : config.nullCheck.enabled = true) (henabled : config.escape.enabled = true)
    (hroom : HasRoom m.program.variableCount (m.program.guardCount config.nullCheck.kinds)) :
    (m.program.Dangles (m.program.guardCount config.nullCheck.kinds) ∧ m.Refused config) ∨
      (¬ m.program.Dangles (m.program.guardCount config.nullCheck.kinds) ∧
        m.Analysed config) := by
  obtain ⟨q, checks, hinsert, h, hlength⟩ := Program.exists_insertNullChecks hroom
  have hrun := run_eq_of_insertNullChecks hverify hchecks hinsert
  have hrange : q.InRange ↔ ¬ m.program.Dangles (m.program.guardCount config.nullCheck.kinds) := by
    rw [h.inRange_iff, Program.inRange_grow_iff, hlength]
  rw [← Program.verifyOperands_eq_ok_iff] at hrange
  cases hoperands : q.verifyOperands with
  | error e =>
    have hdangles : m.program.Dangles (m.program.guardCount config.nullCheck.kinds) := by
      by_contra hnot
      rw [hrange.mpr hnot] at hoperands
      cases hoperands
    rw [escapeFacts_eq_error henabled hoperands] at hrun
    exact .inl ⟨hdangles, _, e, hrun, rfl⟩
  | ok =>
    obtain ⟨facts, hfacts⟩ := exists_escapeFacts (m := { m with program := q }) henabled hoperands
    rw [hfacts] at hrun
    exact .inr ⟨hrange.mp hoperands, _, _, hrun, rfl⟩

/-- A method with a dangling operand is refused if it is verified first or gets no checks, and else
if an operand dangles even in the table with the variables of the checks; if none does, the method
is analysed.  In the case that is left there are no numbers for the checks. -/
theorem refused_iff_of_dangling (config : AnalysisConfig) (m : Method)
    (henabled : config.escape.enabled = true) (hdangling : m.program.verifyOperands ≠ .ok ()) :
    (m.Refused config ↔
      config.escape.verifyFirst = true ∨ config.nullCheck.enabled = false ∨
        (HasRoom m.program.variableCount (m.program.guardCount config.nullCheck.kinds) ∧
          m.program.Dangles (m.program.guardCount config.nullCheck.kinds))) ∧
    (m.Analysed config ↔
      config.escape.verifyFirst = false ∧ config.nullCheck.enabled = true ∧
        HasRoom m.program.variableCount (m.program.guardCount config.nullCheck.kinds) ∧
          ¬ m.program.Dangles (m.program.guardCount config.nullCheck.kinds)) := by
  obtain ⟨e, he⟩ : ∃ e, m.program.verifyOperands = .error e := by
    cases h : m.program.verifyOperands with
    | error e => exact ⟨e, rfl⟩
    | ok => exact absurd h hdangling
  cases hverify : config.escape.verifyFirst with
  | true =>
    have hrefused : m.Refused config := ⟨_, e, run_eq_error_of_verifyFirst hverify he, rfl⟩
    simp [hrefused, hrefused.not_analysed]
  | false =>
    cases hchecks : config.nullCheck.enabled with
    | false =>
      have hrefused : m.Refused config :=
        ⟨_, e, run_eq_error_of_no_checks hverify hchecks henabled he, rfl⟩
      simp [hrefused, hrefused.not_analysed]
    | true =>
      by_cases hroom : HasRoom m.program.variableCount
          (m.program.guardCount config.nullCheck.kinds)
      · rcases refused_or_analysed_of_checks hverify hchecks henabled hroom with
          ⟨hdangles, hrefused⟩ | ⟨hdangles, hanalysed⟩
        · simp [hroom, hdangles, hrefused, hrefused.not_analysed]
        · have hrefused : ¬ m.Refused config := fun h => h.not_analysed hanalysed
          simp [hroom, hdangles, hrefused, hanalysed]
      · have hrun := run_eq_violation hverify hchecks (Program.insertNullChecks_eq_error hroom)
        simp [Refused, Analysed, hrun, hroom]

/-- Guards virtual calls, and verifies nothing before. -/
def guardingOnly : AnalysisConfig :=
  { AnalysisConfig.ofPreset .fast with nullCheck := ⟨true, [.virtual]⟩ }

/-- A call on the one variable of the program, and the release of a lock on any variable. -/
def unlocking (v : Variable) : Method where
  reference := ⟨"A", "f", [], "V"⟩
  program := ⟨#[⟨0, [], [
      .invoke ⟨.virtual, ⟨"A", "g", [], "V"⟩, some 0, [], none⟩,
      .monitorExit v,
      .exit none]⟩], #[⟨none⟩]⟩
  isStatic := true

/-- One check is not enough for a variable two places beyond the table. -/
theorem unlocking_two_refused :
    guardingOnly.escape.enabled = true ∧ (unlocking 2).program.verifyOperands ≠ .ok () ∧
      (unlocking 2).Refused guardingOnly := by
  have hdangling : (unlocking 2).program.verifyOperands ≠ .ok () := by decide
  have hdangles : (unlocking 2).program.Dangles 1 :=
    ⟨_, Array.mem_singleton.mpr rfl, .inl ⟨2, by decide, by decide⟩⟩
  have hiff := (refused_iff_of_dangling guardingOnly (unlocking 2) rfl hdangling).1
  exact ⟨rfl, hdangling, hiff.mpr (.inr (.inr ⟨.inr (by decide), hdangles⟩))⟩

/-- The variable of the check takes the place of the one that is missing. -/
theorem unlocking_one_not_refused :
    guardingOnly.validate = .ok () ∧ guardingOnly.escape.enabled = true ∧
      (unlocking 1).program.verifyOperands =
        .error (.danglingVariable 1 1 (.instruction "monitor-exit" 0 1)) ∧
      ¬ (unlocking 1).Refused guardingOnly := by
  refine ⟨rfl, rfl, rfl, fun hrefused => hrefused.not_analysed ?_⟩
  obtain ⟨q, hinsert, hoperands⟩ : ∃ q,
      (unlocking 1).program.insertNullChecks [.virtual] = .ok (1, q) ∧ q.verifyOperands = .ok () :=
    ⟨_, rfl, rfl⟩
  obtain ⟨facts, hfacts⟩ : ∃ facts,
      ({ unlocking 1 with program := q } : Method).escapeFacts? guardingOnly.escape = .ok facts :=
    exists_escapeFacts rfl hoperands
  have hrun : (unlocking 1).run guardingOnly = _ := run_eq_of_insertNullChecks rfl rfl hinsert
  rw [hfacts] at hrun
  exact ⟨_, _, hrun, rfl⟩

end Method

end MethodFlow
