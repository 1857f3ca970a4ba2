import MethodFlow.Method
import MethodFlow.Proofs.Escape.Exactness
import MethodFlow.Proofs.NullCheck.Insertion
/-!
# The stages of a run

A run verifies, inserts checks and analyses.  Whether it gets past a stage and with what is said
here once for every configuration; a stage that is off guards no kind of call and adds nothing:

* `run_eq_of_verify_error`, `run_eq_violation`: it ends where verification fails, and where there
  are no numbers for the checks;
* `exists_run_eq`: else it analyses the program with its checks.
-/

namespace MethodFlow

def NullCheckConfig.guardedKinds (config : NullCheckConfig) : List Dispatch :=
  if config.enabled then config.kinds else []

namespace Method

variable {m : Method} {config : AnalysisConfig} {e : MethodError}

/-! ## Null checks -/

def checkCount (m : Method) (config : NullCheckConfig) : Nat :=
  if config.enabled then (m.program.objectCalls config.kinds).length else 0

theorem checkCount_eq (m : Method) (config : NullCheckConfig) :
    m.checkCount config = m.program.guardCount config.guardedKinds := by
  unfold checkCount NullCheckConfig.guardedKinds
  split
  · rw [Program.guardCount_eq_length]
  · rw [Program.guardCount_nil]

theorem withNullChecks_of_disabled {config : NullCheckConfig} (h : config.enabled = false) :
    m.withNullChecks config = .ok (0, m) := by
  unfold withNullChecks
  rw [if_neg (by rw [h]; exact Bool.false_ne_true)]
  rfl

theorem withNullChecks_of_enabled {config : NullCheckConfig} (h : config.enabled = true) :
    m.withNullChecks config = (m.program.insertNullChecks config.kinds).map fun done =>
      (done.1, { m with program := done.2 }) := by
  unfold withNullChecks
  rw [if_pos h]
  cases m.program.insertNullChecks config.kinds <;> rfl

theorem exists_withNullChecks {config : NullCheckConfig}
    (hroom : HasRoom m.program.variableCount (m.checkCount config)) :
    ∃ q checks, m.withNullChecks config = .ok (m.checkCount config, { m with program := q }) ∧
      m.program.Inserts config.guardedKinds q checks ∧ checks.length = m.checkCount config := by
  rw [checkCount_eq] at *
  unfold NullCheckConfig.guardedKinds at *
  cases henabled : config.enabled with
  | false =>
    rw [withNullChecks_of_disabled henabled, if_neg Bool.false_ne_true, Program.guardCount_nil]
    exact ⟨m.program, [], rfl, .of_nil m.program, rfl⟩
  | true =>
    rw [henabled, if_pos rfl] at hroom
    obtain ⟨q, checks, hinsert, h, hlength⟩ := Program.exists_insertNullChecks hroom
    rw [if_pos rfl]
    refine ⟨q, checks, ?_, h, hlength⟩
    rw [withNullChecks_of_enabled henabled, hinsert]
    rfl

theorem withNullChecks_eq_error {config : NullCheckConfig}
    (hroom : ¬ HasRoom m.program.variableCount (m.checkCount config)) :
    m.withNullChecks config = .error .variableTooLarge := by
  rw [checkCount_eq, NullCheckConfig.guardedKinds] at hroom
  cases henabled : config.enabled with
  | false =>
    rw [henabled, if_neg Bool.false_ne_true, Program.guardCount_nil] at hroom
    exact absurd (.inl rfl) hroom
  | true =>
    rw [henabled, if_pos rfl] at hroom
    rw [withNullChecks_of_enabled henabled, Program.insertNullChecks_eq_error hroom]
    rfl

/-! ## Analysis -/

/-- The analysis of a method looks at the operands of its program only. -/
theorem escapeFacts_eq_map {config : EscapeConfig} (henabled : config.enabled = true) :
    m.escapeFacts? config = (EscapeFacts.analyze m.program m.reference.parameterCount
      ⟨config.enabled, false, config.markReceiver && !m.isStatic⟩).map some := by
  unfold escapeFacts?
  rw [if_pos henabled]
  dsimp only
  cases EscapeFacts.analyze m.program m.reference.parameterCount
    ⟨config.enabled, false, config.markReceiver && !m.isStatic⟩ <;> rfl

theorem exists_escapeFacts {config : EscapeConfig} (henabled : config.enabled = true)
    (h : m.program.verifyOperands = .ok ()) : ∃ facts, m.escapeFacts? config = .ok facts := by
  have hpasses : m.program.Passes
      ⟨config.enabled, false, config.markReceiver && !m.isStatic⟩ := h
  rw [escapeFacts_eq_map henabled, Program.analyze_eq_of_passes hpasses]
  exact ⟨_, rfl⟩

theorem escapeFacts_eq_error {config : EscapeConfig} (henabled : config.enabled = true)
    (h : m.program.verifyOperands = .error e) : m.escapeFacts? config = .error e := by
  have herror : EscapeFacts.analyze m.program m.reference.parameterCount
      ⟨config.enabled, false, config.markReceiver && !m.isStatic⟩ = .error e :=
    Program.analyze_eq_error_iff.mpr h
  rw [escapeFacts_eq_map henabled, herror]
  rfl

theorem escapeFacts_eq_none {config : EscapeConfig} (h : config.enabled = false) :
    m.escapeFacts? config = .ok none := by
  unfold escapeFacts?
  rw [if_neg (by rw [h]; exact Bool.false_ne_true)]
  rfl

/-- The last stage fails exactly if it is on and an operand dangles. -/
theorem escapeFacts_eq_error_iff {config : EscapeConfig} :
    m.escapeFacts? config = .error e ↔
      config.enabled = true ∧ m.program.verifyOperands = .error e := by
  constructor
  · intro h
    cases henabled : config.enabled with
    | false =>
      rw [escapeFacts_eq_none henabled] at h
      cases h
    | true =>
      refine ⟨rfl, ?_⟩
      cases hoperands : m.program.verifyOperands with
      | ok =>
        obtain ⟨facts, hfacts⟩ := exists_escapeFacts henabled hoperands
        rw [hfacts] at h
        cases h
      | error e' =>
        rw [escapeFacts_eq_error henabled hoperands] at h
        cases h
        rfl
  · rintro ⟨henabled, hoperands⟩
    exact escapeFacts_eq_error henabled hoperands

/-! ## Whole runs -/

theorem run_eq_of_verify_error (hverify : config.escape.verifyFirst = true)
    (h : m.program.verify = .error e) : m.run config = .ok ⟨m, .error e⟩ := by
  unfold run
  rw [if_pos hverify, h]
  rfl

/-- What is verified first is in order. -/
def Admitted (config : AnalysisConfig) (m : Method) : Prop :=
  config.escape.verifyFirst = true → m.program.verify = .ok ()

theorem admitted_of_not_verifyFirst (h : config.escape.verifyFirst = false) : m.Admitted config :=
  fun hverify => absurd (h.symm.trans hverify) Bool.false_ne_true

theorem admitted_or_exists_error (config : AnalysisConfig) (m : Method) :
    m.Admitted config ∨
      ∃ e, config.escape.verifyFirst = true ∧ m.program.verify = .error e := by
  unfold Admitted
  cases hverify : config.escape.verifyFirst with
  | false => exact .inl fun h => absurd h Bool.false_ne_true
  | true =>
    cases h : m.program.verify with
    | ok => exact .inl fun _ => rfl
    | error e => exact .inr ⟨e, rfl, rfl⟩

theorem Admitted.run_eq (h : m.Admitted config) :
    m.run config = (m.withNullChecks config.nullCheck).map fun done =>
      ⟨done.2, (done.2.escapeFacts? config.escape).map fun escape? =>
        ⟨done.2.reference, done.1, escape?⟩⟩ := by
  have hpass : (if config.escape.verifyFirst then m.program.verify else .ok ()) = .ok () := by
    split
    · next hverify => exact h hverify
    · rfl
  unfold run
  rw [hpass]
  cases m.withNullChecks config.nullCheck <;> rfl

theorem Admitted.run_eq_violation (h : m.Admitted config)
    (hroom : ¬ HasRoom m.program.variableCount (m.checkCount config.nullCheck)) :
    m.run config = .error .variableTooLarge := by
  rw [h.run_eq, withNullChecks_eq_error hroom]
  rfl

/-- A run that gets as far as the last stage analyses the program with its checks. -/
theorem Admitted.exists_run_eq (h : m.Admitted config)
    (hroom : HasRoom m.program.variableCount (m.checkCount config.nullCheck)) :
    ∃ q checks, m.program.Inserts config.nullCheck.guardedKinds q checks ∧
      checks.length = m.checkCount config.nullCheck ∧
      m.run config = .ok ⟨{ m with program := q },
        (({ m with program := q } : Method).escapeFacts? config.escape).map fun escape? =>
          ⟨m.reference, m.checkCount config.nullCheck, escape?⟩⟩ := by
  obtain ⟨q, checks, hinsert, hinserts, hlength⟩ := exists_withNullChecks hroom
  refine ⟨q, checks, hinserts, hlength, ?_⟩
  rw [h.run_eq, hinsert]
  rfl

end Method

end MethodFlow
