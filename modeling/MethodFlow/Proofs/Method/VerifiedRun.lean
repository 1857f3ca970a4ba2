import MethodFlow.Proofs.Method.Stages
import MethodFlow.Proofs.NullCheck.Verification
/-!
# Runs that verify first

After the insertion of null checks a run looks at operands only, as it has verified the program
before.  Nothing is lost by that:

* `Inserts.exists_analyze_agree`: an analysis of the program with its checks says what one of the
  program without them would say;
* `run_of_verifyFirst`: the run succeeds exactly if verification does, and reports these facts on
  a program that is still verified.
-/

namespace MethodFlow

/-! ## Facts that agree -/

structure EscapeFacts.Agree (n : Nat) (f g : EscapeFacts) : Prop where
  answers : ∀ v : Variable, v.index < n →
    ∃ c escaping constructed, f.Says v c escaping constructed ∧ g.Says v c escaping constructed
  classCount_eq : g.classCount = f.classCount
  edgeCount_eq : g.edgeCount = f.edgeCount
  candidates_eq : g.candidates = f.candidates

namespace Program

variable {p q : Program} {kinds : List Dispatch} {checks : Checks}

/-- Whatever is checked before the analyses, they agree on the variables of the program. -/
theorem Inserts.exists_analyze_agree (h : p.Inserts kinds q checks)
    (hverify : p.verify = .ok ()) (hlimit : p.variableCount + checks.length ≤ indexLimit)
    (parameterCount : Nat) (enabled markReceiver : Bool) :
    ∃ plain checked,
      (∀ verifyFirst, EscapeFacts.analyze p parameterCount ⟨enabled, verifyFirst, markReceiver⟩ =
        .ok plain) ∧
      EscapeFacts.analyze q parameterCount ⟨enabled, false, markReceiver⟩ = .ok checked ∧
      plain.Agree p.variableCount checked := by
  have hin : p.InRange := verifyOperands_eq_ok_iff.mp (verifyOperands_of_verify hverify)
  have hpasses : ∀ verifyFirst, p.Passes ⟨enabled, verifyFirst, markReceiver⟩ := by
    rintro (_ | _)
    · exact verifyOperands_of_verify hverify
    · exact hverify
  have hpasses' : q.Passes ⟨enabled, false, markReceiver⟩ :=
    verifyOperands_of_verify (h.verify_eq_ok hverify)
  have hext := h.extends_facts hin hlimit
  have hslots := mem_parameterSlots_add p.variableCount checks.length parameterCount markReceiver
  have hchecked := analyze_eq_of_passes hpasses' parameterCount
  rw [h.variableCount_eq] at hchecked
  exact ⟨_, _, fun verifyFirst => analyze_eq_of_passes (hpasses verifyFirst) parameterCount,
    hchecked, fun v hv => hext.says_before hslots hv, congrArg Array.size (hext.escaping_eq hslots),
    congrArg Graph.edgeCount hext.fieldGraph_eq, hext.candidates_eq hslots⟩

end Program

/-! ## Runs -/

namespace Method

variable {m : Method} {config : AnalysisConfig}

/-- What a method comes back with after a run: its program, still verified, the number of checks,
and the facts that an analysis of the program without checks finds. -/
structure Reports (config : AnalysisConfig) (m : Method) (q : Program) (facts : MethodFacts) :
    Prop where
  insertedChecks_eq : facts.insertedChecks = m.checkCount config.nullCheck
  verify_eq_ok : q.verify = .ok ()
  escape?_eq_none : config.escape.enabled = false → facts.escape? = none
  escape?_agree : config.escape.enabled = true → ∃ plain reported,
    (∀ verifyFirst, EscapeFacts.analyze m.program m.reference.parameterCount
      ⟨true, verifyFirst, config.escape.markReceiver && !m.isStatic⟩ = .ok plain) ∧
    facts.escape? = some reported ∧ plain.Agree m.program.variableCount reported

theorem exists_reports (hverify : m.program.verify = .ok ())
    (hroom : m.program.variableCount + m.checkCount config.nullCheck ≤ indexLimit) :
    ∃ q facts, m.run config = .ok ⟨{ m with program := q }, .ok facts⟩ ∧
      m.Reports config q facts := by
  have hadmitted : m.Admitted config := fun _ => hverify
  obtain ⟨q, checks, hinserts, hlength, hrun⟩ := hadmitted.exists_run_eq (.inr hroom)
  have hverified := hinserts.verify_eq_ok hverify
  cases henabled : config.escape.enabled with
  | false =>
    rw [escapeFacts_eq_none henabled] at hrun
    refine ⟨q, _, hrun, rfl, hverified, fun _ => rfl, fun h => ?_⟩
    rw [henabled] at h
    cases h
  | true =>
    obtain ⟨plain, checked, hplain, hchecked, hagree⟩ :=
      hinserts.exists_analyze_agree hverify (hlength ▸ hroom) m.reference.parameterCount true
        (config.escape.markReceiver && !m.isStatic)
    have hfacts : ({ m with program := q } : Method).escapeFacts? config.escape =
        .ok (some checked) := by
      rw [escapeFacts_eq_map henabled, henabled, hchecked]
      rfl
    rw [hfacts] at hrun
    refine ⟨q, _, hrun, rfl, hverified, fun h => ?_, fun _ => ⟨plain, checked, hplain, rfl, hagree⟩⟩
    rw [henabled] at h
    cases h

/-- A run that verifies first ends in the error of verification, with the method as it was, or
reports what an analysis of the verified program finds. -/
theorem run_of_verifyFirst (config : AnalysisConfig) (m : Method)
    (hfirst : config.escape.verifyFirst = true)
    (hroom : m.program.variableCount + m.checkCount config.nullCheck ≤ indexLimit) :
    ∃ outcome, m.run config = .ok outcome ∧
      ((∃ facts, outcome.result = .ok facts) ↔ m.program.verify = .ok ()) ∧
      (∀ e, m.program.verify = .error e → outcome = ⟨m, .error e⟩) ∧
      ∀ facts, outcome.result = .ok facts → m.Reports config outcome.method.program facts := by
  cases hverify : m.program.verify with
  | error e =>
    refine ⟨_, run_eq_of_verify_error hfirst hverify, ?_, fun e' h => ?_, fun facts h => ?_⟩
    · simp
    · cases h
      rfl
    · cases h
  | ok =>
    obtain ⟨q, facts, hrun, hreports⟩ := exists_reports hverify hroom
    refine ⟨_, hrun, ?_, fun e h => ?_, fun facts' h => ?_⟩
    · simp
    · cases h
    · cases h
      exact hreports

/-- A method with a call to guard on its new object. -/
def dispatching : Method := ⟨⟨"A", "f", [], "V"⟩, Program.dispatching, true⟩

/-- The settings that are standard verify first and guard virtual calls. -/
theorem dispatching_reports :
    (AnalysisConfig.ofPreset .standard).escape.verifyFirst = true ∧
      dispatching.program.variableCount +
        dispatching.checkCount (AnalysisConfig.ofPreset .standard).nullCheck ≤ indexLimit ∧
      ∃ outcome facts plain reported,
        dispatching.run (AnalysisConfig.ofPreset .standard) = .ok outcome ∧
        outcome.result = .ok facts ∧ facts.insertedChecks = 1 ∧
        outcome.method.program.verify = .ok () ∧
        EscapeFacts.analyze dispatching.program 0 ⟨true, true, false⟩ = .ok plain ∧
        facts.escape? = some reported ∧ plain.Agree 2 reported := by
  have hroom : dispatching.program.variableCount +
      dispatching.checkCount (AnalysisConfig.ofPreset .standard).nullCheck ≤ indexLimit := by
    decide
  obtain ⟨outcome, hrun, hok, -, hreports⟩ :=
    run_of_verifyFirst (AnalysisConfig.ofPreset .standard) dispatching rfl hroom
  obtain ⟨facts, hfacts⟩ := hok.mpr (by cbv)
  have hreport := hreports facts hfacts
  obtain ⟨plain, reported, hplain, hreported, hagree⟩ := hreport.escape?_agree rfl
  exact ⟨rfl, hroom, outcome, facts, plain, reported, hrun, hfacts, hreport.insertedChecks_eq,
    hreport.verify_eq_ok, hplain true, hreported, hagree⟩

end Method

end MethodFlow
