import MethodFlow.Batch
import MethodFlow.Proofs.Loops
import MethodFlow.Proofs.Method.DanglingOperands
import MethodFlow.Proofs.NullCheck.EscapeFacts
/-!
# What is handed back with an error

A method that is refused should come back as it was.  Checks are inserted between two stages that
can refuse it, so that it depends on the second of them:

* `alteredByRefusal_iff`: a method is refused and handed back altered exactly if nothing is
  verified first, checks are inserted and an operand dangles in the table that has grown;
* `alteredByRefusal_iff_of_batch`: in a batch the same holds of every method by itself.
-/

namespace MethodFlow

namespace Method

variable {m : Method} {config : AnalysisConfig}

/-- The run ends in an error, and the program that is handed back is not the one handed in. -/
def AlteredByRefusal (config : AnalysisConfig) (m : Method) : Prop :=
  ∃ outcome e, m.run config = .ok outcome ∧ outcome.result = .error e ∧
    outcome.method.program ≠ m.program

/-- Checks go into a program that nothing has looked at, and an operand dangles even with their
variables in the table. -/
structure ChangedTooEarly (config : AnalysisConfig) (m : Method) : Prop where
  verifyFirst : config.escape.verifyFirst = false
  enabled : config.escape.enabled = true
  checks : 0 < m.checkCount config.nullCheck
  room : m.program.variableCount + m.checkCount config.nullCheck ≤ indexLimit
  dangles : m.program.Dangles (m.checkCount config.nullCheck)

theorem not_alteredByRefusal_of_verify_error {e : MethodError}
    (hverify : config.escape.verifyFirst = true) (h : m.program.verify = .error e) :
    ¬ m.AlteredByRefusal config := by
  rintro ⟨outcome, e', hrun, -, haltered⟩
  rw [run_eq_of_verify_error hverify h] at hrun
  cases hrun
  exact haltered rfl

/-- A program in range stays in range, so that the analysis has nothing to refuse. -/
theorem ChangedTooEarly.of_alteredByRefusal (hadmitted : m.Admitted config)
    (h : m.AlteredByRefusal config) : m.ChangedTooEarly config := by
  obtain ⟨outcome, e, hrun, herror, haltered⟩ := h
  by_cases hroom : HasRoom m.program.variableCount (m.checkCount config.nullCheck)
  · obtain ⟨q, checks, hinserts, hlength, hrun'⟩ := hadmitted.exists_run_eq hroom
    rw [hrun] at hrun'
    cases hrun'
    have hfailed : ({ m with program := q } : Method).escapeFacts? config.escape = .error e := by
      cases hfacts : ({ m with program := q } : Method).escapeFacts? config.escape with
      | ok =>
        rw [hfacts] at herror
        cases herror
      | error =>
        rw [hfacts] at herror
        cases herror
        rfl
    obtain ⟨henabled, hoperands⟩ := escapeFacts_eq_error_iff.mp hfailed
    have hout : ¬ q.InRange := by
      rw [← Program.verifyOperands_eq_ok_iff, hoperands]
      exact fun heq => nomatch heq
    have hdangles : m.program.Dangles (m.checkCount config.nullCheck) := by
      by_contra hnot
      exact hout (hinserts.inRange_iff.mpr (hlength ▸ Program.inRange_grow_iff.mpr hnot))
    have hpos : 0 < m.checkCount config.nullCheck := by
      refine Nat.pos_of_ne_zero fun hzero => haltered ?_
      exact hinserts.eq_of_length_eq_zero (hlength.trans hzero)
    refine ⟨?_, henabled, hpos, hroom.resolve_left (Nat.ne_of_gt hpos), hdangles⟩
    by_contra hverify
    have hpass := hadmitted (Bool.eq_true_of_not_eq_false hverify)
    have hin := Program.verifyOperands_eq_ok_iff.mp (Program.verifyOperands_of_verify hpass)
    exact hout (hinserts.inRange_iff.mpr (hin.grow _))
  · rw [hadmitted.run_eq_violation hroom] at hrun
    cases hrun

theorem ChangedTooEarly.alteredByRefusal (h : m.ChangedTooEarly config) :
    m.AlteredByRefusal config := by
  have hadmitted : m.Admitted config := admitted_of_not_verifyFirst h.verifyFirst
  obtain ⟨q, checks, hinserts, hlength, hrun⟩ := hadmitted.exists_run_eq (.inr h.room)
  have hout : ¬ q.InRange := by
    rw [hinserts.inRange_iff, hlength, Program.inRange_grow_iff]
    exact fun hnot => hnot h.dangles
  obtain ⟨e, hoperands⟩ : ∃ e, q.verifyOperands = .error e := by
    cases hoperands : q.verifyOperands with
    | error e => exact ⟨e, rfl⟩
    | ok => exact absurd (Program.verifyOperands_eq_ok_iff.mp hoperands) hout
  have hfailed : ({ m with program := q } : Method).escapeFacts? config.escape = .error e :=
    escapeFacts_eq_error h.enabled hoperands
  rw [hfailed] at hrun
  refine ⟨_, e, hrun, rfl, fun heq => ?_⟩
  have hcount := hinserts.variableCount_eq
  rw [show q = m.program from heq, hlength] at hcount
  have := h.checks
  omega

theorem alteredByRefusal_iff : m.AlteredByRefusal config ↔ m.ChangedTooEarly config := by
  constructor
  · intro h
    rcases admitted_or_exists_error config m with hadmitted | ⟨e, hverify, herror⟩
    · exact .of_alteredByRefusal hadmitted h
    · exact absurd h (not_alteredByRefusal_of_verify_error hverify herror)
  · exact ChangedTooEarly.alteredByRefusal

end Method

/-! ## Batches -/

variable {config : AnalysisConfig} {methods : List Method} {outcomes : List MethodOutcome}

/-- The outcomes of a batch are those of its methods, each run by itself. -/
theorem runBatch_eq_ok_iff : runBatch config methods = .ok outcomes ↔
    List.Forall₂ (fun m outcome => Method.run config m = .ok outcome) methods outcomes :=
  mapM_eq_ok_iff

namespace Method

/-- A method is refused and handed back altered exactly if it was changed too early, alone or in a
batch. -/
theorem alteredByRefusal_iff_of_batch (config : AnalysisConfig) :
    (∀ m : Method, m.AlteredByRefusal config ↔ m.ChangedTooEarly config) ∧
    ∀ methods outcomes, runBatch config methods = .ok outcomes →
      List.Forall₂ (fun (m : Method) (outcome : MethodOutcome) =>
        (∃ e, outcome.result = .error e) →
          (outcome.method.program = m.program ↔ ¬ m.ChangedTooEarly config)) methods outcomes := by
  refine ⟨fun m => alteredByRefusal_iff, fun methods outcomes h => ?_⟩
  refine (runBatch_eq_ok_iff.mp h).imp fun m outcome hrun ⟨e, herror⟩ => ?_
  rw [← alteredByRefusal_iff]
  constructor
  · rintro hsame ⟨outcome', e', hrun', -, haltered⟩
    rw [hrun] at hrun'
    cases hrun'
    exact haltered hsame
  · intro hnot
    by_contra haltered
    exact hnot ⟨outcome, e, hrun, herror, haltered⟩

/-- The release of a lock on any variable, without a call. -/
def releasing (v : Variable) : Method where
  reference := ⟨"A", "h", [], "V"⟩
  program := ⟨#[⟨0, [], [.monitorExit v, .exit none]⟩], #[⟨none⟩]⟩
  isStatic := true

/-- Both methods are refused, and the one with a call to guard comes back with a check. -/
theorem unlocking_releasing_handed_back :
    ∃ first second, runBatch guardingOnly [unlocking 2, releasing 2] = .ok [first, second] ∧
      first.method.program ≠ (unlocking 2).program ∧
      second.method.program = (releasing 2).program := by
  obtain ⟨first, second, hbatch, hfirst, hsecond⟩ : ∃ first second,
      runBatch guardingOnly [unlocking 2, releasing 2] = .ok [first, second] ∧
        (∃ e, first.result = .error e) ∧ ∃ e, second.result = .error e :=
    ⟨_, _, rfl, ⟨_, rfl⟩, ⟨_, rfl⟩⟩
  have hall := (alteredByRefusal_iff_of_batch guardingOnly).2 _ _ hbatch
  obtain ⟨haltered, hrest⟩ := List.forall₂_cons.mp hall
  obtain ⟨hsame, -⟩ := List.forall₂_cons.mp hrest
  have hearly : (unlocking 2).ChangedTooEarly guardingOnly := by
    refine ⟨rfl, rfl, by decide, by decide, ?_⟩
    exact ⟨_, Array.mem_singleton.mpr rfl, .inl ⟨2, by decide, by decide⟩⟩
  have hlate : ¬ (releasing 2).ChangedTooEarly guardingOnly := fun h =>
    absurd h.checks (by decide)
  refine ⟨first, second, hbatch, fun heq => ?_, (hsame hsecond).mpr hlate⟩
  exact (haltered hfirst).mp heq hearly

theorem unlocking_two_not_handed_back :
    guardingOnly.validate = .ok () ∧
      ∃ outcome, (unlocking 2).run guardingOnly = .ok outcome ∧
        outcome.result = .error (.danglingVariable 2 2 (.instruction "monitor-exit" 0 2)) ∧
        outcome.method.program = ⟨#[⟨0, [], [
          .nullCheck 1 0,
          .invoke ⟨.virtual, ⟨"A", "g", [], "V"⟩, some 1, [], none⟩,
          .monitorExit 2,
          .exit none]⟩], .replicate 2 ⟨none⟩⟩ ∧
        outcome.method.program ≠ (unlocking 2).program :=
  ⟨rfl, _, rfl, rfl, rfl, by decide⟩

end Method

end MethodFlow
