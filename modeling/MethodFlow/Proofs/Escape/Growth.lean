import MethodFlow.Proofs.Escape.FactOrder
import Mathlib.Data.List.Permutation
/-!
# Programs that grow

Further statements merge classes, change the graph between them and close cycles in it.  None of
this takes anything back:

* `ObjectFlow.Within.exposed`: what a flow exposes is exposed by any flow that contains it;
* `analyze_mono`: what escapes, shares a class or is given a new object goes on doing so when
  statements, variables and parameters are added.
-/

namespace MethodFlow

open Relation

/-! ## Flows -/

namespace ObjectFlow

/-- Whatever the first flow shares and releases, the second does. -/
structure Within (F G : ObjectFlow) : Prop where
  copies : ∀ {u v}, F.Copies u v → G.Copies u v
  holds : ∀ {u v}, F.Holds u v → G.Holds u v
  released : ∀ {v}, F.Released v → G.Released v

namespace Within

variable {F G : ObjectFlow} {u v : Variable} {slot slot' : Variable → Prop} (h : F.Within G)

include h

theorem link (huv : F.Link u v) : G.Link u v := by
  rcases huv with hcopy | hcopy | hfield
  · exact .inl (h.copies hcopy)
  · exact .inr (.inl (h.copies hcopy))
  · exact .inr (.inr (h.holds hfield))

theorem path (hpath : ReflTransGen F.Link u v) : ReflTransGen G.Link u v :=
  ReflTransGen.mono (fun _ _ => h.link) u v hpath

theorem onCycle (hv : F.OnCycle v) : G.OnCycle v := by
  obtain ⟨a, b, hva, hab, hbv⟩ := hv
  exact ⟨a, b, h.path hva, h.holds hab, h.path hbv⟩

theorem exposed (hslots : ∀ v, slot v → slot' v) (hv : F.Exposed slot v) : G.Exposed slot' v := by
  induction hv with
  | slot hslot => exact .slot (hslots _ hslot)
  | released hreleased => exact .released (h.released hreleased)
  | cyclic hcycle => exact .cyclic (h.onCycle hcycle)
  | link _ hlink ih => exact .link ih (h.link hlink)

end Within

end ObjectFlow

theorem Fact.flow_within {facts facts' : List Fact} (h : facts ⊆ facts') :
    (flow facts).Within (flow facts') where
  copies huv := h huv
  holds huv := h huv
  released hv := h hv

/-! ## Programs -/

namespace Program

variable {p q : Program} {v : Variable}

/-- The second program has the variables of the first and does whatever the first does: the same
values flow into the same variables at phis, and the same instructions occur, whatever blocks they
name. -/
structure Within (p q : Program) : Prop where
  variableCount_le : p.variableCount ≤ q.variableCount
  flowsInto : ∀ value dest, p.FlowsInto value dest → q.FlowsInto value dest
  performs : ∀ i, p.Performs i → q.Performs i

theorem Within.facts_subset (h : p.Within q) : p.facts ⊆ q.facts := by
  intro fact hfact
  rw [Program.mem_facts_iff] at hfact ⊢
  rcases hfact with ⟨value, dest, hflows, heq⟩ | ⟨i, hperforms, hmem⟩
  · exact .inl ⟨value, dest, h.flowsInto value dest hflows, heq⟩
  · exact .inr ⟨i, h.performs i hperforms, hmem⟩

theorem Within.flow (h : p.Within q) : p.flow.Within q.flow := by
  rw [← Fact.flow_facts p, ← Fact.flow_facts q]
  exact Fact.flow_within h.facts_subset

theorem Within.isSlot (h : p.Within q) {parameterCount parameterCount' : Nat}
    {markReceiver markReceiver' : Bool} (hcount : parameterCount ≤ parameterCount')
    (hreceiver : markReceiver = true → markReceiver' = true)
    (hv : p.IsSlot parameterCount markReceiver v) : q.IsSlot parameterCount' markReceiver' v := by
  obtain ⟨hlt, hfirst, hlast⟩ := hv
  refine ⟨hlt.trans_le h.variableCount_le, ?_, hlast.trans hcount⟩
  cases markReceiver with
  | true =>
    rw [hreceiver rfl]
    exact hfirst
  | false =>
    have hone : 1 ≤ v.index := hfirst
    split <;> omega

/-- Adding variables, statements and parameters keeps what escapes, what shares a class and what is
given a new object; so nothing that escaped becomes a candidate. -/
theorem analyze_mono (p q : Program) (parameterCount parameterCount' : Nat)
    (config config' : EscapeConfig) (hp : p.Passes config) (hq : q.Passes config')
    (h : p.Within q) (hcount : parameterCount ≤ parameterCount')
    (hreceiver : config.markReceiver = true → config'.markReceiver = true) :
    ∃ before after, EscapeFacts.analyze p parameterCount config = .ok before ∧
      EscapeFacts.analyze q parameterCount' config' = .ok after ∧
      ∀ v : Variable, v.index < p.variableCount →
        (before.escapes v = .ok true → after.escapes v = .ok true ∧ v.index ∉ after.candidates) ∧
        (before.isConstructed v = .ok true → after.isConstructed v = .ok true) ∧
        ∀ u : Variable, u.index < p.variableCount → before.class? u = before.class? v →
          after.class? u = after.class? v := by
  have hlt : ∀ {v : Variable}, v.index < p.variableCount → v.index < q.variableCount :=
    fun hv => hv.trans_le h.variableCount_le
  refine ⟨_, _, analyze_eq_of_passes hp parameterCount, analyze_eq_of_passes hq parameterCount',
    fun v hv => ⟨fun hescapes => ?_, fun hconstructed => ?_, fun u hu hclass => ?_⟩⟩
  · obtain ⟨b, hb, hexposed⟩ := exists_escapes_of_passes hp parameterCount hv
    rw [hescapes] at hb
    cases hb
    obtain ⟨b', hb', hexposed'⟩ := exists_escapes_of_passes hq parameterCount' (hlt hv)
    have hgrown := h.flow.exposed (fun _ => h.isSlot hcount hreceiver) (hexposed.mp rfl)
    rw [hexposed'.mpr hgrown] at hb'
    exact ⟨hb', EscapeFacts.not_mem_candidates hb'⟩
  · rw [EscapeFacts.isConstructed_ofFacts hv, Except.ok.injEq, decide_eq_true_iff,
      Fact.mem_allocations] at hconstructed
    rw [EscapeFacts.isConstructed_ofFacts (hlt hv), Except.ok.injEq, decide_eq_true_iff,
      Fact.mem_allocations]
    exact h.facts_subset hconstructed
  · rw [EscapeFacts.class?_ofFacts_eq_iff hu hv] at hclass
    rw [EscapeFacts.class?_ofFacts_eq_iff (hlt hu) (hlt hv)]
    exact EqvGen.mono (fun _ _ => (Fact.flow_within h.facts_subset).copies) u v hclass

/-- A new object that is thrown through a copy. -/
def throwing : Program :=
  ⟨#[⟨0, [], [.construct 1 "Box", .assign 2 1, .raise 2]⟩], .replicate 3 ⟨none⟩⟩

/-- The same in two blocks, and the object holds itself through a further copy. -/
def throwingLater : Program :=
  ⟨#[⟨0, [], [.construct 1 "Box", .jump 1]⟩,
    ⟨1, [⟨3, [⟨0, 1⟩]⟩], [.assign 2 1, .putField (some 3) 2 ⟨"Box", "item"⟩ "LBox;", .raise 2]⟩],
    .replicate 4 ⟨none⟩⟩

theorem throwing_within : throwing.Within throwingLater where
  variableCount_le := by decide
  flowsInto value dest := by
    simp [FlowsInto, throwing]
  performs i := by
    simp only [Performs, throwing, throwingLater, List.mem_toArray, List.mem_cons,
      List.not_mem_nil, or_false, exists_eq_or_imp, exists_eq_left, Instruction.withoutLabels,
      Instruction.mapLabels]
    grind

theorem throwing_grows :
    throwing.Passes ⟨true, false, false⟩ ∧ throwingLater.Passes ⟨true, false, true⟩ ∧
      throwing.Within throwingLater ∧
      ∃ before after, EscapeFacts.analyze throwing 0 ⟨true, false, false⟩ = .ok before ∧
        EscapeFacts.analyze throwingLater 1 ⟨true, false, true⟩ = .ok after ∧
        before.escapes 1 = .ok true ∧ after.escapes 1 = .ok true ∧ 1 ∉ after.candidates ∧
        before.isConstructed 1 = .ok true ∧ after.isConstructed 1 = .ok true ∧
        before.class? 2 = before.class? 1 ∧ after.class? 2 = after.class? 1 := by
  have hp : throwing.Passes ⟨true, false, false⟩ := rfl
  have hq : throwingLater.Passes ⟨true, false, true⟩ := rfl
  obtain ⟨before, after, hbefore, hafter, hgrows⟩ := analyze_mono throwing throwingLater 0 1
    ⟨true, false, false⟩ ⟨true, false, true⟩ hp hq throwing_within (by decide) (by decide)
  have hanswers : (EscapeFacts.analyze throwing 0 ⟨true, false, false⟩).map
      (fun f => (f.escapes 1, f.isConstructed 1, f.class? 2, f.class? 1)) =
        .ok (.ok true, .ok true, some 1, some 1) := by cbv
  rw [hbefore] at hanswers
  simp only [Except.map, Except.ok.injEq, Prod.mk.injEq] at hanswers
  obtain ⟨hescapes, hconstructed, hfirst, hsecond⟩ := hanswers
  have hclass : before.class? 2 = before.class? 1 := hfirst.trans hsecond.symm
  obtain ⟨hescapesLater, hconstructedLater, hclassLater⟩ := hgrows 1 (by decide)
  exact ⟨hp, hq, throwing_within, before, after, hbefore, hafter, hescapes,
    (hescapesLater hescapes).1, (hescapesLater hescapes).2, hconstructed,
    hconstructedLater hconstructed, hclass, hclassLater 2 (by decide) hclass⟩

end Program

end MethodFlow
