import PuyoChain.Field.Tracking
import PuyoChain.Proofs.Field.Columns

/-!
# What every chain does to the field

* `exact_simulate`, `settled_simulate`   a chain leaves exact heights and no gap;
* `simulateTracked_eq`                   tracking a chain changes neither field nor outcome;
* `chains_simulate_pos_iff`              a chain has a step just if a group vanishes from the fallen
                                         field, and without one (`simulate_of_vanish?_eq_none`) the
                                         field only falls.
-/

namespace PuyoChain

namespace Field

/-- all that a vanish is -/
theorem eq_of_vanish? {f : Field} {chain : Nat} {v : Vanish} (h : f.vanish? chain = some v) :
    f.vanishingGroups ≠ [] ∧
      v.doomed = f.vanishingGroups.flatMap Group.cells ++
        f.garbageBeside (f.vanishingGroups.flatMap Group.cells) ∧
      v.field = f.clear v.doomed ∧ v.score = groupsScore chain f.vanishingGroups := by
  unfold vanish? at h
  by_cases e : f.vanishingGroups.isEmpty = true
  · rw [if_pos e] at h
    cases h
  · rw [if_neg e] at h
    rw [← Option.some.inj h]
    exact ⟨fun e' => e (List.isEmpty_iff.mpr e'), rfl, rfl, rfl⟩

theorem field_of_vanish? {f : Field} {chain : Nat} {v : Vanish} (h : f.vanish? chain = some v) :
    v.field = f.clear v.doomed :=
  (eq_of_vanish? h).2.2.1

theorem doomed_of_vanish? {f : Field} {chain : Nat} {v : Vanish} (h : f.vanish? chain = some v) :
    v.doomed = f.vanishingGroups.flatMap Group.cells ++
      f.garbageBeside (f.vanishingGroups.flatMap Group.cells) :=
  (eq_of_vanish? h).2.1

theorem exact_vanish {f : Field} (hf : f.Exact) (chain : Nat) : (f.vanish chain).1.Exact := by
  unfold vanish
  cases h : f.vanish? chain with
  | none => exact hf
  | some v =>
    show v.field.Exact
    rw [field_of_vanish? h]
    exact f.exact_clear _

theorem covered_vanish {f : Field} (hf : f.Covered) (chain : Nat) : (f.vanish chain).1.Covered := by
  unfold vanish
  cases h : f.vanish? chain with
  | none => exact hf
  | some v =>
    show v.field.Covered
    rw [field_of_vanish? h]
    exact (f.exact_clear _).covered

/-! ## the field after a chain -/

/-- what holds at the start of a chain and is kept by each of its steps holds at its end -/
theorem cascade_induction {P : Field → Prop}
    (hstep : ∀ (g : Field) (doomed : List Cell), P g → P (g.clear doomed).drop.1) (fuel : Nat)
    {f : Field} (hf : P f) (r : ChainResult) : P (cascade fuel f r).1 := by
  induction fuel generalizing f r with
  | zero => exact hf
  | succ fuel ih =>
    cases h : f.vanish? (r.chains + 1) with
    | none =>
      rw [cascade_of_vanish?_eq_none h]
      exact hf
    | some v =>
      have hv := hstep f v.doomed hf
      rw [← field_of_vanish? h] at hv
      rw [cascade_of_vanish?_eq_some h]
      exact ih hv _

theorem simulate_eq (f : Field) : f.simulate = cascade stepBound f.drop.1 .zero := rfl

theorem exact_simulate (f : Field) : f.simulate.1.Exact := by
  rw [simulate_eq]
  exact cascade_induction (fun g doomed _ => (g.clear doomed).exact_drop) stepBound f.exact_drop .zero

theorem settled_simulate (f : Field) : f.simulate.1.Settled := by
  rw [simulate_eq]
  exact cascade_induction (fun g doomed _ => (g.clear doomed).settled_drop) stepBound
    f.settled_drop .zero

/-! ## tracking -/

theorem cascadeTracked_eq (fuel : Nat) (f : Field) (o : StartRows) (r : ChainResult)
    (t : EraseTrack) :
    ((cascadeTracked fuel f o r t).1, (cascadeTracked fuel f o r t).2.1) = cascade fuel f r := by
  induction fuel generalizing f o r t with
  | zero => rfl
  | succ fuel ih =>
    unfold cascadeTracked cascade
    cases f.vanish? (r.chains + 1) with
    | none => rfl
    | some v => exact ih _ _ _ _

theorem simulateTracked_eq (f : Field) (t : EraseTrack) :
    ((f.simulateTracked t).1, (f.simulateTracked t).2.1) = f.simulate := by
  rw [simulate_eq]
  unfold simulateTracked
  exact cascadeTracked_eq stepBound f.drop.1 _ .zero t

theorem simulateTracked_field (f : Field) (t : EraseTrack) :
    (f.simulateTracked t).1 = f.simulate.1 := by
  rw [← simulateTracked_eq f t]

theorem simulateTracked_result (f : Field) (t : EraseTrack) :
    (f.simulateTracked t).2.1 = f.simulate.2 := by
  rw [← simulateTracked_eq f t]

/-! ## whether there is a chain at all -/

theorem chains_le_cascade (fuel : Nat) (f : Field) (r : ChainResult) :
    r.chains ≤ (cascade fuel f r).2.chains := by
  induction fuel generalizing f r with
  | zero => exact Nat.le_refl _
  | succ fuel ih =>
    cases h : f.vanish? (r.chains + 1) with
    | none => exact Nat.le_of_eq (by rw [cascade_of_vanish?_eq_none h])
    | some v =>
      rw [cascade_of_vanish?_eq_some h]
      have := ih v.field.drop.1 (r.afterStep v.score v.field.drop.2)
      rw [ChainResult.chains_afterStep] at this
      omega

theorem simulate_of_vanish?_eq_none {f : Field} (h : f.drop.1.vanish? 1 = none) :
    f.simulate = (f.drop.1, .zero) := by
  rw [simulate_eq]
  exact cascade_of_vanish?_eq_none (r := .zero) h stepBound

theorem simulate_of_vanish?_eq_some {f : Field} {v : Vanish} (h : f.drop.1.vanish? 1 = some v) :
    f.simulate = cascade 83 v.field.drop.1
      (ChainResult.zero.afterStep v.score v.field.drop.2) := by
  rw [simulate_eq]
  exact cascade_of_vanish?_eq_some (r := .zero) h 83

theorem chains_simulate_pos_iff (f : Field) :
    0 < f.simulate.2.chains ↔ f.drop.1.vanish? 1 ≠ none := by
  cases h : f.drop.1.vanish? 1 with
  | none =>
    rw [simulate_of_vanish?_eq_none h]
    exact ⟨fun hp => absurd hp (Nat.lt_irrefl 0), fun hn => absurd rfl hn⟩
  | some v =>
    have hs := simulate_of_vanish?_eq_some h
    have hc := chains_le_cascade 83 v.field.drop.1
      (ChainResult.zero.afterStep v.score v.field.drop.2)
    rw [ChainResult.chains_afterStep, ← hs] at hc
    exact ⟨fun _ => nofun, fun _ => by omega⟩

end Field

end PuyoChain
