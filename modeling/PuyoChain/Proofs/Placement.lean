import Mathlib.Tactic.ByContra
import PuyoChain.Placement

/-!
# Sets of decisions and reachability

* `contains_ofList_iff`          the set of a list of decisions of columns has its members;
* `isReachable_of_contains`      what the set of reachable decisions has can be reached.
-/

namespace PuyoChain

namespace DecisionSet

theorem getLsbD_empty (i : Nat) : empty.bits.getLsbD i = false := BitVec.getLsbD_zero

theorem getLsbD_foldl_insert (ds : List Decision) (s : DecisionSet) (i : Nat) (h : i < 32) :
    (ds.foldl insert s).bits.getLsbD i = (s.bits.getLsbD i || ds.any fun d => i == bitOf d) := by
  induction ds generalizing s with
  | nil => rw [List.foldl_nil, List.any_nil, Bool.or_false]
  | cons d ds ih =>
    rw [List.foldl_cons, ih, getLsbD_insert s d i h, List.any_cons, Bool.or_assoc]
    rfl

theorem getLsbD_ofList (ds : List Decision) (i : Nat) (h : i < 32) :
    (ofList ds).bits.getLsbD i = ds.any fun d => i == bitOf d := by
  unfold ofList
  rw [getLsbD_foldl_insert ds empty i h, getLsbD_empty, Bool.false_or]

/-- decisions of columns and rotations have bits of their own -/
theorem bitOf_injective {d e : Decision} (hd : d.x < 8) (he : e.x < 8) (h : bitOf d = bitOf e) :
    d = e := by
  obtain ⟨x, r⟩ := d
  obtain ⟨x', r'⟩ := e
  simp only [bitOf] at h hd he
  rw [Decision.mk.injEq]
  omega

theorem bitOf_lt_of_isValid {d : Decision} (h : d.isValid = true) : d.x < 8 ∧ bitOf d < 32 := by
  obtain ⟨hx, hr, _⟩ := (Decision.isValid_iff d).mp h
  unfold bitOf
  omega

theorem contains_ofList_iff {ds : List Decision} (hds : ∀ e ∈ ds, e.x < 8) {d : Decision}
    (hd : d.isValid = true) : (ofList ds).contains d = true ↔ d ∈ ds := by
  obtain ⟨hx, hb⟩ := bitOf_lt_of_isValid hd
  unfold contains
  rw [hd, Bool.true_and, getLsbD_ofList ds _ hb, List.any_eq_true]
  constructor
  · rintro ⟨e, he, h⟩
    rwa [bitOf_injective hx (hds e he) (beq_iff_eq.mp h)]
  · intro h
    exact ⟨d, h, beq_iff_eq.mpr rfl⟩

theorem isValid_of_contains {s : DecisionSet} {d : Decision} (h : s.contains d = true) :
    d.isValid = true := by
  unfold contains at h
  exact (Bool.and_eq_true_iff.mp h).1

end DecisionSet

theorem lt_of_mem_columnDecisions {d : Decision} (h : d ∈ columnDecisions) : d.x < 8 :=
  (by decide : ∀ d ∈ columnDecisions, d.x < 8) d h

theorem placementAmong_eq_some_iff (f : Field) (poses : List Pose) (d : Decision)
    (p : Placement) : placementAmong f poses d = some p ↔ bestRow poses d.x d.r ≠ 0 ∧
      p = ⟨d, (Pose.landing f ⟨d.x, bestRow poses d.x d.r, d.r⟩).y.toNat⟩ := by
  unfold placementAmong
  rw [Option.ite_none_left_eq_some, Option.some.injEq, @eq_comm _ p]

theorem mem_placements_iff (f : Field) (p : Placement) :
    p ∈ placements f ↔ p.decision ∈ columnDecisions ∧
      placementAmong f (Pose.reached f) p.decision = some p := by
  unfold placements
  rw [List.mem_filterMap]
  constructor
  · rintro ⟨d, hd, hp⟩
    obtain rfl : d = p.decision := by rw [((placementAmong_eq_some_iff f _ d p).mp hp).2]
    exact ⟨hd, hp⟩
  · rintro ⟨hd, hp⟩
    exact ⟨p.decision, hd, hp⟩

theorem decision_mem_of_mem_placements {f : Field} {p : Placement} (h : p ∈ placements f) :
    p.decision ∈ columnDecisions :=
  ((mem_placements_iff f p).mp h).1

/-- no placement is found where a piece cannot appear -/
theorem spawn_fits_of_mem_placements {f : Field} {p : Placement} (h : p ∈ placements f) :
    Pose.spawn.fits f = true := by
  have hp := ((mem_placements_iff f p).mp h).2
  by_contra hn
  refine ((placementAmong_eq_some_iff f _ _ p).mp hp).1 ?_
  unfold Pose.reached
  rw [if_neg hn]
  rfl

/-- what the set of reachable decisions has can be reached -/
theorem isReachable_of_contains {f : Field} {d : Decision}
    (h : (DecisionSet.reachable f).contains d = true) : isReachable f d = true := by
  have hv := DecisionSet.isValid_of_contains h
  unfold isReachable
  rw [hv, Bool.true_and, Bool.or_eq_true]
  unfold DecisionSet.reachable at h
  by_cases hlow : (fieldColumns.all fun x => decide (f.height x < 12)) = true
  · refine Or.inl (List.all_eq_true.mpr fun x hx => ?_)
    exact List.all_eq_true.mp hlow x (List.mem_filter.mp hx).1
  · rw [if_neg hlow, DecisionSet.contains_ofList_iff _ hv] at h
    · obtain ⟨p, hp, rfl⟩ := List.mem_map.mp h
      exact Or.inr (List.any_eq_true.mpr ⟨p, hp, beq_iff_eq.mpr rfl⟩)
    · intro e he
      obtain ⟨p, hp, rfl⟩ := List.mem_map.mp he
      exact lt_of_mem_columnDecisions (decision_mem_of_mem_placements hp)

end PuyoChain
