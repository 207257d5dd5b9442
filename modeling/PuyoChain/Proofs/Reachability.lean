import Mathlib.Order.Bounds.Defs
import PuyoChain.Proofs.Field.Operations
import PuyoChain.Proofs.Placement
import PuyoChain.Proofs.Pose

/-!
# The shortcuts to reachable placements

* `isGreatest_bestRow`        the best row among poses is the highest;
* `exists_placement_iff`      a decision has a placement just if a pose with its column and rotation
                              is reached;
* `exists_placement_of_low`   where all columns on the way are low, the search finds the decision;
* `reachable_iff_placement`   so the shortcuts of `isReachable` and `DecisionSet.reachable` answer
                              what the search finds.
-/

namespace PuyoChain

/-! ## placements and reached poses -/

theorem bestRow_le_iff (poses : List Pose) (x r n : Nat) :
    bestRow poses x r ≤ n ↔ ∀ p ∈ poses, p.x = x → p.r = r → p.y.toNat ≤ n := by
  unfold bestRow
  rw [foldl_max_le_iff]
  simp only [List.mem_map, List.mem_filter, Bool.and_eq_true, beq_iff_eq]
  constructor
  · rintro ⟨_, h⟩ p hp hx hr
    exact h _ ⟨p, ⟨hp, hx, hr⟩, rfl⟩
  · intro h
    refine ⟨Nat.zero_le n, ?_⟩
    rintro _ ⟨p, ⟨hp, hx, hr⟩, rfl⟩
    exact h p hp hx hr

theorem bestRow_ne_zero_iff (poses : List Pose) (x r : Nat) :
    bestRow poses x r ≠ 0 ↔ ∃ p ∈ poses, p.x = x ∧ p.r = r ∧ 0 < p.y := by
  rw [ne_eq, ← Nat.le_zero, bestRow_le_iff]
  constructor
  · intro h
    by_contra hn
    refine h fun p hp hx hr => ?_
    by_contra hy
    exact hn ⟨p, hp, hx, hr, by omega⟩
  · rintro ⟨p, hp, hx, hr, hy⟩ h
    have h0 := h p hp hx hr
    omega

/-- where `bestRow` is a row at all, it is the highest one in which the poses stand -/
theorem isGreatest_bestRow {poses : List Pose} {x r : Nat} (h : bestRow poses x r ≠ 0) :
    IsGreatest {y : Int | (⟨x, y, r⟩ : Pose) ∈ poses} (bestRow poses x r) := by
  have hle := (bestRow_le_iff poses x r _).mp (Nat.le_refl _)
  constructor
  · by_contra hn
    -- else all rows are lower
    have hlower : bestRow poses x r ≤ bestRow poses x r - 1 := by
      refine (bestRow_le_iff poses x r _).mpr fun p hp hx hr => ?_
      have hp' := hle p hp hx hr
      by_contra hy
      have hrow : p.y = (bestRow poses x r : Nat) := by omega
      have e : p = ⟨x, (bestRow poses x r : Nat), r⟩ := by rw [← hrow, ← hx, ← hr]
      rw [e] at hp
      exact hn hp
    omega
  · intro y hy
    have := hle _ hy rfl rfl
    dsimp only at this
    omega

theorem mem_columnDecisions_iff (d : Decision) :
    d ∈ columnDecisions ↔ (1 ≤ d.x ∧ d.x ≤ 6) ∧ d.r ≤ 3 := by
  simp only [columnDecisions, List.mem_flatMap, List.mem_map, mem_fieldColumns_iff]
  constructor
  · rintro ⟨x, hx, r, hr, rfl⟩
    simp only [List.mem_cons, List.not_mem_nil, or_false] at hr
    exact ⟨hx, show r ≤ 3 by omega⟩
  · rintro ⟨hx, hr⟩
    refine ⟨d.x, hx, d.r, ?_, rfl⟩
    simp only [List.mem_cons, List.not_mem_nil, or_false]
    omega

theorem exists_placement_iff (f : Field) (d : Decision) :
    (∃ p ∈ placements f, p.decision = d) ↔ ∃ y, ⟨d.x, y, d.r⟩ ∈ Pose.reached f := by
  constructor
  · rintro ⟨p, hp, rfl⟩
    have hd := ((mem_placements_iff f p).mp hp).2
    obtain ⟨hne, _⟩ := (placementAmong_eq_some_iff f _ _ p).mp hd
    exact ⟨_, (isGreatest_bestRow hne).1⟩
  · rintro ⟨y, hy⟩
    obtain ⟨hfits, hr⟩ := Pose.stands_of_mem_reached hy
    obtain ⟨hx, hrow⟩ := Pose.inField_of_isFree ((Pose.fits_iff f _).mp hfits).1
    dsimp only at hr hx hrow
    have hne : bestRow (Pose.reached f) d.x d.r ≠ 0 :=
      (bestRow_ne_zero_iff _ _ _).mpr ⟨_, hy, rfl, rfl, by dsimp only; omega⟩
    have hd : d ∈ columnDecisions := (mem_columnDecisions_iff d).mpr (by omega)
    exact ⟨⟨d, _⟩, (mem_placements_iff f _).mpr
      ⟨hd, (placementAmong_eq_some_iff f _ d _).mpr ⟨hne, rfl⟩⟩, rfl⟩

/-- the column of the second cell is the same for a decision and for its poses -/
theorem cast_childX {d : Decision} (hx : 1 ≤ d.x) (hr : d.r ≤ 3) (y : Int) :
    ((d.childX : Nat) : Int) = (Pose.child ⟨d.x, y, d.r⟩).1 := by
  have hcases : d.r = 0 ∨ d.r = 1 ∨ d.r = 2 ∨ d.r = 3 := by omega
  unfold Decision.childX Pose.child
  rcases hcases with hr' | hr' | hr' | hr' <;> rw [hr']
  · rfl
  · rfl
  · rfl
  · show ((d.x - 1 : Nat) : Int) = (d.x : Int) - 1
    omega

theorem isValid_of_stands {f : Field} {d : Decision} {y : Int}
    (h : Pose.Stands f ⟨d.x, y, d.r⟩) : d.isValid = true := by
  obtain ⟨hfits, hr⟩ := h
  obtain ⟨haxis, hchild⟩ := (Pose.fits_iff f _).mp hfits
  have hx := (Pose.inField_of_isFree haxis).1
  have hc := (Pose.inField_of_isFree hchild).1
  dsimp only at hr hx
  rw [← cast_childX (by omega) hr y] at hc
  rw [Decision.isValid_iff]
  omega

theorem isValid_of_exists_placement {f : Field} {d : Decision}
    (h : ∃ p ∈ placements f, p.decision = d) : d.isValid = true := by
  obtain ⟨y, hy⟩ := (exists_placement_iff f d).mp h
  exact isValid_of_stands (Pose.stands_of_mem_reached hy)

/-! ## low columns -/

/-- between columns with an open top there is a way to every decision -/
theorem exists_leads_of_topOpen {f : Field} {d : Decision} (hv : d.isValid = true)
    (h : ∀ x, min spawnColumn (min d.axisX d.childX) ≤ x →
      x ≤ max spawnColumn (max d.axisX d.childX) → f.TopOpen x) :
    ∃ y, Leads (Pose.moves f) .spawn ⟨d.x, y, d.r⟩ := by
  obtain ⟨hx, hr, hc⟩ := (Decision.isValid_iff d).mp hv
  have hway : Leads (Pose.moves f) .spawn (.ofNats d.x 12 0) :=
    Pose.leads_upright fun z hz hz' => h z (by unfold spawnColumn Decision.axisX; omega)
      (by unfold spawnColumn Decision.axisX; omega)
  have haxis : f.TopOpen d.x := h d.x (by unfold Decision.axisX; omega)
    (by unfold Decision.axisX; omega)
  have hchild : f.TopOpen d.childX := h d.childX (by omega) (by omega)
  have hcases : d.r = 0 ∨ d.r = 1 ∨ d.r = 2 ∨ d.r = 3 := by omega
  rcases hcases with hr' | hr' | hr' | hr'
  · rw [hr']
    exact ⟨12, hway⟩
  · rw [Decision.childX, if_pos hr'] at hchild
    rw [hr']
    exact ⟨12, hway.tail (Pose.turn_right haxis.1 hchild.1)⟩
  · obtain ⟨y, hy⟩ := Pose.leads_below ((Pose.fits_above_iff f d.x 12).mpr haxis)
    rw [hr']
    exact ⟨y, hway.trans hy⟩
  · rw [Decision.childX, if_neg (by omega), if_pos hr'] at hchild
    obtain ⟨w, hw⟩ : ∃ w, d.x = w + 1 := ⟨d.x - 1, by omega⟩
    rw [hw, Nat.add_sub_cancel] at hchild
    rw [hw] at haxis hway
    rw [hr', hw]
    exact ⟨12, hway.tail (Pose.turn_left haxis.1 hchild.1)⟩

theorem exists_placement_of_low {f : Field} (hf : f.Covered) {d : Decision}
    (hv : d.isValid = true)
    (h : ∀ x, min spawnColumn (min d.axisX d.childX) ≤ x →
      x ≤ max spawnColumn (max d.axisX d.childX) → f.height x < 12) :
    ∃ p ∈ placements f, p.decision = d := by
  obtain ⟨hx, _, hc⟩ := (Decision.isValid_iff d).mp hv
  have hopen : ∀ x, min spawnColumn (min d.axisX d.childX) ≤ x →
      x ≤ max spawnColumn (max d.axisX d.childX) → f.TopOpen x := by
    intro x hlo hhi
    refine hf.topOpen ?_ (h x hlo hhi)
    unfold spawnColumn Decision.axisX at hlo hhi
    omega
  have hspawn : Pose.spawn.fits f = true := (Pose.fits_above_iff f 3 12).mpr
    (hopen 3 (by unfold spawnColumn; omega) (by unfold spawnColumn; omega))
  obtain ⟨y, hy⟩ := exists_leads_of_topOpen hv hopen
  rw [exists_placement_iff]
  exact ⟨y, (Pose.mem_reached_iff hspawn _).mpr hy⟩

/-! ## the shortcuts -/

theorem mem_catalog_iff (d : Decision) : d ∈ Decision.catalog ↔ d.isValid = true := by
  constructor
  · exact Decision.isValid_of_mem_catalog
  · intro hv
    obtain ⟨hx, hr, _⟩ := (Decision.isValid_iff d).mp hv
    have hall : ∀ e ∈ columnDecisions, e.isValid = true → e ∈ Decision.catalog := by decide
    exact hall d ((mem_columnDecisions_iff d).mpr ⟨hx, hr⟩) hv

theorem isReachable_iff {f : Field} (hf : f.Covered) (d : Decision) :
    isReachable f d = true ↔ ∃ p ∈ placements f, p.decision = d := by
  unfold isReachable
  rw [Bool.and_eq_true, Bool.or_eq_true, List.any_eq_true]
  simp only [beq_iff_eq]
  constructor
  · rintro ⟨hv, hlow | h⟩
    · obtain ⟨hx, _, hc⟩ := (Decision.isValid_iff d).mp hv
      refine exists_placement_of_low hf hv fun x hlo hhi => ?_
      refine of_decide_eq_true (List.all_eq_true.mp hlow x (List.mem_filter.mpr ⟨?_, ?_⟩))
      · rw [mem_fieldColumns_iff]
        unfold spawnColumn Decision.axisX at hlo hhi
        omega
      · rw [Bool.and_eq_true, decide_eq_true_iff, decide_eq_true_iff]
        exact ⟨hlo, hhi⟩
    · exact h
  · intro h
    exact ⟨isValid_of_exists_placement h, Or.inr h⟩

theorem contains_reachable_iff {f : Field} (hf : f.Covered) {d : Decision}
    (hv : d.isValid = true) :
    (DecisionSet.reachable f).contains d = true ↔ ∃ p ∈ placements f, p.decision = d := by
  unfold DecisionSet.reachable
  by_cases hlow : (fieldColumns.all fun x => decide (f.height x < 12)) = true
  · obtain ⟨hx, _, hc⟩ := (Decision.isValid_iff d).mp hv
    have hp : ∃ p ∈ placements f, p.decision = d := by
      refine exists_placement_of_low hf hv fun x hlo hhi => ?_
      unfold spawnColumn Decision.axisX at hlo hhi
      exact of_decide_eq_true
        (List.all_eq_true.mp hlow x ((mem_fieldColumns_iff x).mpr (by omega)))
    rw [if_pos hlow, DecisionSet.contains_ofList_iff _ hv]
    · exact iff_of_true ((mem_catalog_iff d).mpr hv) hp
    · intro e he
      obtain ⟨_, hx6⟩ := ((Decision.isValid_iff e).mp ((mem_catalog_iff e).mp he)).1
      omega
  · rw [if_neg hlow, DecisionSet.contains_ofList_iff _ hv, List.mem_map]
    intro e he
    obtain ⟨p, hp, rfl⟩ := List.mem_map.mp he
    exact lt_of_mem_columnDecisions (decision_mem_of_mem_placements hp)

/-- **The shortcuts answer what the search finds.**  On every field that operations build, a
decision can be reached, and is in the set of reachable decisions, just if the search has a placement
for it; a decision that is not valid is in none of the three.  Where all columns between the place
where a piece appears and both of its cells are low, the search finds the decision, whatever stands
elsewhere. -/
theorem reachable_iff_placement {f : Field} (hf : f.Built) (d : Decision) :
    (isReachable f d = true ↔ ∃ p ∈ placements f, p.decision = d) ∧
    (d.isValid = true →
      ((DecisionSet.reachable f).contains d = true ↔ ∃ p ∈ placements f, p.decision = d)) ∧
    (d.isValid = false → isReachable f d = false ∧ (DecisionSet.reachable f).contains d = false ∧
      ¬ ∃ p ∈ placements f, p.decision = d) ∧
    (d.isValid = true →
      (∀ x, min spawnColumn (min d.axisX d.childX) ≤ x →
        x ≤ max spawnColumn (max d.axisX d.childX) → f.height x < 12) →
      ∃ p ∈ placements f, p.decision = d) := by
  have hcov := hf.covered
  refine ⟨isReachable_iff hcov d, contains_reachable_iff hcov, fun hv => ?_,
    exists_placement_of_low hcov⟩
  refine ⟨?_, ?_, fun h => ?_⟩
  · rw [isReachable, hv, Bool.false_and]
  · rw [DecisionSet.contains, hv, Bool.false_and]
  · rw [isValid_of_exists_placement h] at hv
    cases hv

/-- column 3 between two columns that reach the row in which a piece appears, and a column 6 whose
height is believed to be 14 -/
def wellField : Field :=
  Field.empty.run (List.replicate 12 (.stack 2 .garbage) ++ List.replicate 12 (.stack 4 .garbage) ++
    List.replicate 14 (.stack 6 .empty))

/-- the child comes below the axis in the well, by a flip -/
theorem reachable_iff_placement_wellField :
    wellField.Built ∧ (wellField.height 2 = 12 ∧ wellField.height 4 = 12) ∧
      (⟨3, 2⟩ : Decision).isValid = true ∧ (⟨3, 4⟩ : Decision).isValid = false ∧
      isReachable wellField ⟨3, 2⟩ = true ∧
      (DecisionSet.reachable wellField).contains ⟨3, 2⟩ = true ∧
      (∃ p ∈ placements wellField, p.decision = ⟨3, 2⟩) ∧
      isReachable wellField ⟨3, 4⟩ = false := by
  have hf : wellField.Built := ⟨Field.empty, Or.inl rfl, _, rfl⟩
  have hv : (⟨3, 2⟩ : Decision).isValid = true := rfl
  have hv' : (⟨3, 4⟩ : Decision).isValid = false := rfl
  have hlow : ∀ x, min spawnColumn (min (Decision.axisX ⟨3, 2⟩) (Decision.childX ⟨3, 2⟩)) ≤ x →
      x ≤ max spawnColumn (max (Decision.axisX ⟨3, 2⟩) (Decision.childX ⟨3, 2⟩)) →
      wellField.height x < 12 := by
    intro x hlo hhi
    obtain rfl : x = 3 := Nat.le_antisymm hhi hlo
    decide +kernel
  obtain ⟨hr, hc, _, hp⟩ := reachable_iff_placement hf ⟨3, 2⟩
  obtain ⟨_, _, hn, _⟩ := reachable_iff_placement hf ⟨3, 4⟩
  have hplaced := hp hv hlow
  exact ⟨hf, by decide +kernel, hv, hv', hr.mpr hplaced, (hc hv).mpr hplaced, hplaced, (hn hv').1⟩

end PuyoChain
