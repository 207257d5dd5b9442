import Mathlib.Algebra.BigOperators.Group.Finset.Basic
import Mathlib.Algebra.Ring.Nat
import PuyoChain.Proofs.Field.Components
import PuyoChain.Proofs.Field.Operations
import PuyoChain.Proofs.Field.Steps

/-!
# What one vanish does

* `Field.Matched`      the cell has a normal color, and its component has four cells or more;
* `Field.Swept`        the cell is visible garbage beside a matched one;
* `Field.matchedCells`, `Field.matchedComponents`, `Field.matchedColors`   the matched cells, the
                       components that they make up, and their colors;
* `vanish_erases_matched`   a vanish empties the matched and the swept cells, and scores the matched
                       ones by their number, colors and components.

These notions know of no scan.  A matched cell is a ripe one (`matched_iff_ripe`), so on a covered
field the groups that vanish are the matched components, each once
(`toFinset_map_vanishingGroups`, `nodup_map_vanishingGroups`).
-/

namespace PuyoChain

namespace Field

variable {f : Field} {chain : Nat} {v : Vanish}

/-- the cell has a normal color, and its component has four cells or more -/
def Matched (f : Field) (p : Cell) : Prop :=
  p.isVisible = true ∧ (f.colorAt p).isNormal = true ∧ 4 ≤ (f.component p).card

/-- the cell is visible garbage beside a matched cell -/
def Swept (f : Field) (p : Cell) : Prop :=
  p.isVisible = true ∧ f.colorAt p = .garbage ∧ ∃ q, f.Matched q ∧ q.Beside p

open Classical in
noncomputable def matchedCells (f : Field) : Finset Cell := visibleCells.toFinset.filter f.Matched

/-- the components of the matched cells -/
noncomputable def matchedComponents (f : Field) : Finset (Finset Cell) :=
  f.matchedCells.image f.component

/-- the colors of the matched cells -/
noncomputable def matchedColors (f : Field) : Finset Color := f.matchedCells.image f.colorAt

theorem mem_matchedCells_iff (f : Field) (p : Cell) : p ∈ f.matchedCells ↔ f.Matched p := by
  classical
  rw [matchedCells, Finset.mem_filter, List.mem_toFinset, mem_visibleCells_iff]
  exact ⟨fun h => h.2, fun h => ⟨h.1, h⟩⟩

/-! ## what is emptied -/

theorem matched_iff_ripe (f : Field) (p : Cell) : f.Matched p ↔ f.Ripe p := by
  constructor
  · rintro ⟨hv, hn, h4⟩
    have hj : f.canJoin p = true := (f.canJoin_iff p).mpr
      ⟨hv, Color.ne_of_isNormal hn rfl, Color.ne_of_isNormal hn rfl⟩
    rw [card_component hj] at h4
    exact ⟨hn, h4⟩
  · intro h
    have hj := h.canJoin
    refine ⟨((f.canJoin_iff p).mp hj).1, h.1, ?_⟩
    rw [card_component hj]
    exact h.2

theorem mem_matchedCells_iff_ripe (f : Field) (p : Cell) : p ∈ f.matchedCells ↔ f.Ripe p := by
  rw [mem_matchedCells_iff, matched_iff_ripe]

theorem swept_iff (f : Field) (p : Cell) :
    f.Swept p ↔ ∃ q, f.Ripe q ∧ p ∈ f.joined .garbage q := by
  constructor
  · rintro ⟨hv, hc, q, hq, hb⟩
    exact ⟨q, (matched_iff_ripe f q).mp hq,
      (f.mem_joined_iff _ q p).mpr ⟨(Cell.mem_neighbors_iff hq.1 p).mpr hb, hv, hc⟩⟩
  · rintro ⟨q, hq, hp⟩
    obtain ⟨hn, hv, hc⟩ := (f.mem_joined_iff _ q p).mp hp
    have hm := (matched_iff_ripe f q).mpr hq
    exact ⟨hv, hc, q, hm, (Cell.mem_neighbors_iff hm.1 p).mp hn⟩

theorem mem_doomed_iff_matched (hf : f.Covered) (hv : f.vanish? chain = some v) (p : Cell) :
    p ∈ v.doomed ↔ f.Matched p ∨ f.Swept p := by
  rw [mem_doomed_iff hf hv, matched_iff_ripe, swept_iff]

theorem fires_iff_matched (hf : f.Covered) : f.fires = true ↔ ∃ p, f.Matched p := by
  rw [fires_iff hf]
  exact exists_congr fun p => (matched_iff_ripe f p).symm

theorem colorAt_clear (f : Field) (doomed : List Cell) (p : Cell) :
    (f.clear doomed).colorAt p =
      if p.inField = true ∧ p ∈ doomed then .empty else f.colorAt p := by
  by_cases hin : p.inField = true
  · obtain ⟨hx, hy⟩ := (Cell.inField_iff p).mp hin
    rw [colorAt, color_clear f doomed p.x p.y hx hy]
    by_cases h : p ∈ doomed
    · rw [if_pos h, if_pos ⟨hin, h⟩]
    · rw [if_neg h, if_neg fun e => h e.2]
      rfl
  · have hwall : ∀ g : Field, g.colorAt p = .wall := fun g => by
      by_contra hne
      exact hin (inField_of_color_ne_wall hne)
    rw [if_neg fun e => hin e.1, hwall, hwall]

theorem vanish_of_vanish?_eq_none (h : f.vanish? chain = none) : f.vanish chain = (f, 0) := by
  rw [vanish, h]

theorem vanish_of_vanish?_eq_some (h : f.vanish? chain = some v) :
    f.vanish chain = (v.field, v.score) := by
  rw [vanish, h]

theorem vanishingGroups_eq_nil (h : f.vanish? chain = none) : f.vanishingGroups = [] := by
  by_contra hne
  rw [vanish?_eq_none_iff, ← Bool.not_eq_true] at h
  exact h ((vanishingGroups_ne_nil_iff f).mp hne)

theorem not_ripe_of_vanish?_eq_none (hf : f.Covered) (h : f.vanish? chain = none) (p : Cell) :
    ¬ f.Ripe p := by
  rw [← mem_vanishing_iff hf, vanishingGroups_eq_nil h]
  exact List.not_mem_nil

theorem colorAt_vanish (hf : f.Covered) (chain : Nat) (p : Cell) :
    (f.Matched p ∨ f.Swept p → (f.vanish chain).1.colorAt p = .empty) ∧
      (¬ (f.Matched p ∨ f.Swept p) → (f.vanish chain).1.colorAt p = f.colorAt p) := by
  rw [matched_iff_ripe, swept_iff]
  cases hv : f.vanish? chain with
  | none =>
    have hnone := not_ripe_of_vanish?_eq_none hf hv
    rw [vanish_of_vanish?_eq_none hv]
    refine ⟨fun h => ?_, fun _ => rfl⟩
    rcases h with h | ⟨q, h, _⟩
    · exact absurd h (hnone p)
    · exact absurd h (hnone q)
  | some v =>
    rw [vanish_of_vanish?_eq_some hv, field_of_vanish? hv, colorAt_clear, ← mem_doomed_iff hf hv]
    refine ⟨fun h => if_pos ⟨?_, h⟩, fun h => if_neg fun e => h e.2⟩
    exact Cell.inField_of_isVisible (filled_of_mem_doomed hv h).1

/-! ## what is scored -/

section
variable (hf : f.Covered)

include hf in
/-- every ripe cell is in a group that vanishes, and the cells of this group are its component -/
theorem exists_vanishingGroup {p : Cell} (hp : f.Ripe p) :
    ∃ g ∈ f.vanishingGroups, g.color = f.colorAt p ∧ g.cells.toFinset = f.component p := by
  obtain ⟨g, hg, hpg⟩ :=
    exists_mem_vanishingGroups (hf.mem_scannedCells hp.canJoin) hp.1 hp.2
  obtain ⟨q, hq, rfl⟩ := eq_group_of_mem_vanishingGroups hg
  refine ⟨_, hg, (visible_and_color_of_mem hpg).2.symm, ?_⟩
  rw [component_eq_of_mem_group hpg, ← toFinset_group hq.canJoin]

theorem pairwise_vanishingGroups (f : Field) :
    f.vanishingGroups.Pairwise fun g k => g.cells.Disjoint k.cells := by
  have hnone : ∀ q ∈ ([] : List Cell), f.group q ⊆ [] := fun _ hq => absurd hq List.not_mem_nil
  exact (pairwise_groupsFrom f.scannedCells hnone).2.sublist List.filter_sublist

theorem nodup_flatMap_vanishingGroups (f : Field) :
    (f.vanishingGroups.flatMap Group.cells).Nodup := by
  refine List.nodup_flatMap.mpr ⟨fun g hg => ?_, f.pairwise_vanishingGroups⟩
  obtain ⟨p, _, rfl⟩ := eq_group_of_mem_vanishingGroups hg
  exact f.nodup_group p

include hf in
theorem length_flatMap_vanishingGroups :
    (f.vanishingGroups.flatMap Group.cells).length = f.matchedCells.card := by
  rw [← List.toFinset_card_of_nodup f.nodup_flatMap_vanishingGroups]
  congr 1
  ext p
  rw [List.mem_toFinset, mem_vanishing_iff hf, mem_matchedCells_iff_ripe]

include hf in
theorem colorsOf_vanishingGroups : colorsOf f.vanishingGroups = f.matchedColors.card := by
  have hnd : Color.normals.Nodup := by decide
  unfold colorsOf
  rw [List.countP_eq_length_filter, ← List.toFinset_card_of_nodup (hnd.filter _)]
  congr 1
  ext a
  rw [List.mem_toFinset, List.mem_filter, Color.mem_normals_iff, List.any_eq_true, matchedColors,
    Finset.mem_image]
  constructor
  · rintro ⟨_, g, hg, ha⟩
    obtain ⟨p, hp, rfl⟩ := eq_group_of_mem_vanishingGroups hg
    exact ⟨p, (mem_matchedCells_iff_ripe f p).mpr hp, beq_iff_eq.mp ha⟩
  · rintro ⟨p, hp, rfl⟩
    have hripe := (mem_matchedCells_iff_ripe f p).mp hp
    obtain ⟨g, hg, hc, _⟩ := exists_vanishingGroup hf hripe
    exact ⟨hripe.1, g, hg, beq_iff_eq.mpr hc⟩

theorem nodup_map_vanishingGroups (f : Field) :
    (f.vanishingGroups.map fun g => g.cells.toFinset).Nodup := by
  refine List.pairwise_map.mpr (f.pairwise_vanishingGroups.imp_of_mem fun {g k} hg _ hd e => ?_)
  obtain ⟨p, hp, rfl⟩ := eq_group_of_mem_vanishingGroups hg
  have hmem := mem_group_self hp.canJoin
  refine hd hmem ?_
  rw [← List.mem_toFinset, ← e, List.mem_toFinset]
  exact hmem

include hf in
theorem toFinset_map_vanishingGroups :
    (f.vanishingGroups.map fun g => g.cells.toFinset).toFinset = f.matchedComponents := by
  ext s
  rw [List.mem_toFinset, List.mem_map, matchedComponents, Finset.mem_image]
  constructor
  · rintro ⟨g, hg, rfl⟩
    obtain ⟨p, hp, rfl⟩ := eq_group_of_mem_vanishingGroups hg
    exact ⟨p, (mem_matchedCells_iff_ripe f p).mpr hp, (toFinset_group hp.canJoin).symm⟩
  · rintro ⟨p, hp, rfl⟩
    obtain ⟨g, hg, _, hc⟩ := exists_vanishingGroup hf ((mem_matchedCells_iff_ripe f p).mp hp)
    exact ⟨g, hg, hc⟩

theorem longBonuses_eq_sum (gs : List Group) :
    longBonuses gs = (gs.map fun g => longBonus g.size).sum := by
  induction gs with
  | nil => rfl
  | cons g gs ih => rw [longBonuses, ih, List.map_cons, List.sum_cons]

include hf in
theorem longBonuses_vanishingGroups :
    longBonuses f.vanishingGroups = ∑ s ∈ f.matchedComponents, longBonus s.card := by
  rw [← toFinset_map_vanishingGroups hf, List.sum_toFinset _ f.nodup_map_vanishingGroups,
    List.map_map, longBonuses_eq_sum]
  refine congrArg List.sum (List.map_congr_left fun g hg => ?_)
  obtain ⟨p, _, rfl⟩ := eq_group_of_mem_vanishingGroups hg
  show longBonus (f.group p).length = longBonus (f.group p).toFinset.card
  rw [List.toFinset_card_of_nodup (f.nodup_group p)]

/-- the score is that of the groups that vanish, also where there are none -/
theorem score_vanish (f : Field) (chain : Nat) :
    (f.vanish chain).2 = groupsScore chain f.vanishingGroups := by
  cases hv : f.vanish? chain with
  | none =>
    rw [vanish_of_vanish?_eq_none hv, vanishingGroups_eq_nil hv]
    exact ((stepScore_eq_zero_iff chain 0 _ _).mpr rfl).symm
  | some v =>
    rw [vanish_of_vanish?_eq_some hv]
    exact (eq_of_vanish? hv).2.2.2

include hf in
theorem score_vanish_eq (chain : Nat) :
    (f.vanish chain).2 = 10 * f.matchedCells.card *
      min 999 (max 1 (chainBonus chain + colorBonus f.matchedColors.card +
        ∑ s ∈ f.matchedComponents, longBonus s.card)) := by
  rw [score_vanish, groupsScore, stepScore, length_flatMap_vanishingGroups hf,
    colorsOf_vanishingGroups hf, longBonuses_vanishingGroups hf]

include hf in
theorem score_vanish_eq_zero_iff (chain : Nat) :
    (f.vanish chain).2 = 0 ↔ ∀ p, ¬ f.Matched p := by
  rw [score_vanish, groupsScore, stepScore_eq_zero_iff, length_flatMap_vanishingGroups hf,
    Finset.card_eq_zero, Finset.eq_empty_iff_forall_notMem]
  simp only [mem_matchedCells_iff]

theorem vanish_eq_self (h : (f.vanish chain).2 = 0) : (f.vanish chain).1 = f := by
  cases hv : f.vanish? chain with
  | none => rw [vanish_of_vanish?_eq_none hv]
  | some v =>
    rw [score_vanish, groupsScore, stepScore_eq_zero_iff, List.length_eq_zero_iff,
      List.flatMap_eq_nil_iff] at h
    obtain ⟨g, hg⟩ := List.exists_mem_of_ne_nil _ (eq_of_vanish? hv).1
    obtain ⟨p, hp, rfl⟩ := eq_group_of_mem_vanishingGroups hg
    exact absurd (h _ hg) (List.ne_nil_of_mem (mem_group_self hp.canJoin))

end

/-- **A vanish erases the matched cells and the garbage beside them.**  On every field that operations
build it empties these cells and no other, and scores ten points for each matched cell, times the
bonus of the step, of the colors and of the components.  It scores nothing just where it empties
nothing, and then the believed heights stay as they are too. -/
theorem vanish_erases_matched {f : Field} (hf : f.Built) (chain : Nat) :
    (∀ p, f.Matched p ∨ f.Swept p → (f.vanish chain).1.colorAt p = .empty) ∧
    (∀ p, ¬ (f.Matched p ∨ f.Swept p) → (f.vanish chain).1.colorAt p = f.colorAt p) ∧
    (f.vanish chain).2 = 10 * f.matchedCells.card *
      min 999 (max 1 (chainBonus chain + colorBonus f.matchedColors.card +
        ∑ s ∈ f.matchedComponents, longBonus s.card)) ∧
    ((f.vanish chain).2 = 0 ↔ ∀ p, ¬ (f.Matched p ∨ f.Swept p)) ∧
    ((f.vanish chain).2 = 0 → (f.vanish chain).1 = f) := by
  have hcov := hf.covered
  refine ⟨fun p => (colorAt_vanish hcov chain p).1, fun p => (colorAt_vanish hcov chain p).2,
    score_vanish_eq hcov chain, ?_, vanish_eq_self⟩
  rw [score_vanish_eq_zero_iff hcov]
  constructor
  · rintro h p (hp | ⟨_, _, q, hq, _⟩)
    · exact h p hp
    · exact h q hq
  · exact fun h p hp => h p (Or.inl hp)

/-- four reds on each other, garbage beside the lowest of them, and garbage beyond it -/
def redBesideGarbage : Field :=
  Field.empty.run (List.replicate 4 (.stack 1 .red) ++ [.stack 2 .garbage, .stack 3 .garbage])

theorem vanish_redBesideGarbage :
    redBesideGarbage.Built ∧ (redBesideGarbage.vanish 1).2 = 40 ∧
      (redBesideGarbage.vanish 1).1.colorAt ⟨2, 1⟩ = .empty ∧
      (redBesideGarbage.vanish 1).1.colorAt ⟨3, 1⟩ = .garbage ∧
      (∃ p, redBesideGarbage.Matched p ∨ redBesideGarbage.Swept p) ∧
      ¬ (redBesideGarbage.Matched ⟨3, 1⟩ ∨ redBesideGarbage.Swept ⟨3, 1⟩) := by
  have hbuilt : redBesideGarbage.Built := ⟨Field.empty, Or.inl rfl, _, rfl⟩
  have hscore : (redBesideGarbage.vanish 1).2 = 40 := by decide +kernel
  have hbeside : (redBesideGarbage.vanish 1).1.colorAt ⟨2, 1⟩ = .empty := by decide +kernel
  have hbeyond : (redBesideGarbage.vanish 1).1.colorAt ⟨3, 1⟩ = .garbage := by decide +kernel
  obtain ⟨herased, _, _, hzero, _⟩ := vanish_erases_matched hbuilt 1
  refine ⟨hbuilt, hscore, hbeside, hbeyond, ?_, ?_⟩
  · by_contra hnone
    rw [hzero.mpr (not_exists.mp hnone)] at hscore
    cases hscore
  · intro h
    rw [herased _ h] at hbeyond
    cases hbeyond

end Field

end PuyoChain
