import PuyoChain.Proofs.Field.Tracking

/-!
# A chain as its steps

* `Field.Ripe`          the cell is in a group that vanishes;
* `mem_doomed_iff`      a step erases the ripe cells and the garbage beside them;
* `Field.cellsOf`       the cells of rows 1 to 13 with colors of a kind, as many before a fall as after
                        it (`length_cellsOf_drop`);
* `Field.filledCells`   the puyos of rows 1 to 13, of which every step leaves fewer;
* `Field.ChainsTo`      a number of steps leads from one field to another, from which nothing
                        vanishes;
* `chainsTo_simulate`   the bound on the steps of `simulate` cuts no chain off.

What a step does to the field does not depend on the number of the step, so a field chains to one
field only, in one number of steps (`ChainsTo.unique`).
-/

namespace PuyoChain

namespace Field

variable {f g : Field} {chain chain' n : Nat} {v w : Vanish}

/-! ## what a step erases -/

/-- the cell is in a group that vanishes -/
def Ripe (f : Field) (p : Cell) : Prop := (f.colorAt p).isNormal = true ∧ 4 ≤ f.groupSize p

theorem Ripe.of_mem_group {p q : Cell} (h : f.Ripe p) (hq : q ∈ f.group p) : f.Ripe q := by
  unfold Ripe
  rw [(visible_and_color_of_mem hq).2, groupSize_eq_of_mem hq]
  exact h

theorem Ripe.canJoin {p : Cell} (h : f.Ripe p) : f.canJoin p = true :=
  canJoin_of_groupSize_pos (Nat.lt_of_lt_of_le (by decide) h.2)

/-- a group that vanishes is that of a ripe cell -/
theorem eq_group_of_mem_vanishingGroups {g : Group} (hg : g ∈ f.vanishingGroups) :
    ∃ p, f.Ripe p ∧ g = ⟨f.colorAt p, f.group p⟩ := by
  obtain ⟨hg, hv⟩ := List.mem_filter.mp hg
  obtain ⟨p, _, hn, rfl⟩ := mem_groupsFrom hg
  exact ⟨p, ⟨hn, (f.vanishes_iff p).mp hv⟩, rfl⟩

theorem mem_vanishing_iff (hf : f.Covered) (p : Cell) :
    p ∈ f.vanishingGroups.flatMap Group.cells ↔ f.Ripe p := by
  rw [List.mem_flatMap]
  constructor
  · rintro ⟨g, hg, hp⟩
    obtain ⟨q, hq, rfl⟩ := eq_group_of_mem_vanishingGroups hg
    exact hq.of_mem_group hp
  · intro h
    exact exists_mem_vanishingGroups (hf.mem_scannedCells h.canJoin) h.1 h.2

/-- a step erases the ripe cells, and the garbage beside them -/
theorem mem_doomed_iff (hf : f.Covered) (hv : f.vanish? chain = some v) (p : Cell) :
    p ∈ v.doomed ↔ f.Ripe p ∨ ∃ q, f.Ripe q ∧ p ∈ f.joined .garbage q := by
  rw [doomed_of_vanish? hv, List.mem_append, mem_vanishing_iff hf, garbageBeside, List.mem_flatMap]
  simp only [mem_vanishing_iff hf]

theorem clear_congr {ps qs : List Cell} (h : ∀ p, p ∈ ps ↔ p ∈ qs) : f.clear ps = f.clear qs := by
  unfold clear
  simp only [h]

/-- what a step does to the field does not depend on its number -/
theorem field_eq_of_vanish? (h : f.vanish? chain = some v) (h' : f.vanish? chain' = some w) :
    v.field = w.field := by
  rw [field_of_vanish? h, field_of_vanish? h', doomed_of_vanish? h, doomed_of_vanish? h']

theorem fires_of_vanish? (h : f.vanish? chain = some v) : f.fires = true := by
  by_contra hn
  rw [(vanish?_eq_none_iff f chain).mpr (Bool.not_eq_true _ ▸ hn)] at h
  cases h

theorem exists_vanish? (h : f.fires = true) (chain : Nat) : ∃ v, f.vanish? chain = some v := by
  refine Option.ne_none_iff_exists'.mp fun hn => ?_
  rw [vanish?_eq_none_iff, h] at hn
  cases hn

/-! ## how many puyos there are -/

/-- the cells of rows 1 to 13, column by column -/
def fallingCells : List Cell := fieldColumns.flatMap fun x => (rowsUpTo 13).map fun y => ⟨x, y⟩

/-- the cells of rows 1 to 13 that are not empty -/
def filledCells (f : Field) : List Cell := fallingCells.filter fun p => f.colorAt p != .empty

theorem mem_fallingCells_iff (p : Cell) :
    p ∈ fallingCells ↔ (1 ≤ p.x ∧ p.x ≤ 6) ∧ 1 ≤ p.y ∧ p.y ≤ 13 := mem_flatMap_rowsUpTo_iff 13 p

/-- the cells of rows 1 to 13 that have a color of a kind -/
def cellsOf (f : Field) (kind : Color → Bool) : List Cell :=
  fallingCells.filter fun p => kind (f.colorAt p)

theorem filledCells_eq_cellsOf (f : Field) : f.filledCells = f.cellsOf (· != .empty) := rfl

theorem length_cellsOf_le (f : Field) (kind : Color → Bool) : (f.cellsOf kind).length ≤ 78 := by
  have hlen : fallingCells.length = 78 := by decide +kernel
  rw [← hlen]
  exact List.length_filter_le ..

theorem length_filledCells_le (f : Field) : f.filledCells.length ≤ 78 :=
  f.length_cellsOf_le (· != .empty)

section
variable {kind : Color → Bool} (hkind : kind .empty = false)
include hkind

theorem countP_rows (f : Field) (x : Nat) : ((rowsUpTo 13).countP fun y => kind (f.color x y)) =
    ((f.filledRows x).map (f.color x)).countP kind := by
  rw [filledRows, List.countP_map, List.countP_filter]
  refine List.countP_congr fun y _ => ?_
  cases he : f.color x y <;> simp_all

/-- fields with the same puyos in every column have as many cells of each kind -/
theorem length_cellsOf_congr
    (h : ∀ x, 1 ≤ x ∧ x ≤ 6 →
      (f.filledRows x).map (f.color x) = (g.filledRows x).map (g.color x)) :
    (f.cellsOf kind).length = (g.cellsOf kind).length := by
  rw [cellsOf, cellsOf, ← List.countP_eq_length_filter, ← List.countP_eq_length_filter,
    fallingCells, List.countP_flatMap, List.countP_flatMap]
  refine congrArg List.sum (List.map_congr_left fun x hx => ?_)
  rw [Function.comp_apply, Function.comp_apply, List.countP_map, List.countP_map]
  show ((rowsUpTo 13).countP fun y => kind (f.color x y)) =
    (rowsUpTo 13).countP fun y => kind (g.color x y)
  rw [countP_rows hkind, countP_rows hkind, h x ((mem_fieldColumns_iff x).mp hx)]

theorem length_cellsOf_drop (f : Field) :
    (f.drop.1.cellsOf kind).length = (f.cellsOf kind).length :=
  length_cellsOf_congr hkind fun _ hx => map_color_drop hx f

theorem cellsOf_clear (f : Field) (doomed : List Cell) :
    (f.clear doomed).cellsOf kind = (f.cellsOf kind).filter fun p => decide (p ∉ doomed) := by
  unfold cellsOf
  rw [List.filter_filter]
  refine List.filter_congr fun p hp => ?_
  obtain ⟨hx, hy⟩ := (mem_fallingCells_iff p).mp hp
  unfold colorAt
  rw [color_clear f doomed p.x p.y hx ⟨hy.1, by omega⟩]
  by_cases h : p ∈ doomed
  · simp [h, hkind]
  · simp [h]

end

theorem length_filledCells_drop (f : Field) :
    f.drop.1.filledCells.length = f.filledCells.length := by
  rw [filledCells_eq_cellsOf, filledCells_eq_cellsOf]
  exact length_cellsOf_drop rfl f

theorem filledCells_clear (f : Field) (doomed : List Cell) :
    (f.clear doomed).filledCells = f.filledCells.filter fun p => decide (p ∉ doomed) := by
  rw [filledCells_eq_cellsOf, filledCells_eq_cellsOf]
  exact cellsOf_clear rfl f doomed

/-- every step leaves fewer puyos -/
theorem length_filledCells_step (h : f.vanish? chain = some v) :
    v.field.drop.1.filledCells.length < f.filledCells.length := by
  rw [length_filledCells_drop, field_of_vanish? h, filledCells_clear,
    List.length_filter_lt_length_iff_exists]
  obtain ⟨p, h4, hp⟩ := exists_group_subset_doomed h
  have hmem : p ∈ v.doomed := hp (mem_group_self (canJoin_of_groupSize_pos (by omega)))
  obtain ⟨hx, hy⟩ := filledRows_of_mem_doomed h p hmem
  obtain ⟨hrow, hne⟩ := (mem_filledRows_iff f p.x p.y).mp hy
  refine ⟨p, List.mem_filter.mpr ⟨(mem_fallingCells_iff p).mpr ⟨hx, hrow⟩, ?_⟩, ?_⟩
  · exact bne_iff_ne.mpr hne
  · simp [hmem]

/-! ## whole chains -/

/-- `n` steps lead from the one field to the other, from which nothing vanishes -/
inductive ChainsTo : Field → Nat → Field → Prop where
  | rest {f : Field} (h : f.fires = false) : ChainsTo f 0 f
  | step {f g : Field} {chain n : Nat} {v : Vanish} (hv : f.vanish? chain = some v)
      (h : ChainsTo v.field.drop.1 n g) : ChainsTo f (n + 1) g

theorem ChainsTo.length_le (h : f.ChainsTo n g) : n ≤ f.filledCells.length := by
  induction h with
  | rest => exact Nat.zero_le _
  | step hv _ ih => exact Nat.lt_of_le_of_lt ih (length_filledCells_step hv)

theorem exists_chainsTo (f : Field) : ∃ n g, f.ChainsTo n g := by
  -- on the number of puyos, which every step makes smaller
  induction hlen : f.filledCells.length using Nat.strongRecOn generalizing f with
  | ind k ih =>
    cases hf : f.fires with
    | false => exact ⟨0, f, .rest hf⟩
    | true =>
      obtain ⟨v, hv⟩ := exists_vanish? hf 1
      have hlt := length_filledCells_step hv
      rw [hlen] at hlt
      obtain ⟨n, g, h⟩ := ih _ hlt v.field.drop.1 rfl
      exact ⟨n + 1, g, .step hv h⟩

theorem ChainsTo.unique {m : Nat} {h : Field} (hn : f.ChainsTo n g) (hm : f.ChainsTo m h) :
    n = m ∧ g = h := by
  induction hn generalizing m with
  | rest hf =>
    cases hm with
    | rest _ => exact ⟨rfl, rfl⟩
    | step hv _ =>
      rw [fires_of_vanish? hv] at hf
      cases hf
  | step hv _ ih =>
    cases hm with
    | rest hf =>
      rw [fires_of_vanish? hv] at hf
      cases hf
    | step hw hm =>
      rw [field_eq_of_vanish? hw hv] at hm
      obtain ⟨rfl, rfl⟩ := ih hm
      exact ⟨rfl, rfl⟩

theorem ChainsTo.cascade (h : f.ChainsTo n g) {fuel : Nat} (hn : n ≤ fuel) (r : ChainResult) :
    (cascade fuel f r).1 = g ∧ (cascade fuel f r).2.chains = r.chains + n := by
  induction h generalizing fuel r with
  | rest hf =>
    rw [cascade_of_vanish?_eq_none ((vanish?_eq_none_iff _ _).mpr hf)]
    exact ⟨rfl, rfl⟩
  | @step f g chain n v hv _ ih =>
    obtain ⟨fuel, rfl⟩ : ∃ k, fuel = k + 1 := ⟨fuel - 1, by omega⟩
    obtain ⟨w, hw⟩ := exists_vanish? (fires_of_vanish? hv) (r.chains + 1)
    rw [cascade_of_vanish?_eq_some hw, field_eq_of_vanish? hw hv]
    obtain ⟨hfield, hchains⟩ := ih (Nat.le_of_succ_le_succ hn) (r.afterStep w.score v.field.drop.2)
    rw [ChainResult.chains_afterStep] at hchains
    exact ⟨hfield, by omega⟩

/-- the bound on the steps of `simulate` cuts no chain off -/
theorem ChainsTo.simulate (h : f.drop.1.ChainsTo n g) :
    f.simulate.1 = g ∧ f.simulate.2.chains = n := by
  have hle := h.length_le
  have hmax := f.drop.1.length_filledCells_le
  have hbound : n ≤ stepBound := by
    unfold stepBound
    omega
  have hc := h.cascade hbound .zero
  rw [← simulate_eq] at hc
  exact ⟨hc.1, hc.2.trans (Nat.zero_add n)⟩

theorem chainsTo_simulate (f : Field) : f.drop.1.ChainsTo f.simulate.2.chains f.simulate.1 := by
  obtain ⟨n, g, h⟩ := f.drop.1.exists_chainsTo
  obtain ⟨hfield, hchains⟩ := h.simulate
  rwa [hfield, hchains]

end Field

end PuyoChain
