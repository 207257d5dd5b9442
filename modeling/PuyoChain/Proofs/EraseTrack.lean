import Mathlib.Data.List.Nodup
import PuyoChain.EraseTrack

/-!
# Counting in a track

* `mapCells`                       the cells of the map, column by column;
* `EraseTrack.erasedCells`         the cells that some step erased;
* `EraseTrack.countErased_eq`      a step erased as many cells as there are with its number;
* `EraseTrack.length_le_countErased`   different cells of one step are no more than the step has.
-/

namespace PuyoChain

/-- the cells of the map, column by column -/
def mapCells : List Cell := (List.range 8).flatMap fun x => (List.range 16).map fun y => ⟨x, y⟩

theorem mem_mapCells_iff (p : Cell) : p ∈ mapCells ↔ p.x < 8 ∧ p.y < 16 := by
  simp only [mapCells, List.mem_flatMap, List.mem_map, List.mem_range]
  constructor
  · rintro ⟨x, hx, y, hy, rfl⟩
    exact ⟨hx, hy⟩
  · rintro ⟨hx, hy⟩
    exact ⟨p.x, hx, p.y, hy, rfl⟩

theorem toList_eq_map_range {α : Type} {n : Nat} (v : Vector α n) (a : α) :
    v.toList = (List.range n).map fun i => v.getD i a := by
  refine List.ext_getElem (by simp) fun i h _ => ?_
  have hi : i < n := by simpa using h
  simp [Vector.getD, hi]

namespace EraseTrack

variable {t u : EraseTrack} {k : Nat}

/-- the cells that some step erased -/
def erasedCells (t : EraseTrack) : List Cell := mapCells.filter fun p => t.erasedAt p.x p.y != 0

theorem erasedAt_of_not_lt {x y : Nat} (h : ¬ (x < 8 ∧ y < 16)) : t.erasedAt x y = 0 := dif_neg h

theorem mem_mapCells_of_erasedAt_ne_zero {p : Cell} (h : t.erasedAt p.x p.y ≠ 0) :
    p ∈ mapCells := by
  rw [mem_mapCells_iff]
  by_contra hn
  exact h (erasedAt_of_not_lt hn)

theorem mem_erasedCells_iff (t : EraseTrack) (p : Cell) :
    p ∈ t.erasedCells ↔ t.erasedAt p.x p.y ≠ 0 := by
  rw [erasedCells, List.mem_filter, bne_iff_ne]
  exact ⟨fun h => h.2, fun h => ⟨mem_mapCells_of_erasedAt_ne_zero h, h⟩⟩

theorem steps_eq_map (t : EraseTrack) :
    t.steps.toList.flatMap Vector.toList = mapCells.map fun p => t.erasedAt p.x p.y := by
  rw [toList_eq_map_range t.steps (Vector.replicate 16 0), mapCells, List.map_flatMap,
    List.flatMap_map]
  refine List.flatMap_congr fun x hx => ?_
  rw [toList_eq_map_range _ 0, List.map_map]
  refine List.map_congr_left fun y hy => ?_
  rw [List.mem_range] at hx hy
  show _ = t.erasedAt x y
  rw [erasedAt, dif_pos ⟨hx, hy⟩]
  simp [Vector.getD, hx, hy]

theorem countErased_eq (t : EraseTrack) (hk : k ≠ 0) :
    t.countErased k = mapCells.countP fun p => t.erasedAt p.x p.y == k := by
  rw [countErased, if_neg hk, steps_eq_map, List.count, List.countP_map]
  rfl

theorem countErased_eq_zero (h : ∀ x y, k ≠ 0 → t.erasedAt x y ≠ k) : t.countErased k = 0 := by
  by_cases hk : k = 0
  · exact if_pos hk
  · rw [countErased_eq t hk, List.countP_eq_zero]
    intro p _
    simpa using h p.x p.y hk

theorem countErased_le (hk : k ≠ 0) (h : ∀ x y, t.erasedAt x y = k → u.erasedAt x y = k) :
    t.countErased k ≤ u.countErased k := by
  rw [countErased_eq t hk, countErased_eq u hk]
  refine List.countP_mono_left fun p _ hp => ?_
  rw [beq_iff_eq] at hp ⊢
  exact h p.x p.y hp

/-- different cells that one step erased are no more than the step has -/
theorem length_le_countErased {cells : List Cell} (hn : cells.Nodup) (hk : k ≠ 0)
    (h : ∀ p ∈ cells, t.erasedAt p.x p.y = k) : cells.length ≤ t.countErased k := by
  rw [countErased_eq t hk, List.countP_eq_length_filter]
  refine hn.length_le_of_subset fun p hp => ?_
  have hp' := h p hp
  exact List.mem_filter.mpr
    ⟨mem_mapCells_of_erasedAt_ne_zero (by rw [hp']; exact hk), beq_iff_eq.mpr hp'⟩

end EraseTrack

end PuyoChain
