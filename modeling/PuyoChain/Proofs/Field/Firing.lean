import PuyoChain.Proofs.Field.Chain
import PuyoChain.Proofs.Field.Connected
import PuyoChain.Proofs.Field.Placing

/-!
# When a chain starts

* `vanish?_eq_none_iff`   a group vanishes just if `fires` finds one of its cells;
* `fires_iff`             on a covered field the scan misses no vanishing group;
* `Field.newCells`        the cells that a piece has just filled;
* `fires_of_lock?`        a group that vanishes right after a piece was locked has one of the new
                          cells, or vanished before.

So on a settled field without vanishing groups a piece starts a chain only where `firesAfter` says
so (`simulate_of_firesAfter_eq_false`).
-/

namespace PuyoChain

namespace Field

/-! ## the groups of a field -/

theorem mem_groupsFrom {f : Field} {ps seen : List Cell} {g : Group}
    (h : g ∈ f.groupsFrom ps seen) :
    ∃ p ∈ ps, (f.colorAt p).isNormal = true ∧ g = ⟨f.colorAt p, f.group p⟩ := by
  induction ps generalizing seen with
  | nil => cases h
  | cons p ps ih =>
    unfold groupsFrom at h
    by_cases e : ((f.colorAt p).isNormal && decide (p ∉ seen)) = true
    · rw [if_pos e, List.mem_cons] at h
      rcases h with rfl | h
      · rw [Bool.and_eq_true] at e
        exact ⟨p, List.mem_cons_self, e.1, rfl⟩
      · obtain ⟨q, hq, hn, rfl⟩ := ih h
        exact ⟨q, List.mem_cons_of_mem p hq, hn, rfl⟩
    · rw [if_neg e] at h
      obtain ⟨q, hq, hn, rfl⟩ := ih h
      exact ⟨q, List.mem_cons_of_mem p hq, hn, rfl⟩

theorem vanishes_iff (f : Field) (p : Cell) :
    (⟨f.colorAt p, f.group p⟩ : Group).vanishes = true ↔ 4 ≤ f.groupSize p := decide_eq_true_iff

/-- a scanned cell of a normal color is among the cells seen before or in a listed group -/
theorem exists_mem_groupsFrom {f : Field} {ps : List Cell} (seen : List Cell) {p : Cell}
    (hp : p ∈ ps) (hn : (f.colorAt p).isNormal = true) (hj : f.canJoin p = true) :
    p ∈ seen ∨ ∃ g ∈ f.groupsFrom ps seen, p ∈ g.cells := by
  induction ps generalizing seen with
  | nil => cases hp
  | cons q ps ih =>
    unfold groupsFrom
    by_cases e : ((f.colorAt q).isNormal && decide (q ∉ seen)) = true
    · rw [if_pos e]
      rcases List.mem_cons.mp hp with rfl | hp
      · exact Or.inr ⟨_, List.mem_cons_self, mem_group_self hj⟩
      · rcases ih (f.group q ++ seen) hp with hs | ⟨g, hg, hpg⟩
        · rcases List.mem_append.mp hs with hq | hs
          · exact Or.inr ⟨_, List.mem_cons_self, hq⟩
          · exact Or.inl hs
        · exact Or.inr ⟨g, List.mem_cons_of_mem _ hg, hpg⟩
    · rw [if_neg e]
      rcases List.mem_cons.mp hp with rfl | hp
      · rw [hn, Bool.true_and, decide_eq_true_iff, not_not] at e
        exact Or.inl e
      · exact ih seen hp

theorem canJoin_of_groupSize_pos {f : Field} {p : Cell} (h : 0 < f.groupSize p) :
    f.canJoin p = true := by
  obtain ⟨q, hq⟩ := List.exists_mem_of_length_pos h
  exact canJoin_of_mem_group hq

/-- a scanned cell of a vanishing group is in one that is listed -/
theorem exists_mem_vanishingGroups {f : Field} {p : Cell} (hp : p ∈ f.scannedCells)
    (hn : (f.colorAt p).isNormal = true) (hv : 4 ≤ f.groupSize p) :
    ∃ g ∈ f.vanishingGroups, p ∈ g.cells := by
  rcases exists_mem_groupsFrom [] hp hn (canJoin_of_groupSize_pos (by omega)) with h | ⟨g, hg, hpg⟩
  · cases h
  · refine ⟨g, List.mem_filter.mpr ⟨hg, ?_⟩, hpg⟩
    obtain ⟨q, _, _, rfl⟩ := mem_groupsFrom hg
    rw [groupSize_eq_of_mem hpg] at hv
    exact (f.vanishes_iff q).mpr hv

theorem fires_eq_true_iff (f : Field) :
    f.fires = true ↔
      ∃ p ∈ f.scannedCells, (f.colorAt p).isNormal = true ∧ 4 ≤ f.groupSize p := by
  unfold fires
  rw [List.any_eq_true]
  simp only [Bool.and_eq_true, inVanishing_iff]

theorem vanishingGroups_ne_nil_iff (f : Field) : f.vanishingGroups ≠ [] ↔ f.fires = true := by
  rw [fires_eq_true_iff]
  constructor
  · intro h
    obtain ⟨g, hg⟩ := List.exists_mem_of_ne_nil _ h
    obtain ⟨hg, hv⟩ := List.mem_filter.mp hg
    obtain ⟨p, hp, hn, rfl⟩ := mem_groupsFrom hg
    exact ⟨p, hp, hn, (f.vanishes_iff p).mp hv⟩
  · rintro ⟨p, hp, hn, hv⟩
    obtain ⟨g, hg, _⟩ := exists_mem_vanishingGroups hp hn hv
    exact List.ne_nil_of_mem hg

/-- a group vanishes just if the scan finds a cell of one -/
theorem vanish?_eq_none_iff (f : Field) (chain : Nat) :
    f.vanish? chain = none ↔ f.fires = false := by
  have h := f.vanishingGroups_ne_nil_iff
  unfold vanish?
  by_cases e : f.vanishingGroups = []
  · rw [e]
    exact ⟨fun _ => by simpa [e] using h, fun _ => rfl⟩
  · rw [if_neg (by simpa using e), h.mp e]
    exact ⟨nofun, nofun⟩

theorem chains_simulate_pos_iff_fires (f : Field) :
    0 < f.simulate.2.chains ↔ f.drop.1.fires = true := by
  rw [chains_simulate_pos_iff, ne_eq, vanish?_eq_none_iff, Bool.not_eq_false]

theorem simulate_of_fires_eq_false {f : Field} (h : f.drop.1.fires = false) :
    f.simulate = (f.drop.1, .zero) :=
  simulate_of_vanish?_eq_none ((vanish?_eq_none_iff _ 1).mpr h)

theorem simulate_of_chains_eq_zero {f : Field} (h : f.simulate.2.chains = 0) :
    f.simulate = (f.drop.1, .zero) := by
  refine simulate_of_fires_eq_false (Bool.eq_false_iff.mpr fun e => ?_)
  rw [← chains_simulate_pos_iff_fires, h] at e
  exact Nat.lt_irrefl 0 e

/-- the scan up to the believed heights misses no visible puyo -/
theorem Covered.mem_scannedCells {f : Field} (hf : f.Covered) {p : Cell} (h : f.canJoin p = true) :
    p ∈ f.scannedCells := by
  obtain ⟨hvis, hne, _⟩ := (f.canJoin_iff p).mp h
  rw [Cell.isVisible_iff] at hvis
  rw [mem_scannedCells_iff]
  exact ⟨hvis.1, hvis.2.1, hf.le_height hvis.1 (by omega) hne, hvis.2.2⟩

theorem fires_iff {f : Field} (hf : f.Covered) :
    f.fires = true ↔ ∃ p, (f.colorAt p).isNormal = true ∧ 4 ≤ f.groupSize p := by
  rw [fires_eq_true_iff]
  constructor
  · rintro ⟨p, _, h⟩
    exact ⟨p, h⟩
  · rintro ⟨p, hn, hv⟩
    exact ⟨p, hf.mem_scannedCells (canJoin_of_groupSize_pos (by omega)), hn, hv⟩

/-- every cell of a vanishing group vanishes -/
theorem mem_doomed {f : Field} (hf : f.Covered) {p : Cell} (hn : (f.colorAt p).isNormal = true)
    (h4 : 4 ≤ f.groupSize p) {chain : Nat} {v : Vanish} (hv : f.vanish? chain = some v) :
    p ∈ v.doomed := by
  have hp := hf.mem_scannedCells (canJoin_of_groupSize_pos (by omega : 0 < f.groupSize p))
  obtain ⟨g, hg, hpg⟩ := exists_mem_vanishingGroups hp hn h4
  rw [doomed_of_vanish? hv]
  exact List.mem_append_left _ (List.mem_flatMap.mpr ⟨g, hg, hpg⟩)

theorem KeptIn.fires {f g : Field} (hg : g.Covered) (h : f.KeptIn g) (hf : f.fires = true) :
    g.fires = true := by
  obtain ⟨p, _, hn, hv⟩ := f.fires_eq_true_iff.mp hf
  obtain ⟨hvis, hne, _⟩ := (f.canJoin_iff p).mp (canJoin_of_groupSize_pos (by omega))
  refine (fires_iff hg).mpr ⟨p, ?_, Nat.le_trans hv (h.groupSize_le p)⟩
  rw [h p hvis hne]
  exact hn

/-- where two fields agree on all visible cells but a few, a vanishing group of the one has such a
cell or vanishes from the other too -/
theorem fires_of_agree {f g : Field} (hf : f.Covered) {cells : List Cell}
    (same : ∀ q, q.isVisible = true → q ∉ cells → f.colorAt q = g.colorAt q)
    (hg : g.fires = true) :
    f.fires = true ∨
      ∃ q ∈ cells, (g.colorAt q).isNormal = true ∧ 4 ≤ g.groupSize q := by
  obtain ⟨p, _, hn, hv⟩ := g.fires_eq_true_iff.mp hg
  by_cases e : ∃ q ∈ g.group p, q ∈ cells
  · obtain ⟨q, hq, hcell⟩ := e
    refine Or.inr ⟨q, hcell, ?_, ?_⟩
    · rw [(visible_and_color_of_mem hq).2]
      exact hn
    · rw [groupSize_eq_of_mem hq]
      exact hv
  · have hsame : ∀ q ∈ g.group p, f.colorAt q = g.colorAt q :=
      fun q hq => same q (visible_and_color_of_mem hq).1 fun hcell => e ⟨q, hq, hcell⟩
    have hle := groupSize_le_of_subset (group_subset_group hsame)
    have hself := hsame p (mem_group_self (canJoin_of_groupSize_pos (by omega)))
    exact Or.inl ((fires_iff hf).mpr ⟨p, by rw [hself]; exact hn, by omega⟩)

/-! ## right after a piece was locked -/

/-- the cells on top of the columns of a decision -/
def newCells (f : Field) (d : Decision) : List Cell :=
  if d.isVertical then [⟨d.axisX, f.height d.axisX⟩, ⟨d.axisX, f.height d.axisX - 1⟩]
  else [⟨d.axisX, f.height d.axisX⟩, ⟨d.childX, f.height d.childX⟩]

theorem firesAfter_iff (f : Field) (d : Decision) :
    f.firesAfter d = true ↔ ∃ p ∈ f.newCells d, 4 ≤ f.groupSize p := by
  unfold firesAfter newCells
  by_cases h : d.isVertical = true
  · simp [h, inVanishing_iff]
  · simp [h, inVanishing_iff]

/-- locking a piece changes the colors of the new cells only -/
theorem colorAt_of_lock? {f g : Field} {d : Decision} {p : Piece} (h : f.lock? d p = some g)
    {q : Cell} (hq : q ∉ g.newCells d) : g.colorAt q = f.colorAt q := by
  have hv := ((lock?_eq_some_iff f g d p).mp h).1
  obtain ⟨hx, hr, hx', hr', rfl⟩ := lock?_inv h
  rw [placeAll_additions] at hq ⊢
  obtain ⟨x, y⟩ := q
  have hc := color_place (f.place d.axisX (p.lower d)) hx' hr' (p.upper d) x y
  have hh := height_place (f.place d.axisX (p.lower d)) hx' (p.upper d)
  rw [color_place f hx hr] at hc
  simp only [height_place f hx] at hc hh
  show ((f.place d.axisX (p.lower d)).place d.childX (p.upper d)).color x y = f.color x y
  unfold newCells at hq
  by_cases hd : d.r = 0 ∨ d.r = 2
  · rw [d.childX_of_vertical hd] at hc hh hq ⊢
    rw [if_pos (d.isVertical_iff.mpr hd), hh, if_pos rfl, if_pos rfl, Nat.add_sub_cancel] at hq
    simp only [List.mem_cons, Cell.mk.injEq, List.not_mem_nil, or_false, not_or, if_true] at hq hc
    rw [hc, if_neg hq.1, if_neg hq.2]
  · have hne := Decision.childX_ne_axisX hv hd
    rw [if_neg (fun e => hd (d.isVertical_iff.mp e)), hh, hh, if_neg (Ne.symm hne), if_pos rfl,
      if_pos rfl, if_neg hne] at hq
    simp only [List.mem_cons, Cell.mk.injEq, List.not_mem_nil, or_false, not_or] at hq
    rw [hc, if_neg hne, if_neg hq.2, if_neg hq.1]

/-- a group that vanishes right after a piece was locked has one of the new cells, or vanished
before -/
theorem fires_of_lock? {f g : Field} (hf : f.Covered) {d : Decision} {p : Piece}
    (h : f.lock? d p = some g) (hg : g.fires = true) :
    f.fires = true ∨ g.firesAfter d = true := by
  rcases fires_of_agree hf (fun q _ hq => (colorAt_of_lock? h hq).symm) hg with hfires | hnew
  · exact Or.inl hfires
  · obtain ⟨q, hq, _, hv⟩ := hnew
    exact Or.inr ((g.firesAfter_iff d).mpr ⟨q, hq, hv⟩)

/-- on a settled field without vanishing groups a piece starts no chain unless `firesAfter` says
so -/
theorem simulate_of_firesAfter_eq_false {f g : Field} (hf : f.Exact) (hs : f.Settled)
    (hn : f.fires = false) {d : Decision} {p : Piece} (hp : p.Solid) (h : f.lock? d p = some g)
    (ha : g.firesAfter d = false) : g.simulate = (g, .zero) := by
  have hdrop := (hf.lock? hp h).drop_of_settled (hf.settled_lock? hs hp h)
  have hg : g.fires = false := by
    rw [Bool.eq_false_iff]
    intro e
    rcases fires_of_lock? hf.covered h e with e | e
    · rw [hn] at e
      cases e
    · rw [ha] at e
      cases e
  rw [simulate_of_fires_eq_false (by rw [hdrop]; exact hg), hdrop]

end Field

end PuyoChain
