import PuyoChain.Proofs.EraseTrack
import PuyoChain.Proofs.Field.Firing
import PuyoChain.Proofs.Field.Origins

/-!
# What a track says about a chain

* `Field.remaining`   the rows of a column with puyos that no step has erased;
* `Field.Tracked`     what a field, the start rows of its puyos and a track have to do with the field
                      from which the chain started;
* `EraseTrack.Accounts`   a track tells all about the chain of a field;
* `simulateTracked_accounts`   the track of a chain does.

A step of a chain keeps `Tracked` (`Tracked.step`): in a tracked field no two puyos of one column
have one start row, so the cells that vanish are those whose start rows the step notes.
-/

namespace PuyoChain

/-! ## noting a step -/

theorem StartRows.erasedAt_markCell (o : StartRows) (p : Cell) (t : EraseTrack)
    (chain x r : Nat) :
    (if o.get p = 0 then t else t.set p.x (o.get p) chain).erasedAt x r =
      if (x < 8 ∧ r < 16) ∧ r ≠ 0 ∧ p.x = x ∧ o.get p = r then chain % 256 else t.erasedAt x r := by
  by_cases h0 : o.get p = 0
  · rw [if_pos h0, if_neg]
    rintro ⟨_, hr, _, e⟩
    exact hr (e.symm.trans h0)
  rw [if_neg h0]
  by_cases hp : p.x < 8 ∧ o.get p < 16
  · rw [EraseTrack.erasedAt_set _ _ _ _ _ _ hp]
    by_cases e : x = p.x ∧ r = o.get p
    · rw [if_pos e, if_pos ⟨by rwa [e.1, e.2], by rwa [e.2], e.1.symm, e.2.symm⟩]
    · rw [if_neg e, if_neg fun h => e ⟨h.2.2.1.symm, h.2.2.2.symm⟩]
  · rw [EraseTrack.set_of_not_lt _ _ _ _ hp, if_neg]
    rintro ⟨hxr, _, rfl, rfl⟩
    exact hp hxr

theorem StartRows.erasedAt_mark (o : StartRows) (doomed : List Cell) (t : EraseTrack)
    (chain x r : Nat) :
    (o.mark chain doomed t).erasedAt x r =
      if (x < 8 ∧ r < 16) ∧ r ≠ 0 ∧ ∃ p ∈ doomed, p.x = x ∧ o.get p = r then chain % 256
      else t.erasedAt x r := by
  induction doomed generalizing t with
  | nil =>
    rw [if_neg (by simp)]
    rfl
  | cons p ps ih =>
    have hcons : ((x < 8 ∧ r < 16) ∧ r ≠ 0 ∧ ∃ q ∈ p :: ps, q.x = x ∧ o.get q = r) ↔
        ((x < 8 ∧ r < 16) ∧ r ≠ 0 ∧ p.x = x ∧ o.get p = r) ∨
          ((x < 8 ∧ r < 16) ∧ r ≠ 0 ∧ ∃ q ∈ ps, q.x = x ∧ o.get q = r) := by
      rw [List.exists_mem_cons_iff, and_or_left, and_or_left]
    show (o.mark chain ps (if o.get p = 0 then t else t.set p.x (o.get p) chain)).erasedAt x r = _
    rw [ih, erasedAt_markCell]
    by_cases hm : (x < 8 ∧ r < 16) ∧ r ≠ 0 ∧ ∃ q ∈ ps, q.x = x ∧ o.get q = r
    · rw [if_pos hm, if_pos (hcons.mpr (Or.inr hm))]
    · rw [if_neg hm]
      by_cases e : (x < 8 ∧ r < 16) ∧ r ≠ 0 ∧ p.x = x ∧ o.get p = r
      · rw [if_pos e, if_pos (hcons.mpr (Or.inl e))]
      · rw [if_neg e, if_neg fun h => (hcons.mp h).elim e hm]

namespace Field

/-! ## the cells that vanish -/

theorem exists_group_of_mem_vanishingGroups {f : Field} {g : Group} (hg : g ∈ f.vanishingGroups) :
    ∃ p, g.cells = f.group p ∧ 4 ≤ f.groupSize p := by
  obtain ⟨hg, hv⟩ := List.mem_filter.mp hg
  obtain ⟨p, _, _, rfl⟩ := mem_groupsFrom hg
  exact ⟨p, rfl, (f.vanishes_iff p).mp hv⟩

theorem filled_of_mem_doomed {f : Field} {chain : Nat} {v : Vanish} (h : f.vanish? chain = some v)
    {p : Cell} (hp : p ∈ v.doomed) : p.isVisible = true ∧ f.colorAt p ≠ .empty := by
  rw [doomed_of_vanish? h, List.mem_append] at hp
  rcases hp with hp | hp
  · obtain ⟨g, hg, hp⟩ := List.mem_flatMap.mp hp
    obtain ⟨q, hq, _⟩ := exists_group_of_mem_vanishingGroups hg
    rw [hq] at hp
    have hj := (f.canJoin_iff p).mp (canJoin_of_mem hp)
    exact ⟨hj.1, hj.2.1⟩
  · obtain ⟨q, _, hp⟩ := List.mem_flatMap.mp hp
    obtain ⟨_, hv, hc⟩ := (f.mem_joined_iff _ q p).mp hp
    exact ⟨hv, by rw [hc]; decide⟩

theorem exists_group_subset_doomed {f : Field} {chain : Nat} {v : Vanish}
    (h : f.vanish? chain = some v) : ∃ p, 4 ≤ f.groupSize p ∧ f.group p ⊆ v.doomed := by
  obtain ⟨g, hg⟩ := List.exists_mem_of_ne_nil _ (eq_of_vanish? h).1
  obtain ⟨p, hp, h4⟩ := exists_group_of_mem_vanishingGroups hg
  refine ⟨p, h4, fun q hq => ?_⟩
  rw [doomed_of_vanish? h]
  exact List.mem_append_left _ (List.mem_flatMap.mpr ⟨g, hg, by rwa [hp]⟩)

/-! ## tracked fields -/

/-- the rows 1 to 13 of column `x` with puyos that no step has erased -/
def remaining (f : Field) (t : EraseTrack) (x : Nat) : List Nat :=
  (f.filledRows x).filter fun r => t.erasedAt x r == 0

/-- the field `g`, its start rows and the track are what `n` steps of the chain of `f` lead to -/
structure Tracked (f : Field) (n : Nat) (g : Field) (o : StartRows) (t : EraseTrack) : Prop where
  /-- every column has the puyos that no step has erased, in their order -/
  survivors : ∀ x, 1 ≤ x ∧ x ≤ 6 →
    g.traced o x = (f.remaining t x).map fun r => (f.color x r, r)
  top : ∀ x, 1 ≤ x ∧ x ≤ 6 → g.color x 14 = f.color x 14
  filled : ∀ x r, t.erasedAt x r ≠ 0 → (1 ≤ x ∧ x ≤ 6) ∧ r ∈ f.filledRows x
  enough : ∀ k, 1 ≤ k → k ≤ n → 4 ≤ t.countErased k
  erasedAt_le : ∀ x r, t.erasedAt x r ≤ n

variable {f g : Field} {o : StartRows} {t : EraseTrack} {n x : Nat}

theorem mem_remaining_iff (f : Field) (t : EraseTrack) (x r : Nat) :
    r ∈ f.remaining t x ↔ r ∈ f.filledRows x ∧ t.erasedAt x r = 0 := by
  rw [remaining, List.mem_filter, beq_iff_eq]

theorem nodup_remaining (f : Field) (t : EraseTrack) (x : Nat) : (f.remaining t x).Nodup :=
  (f.nodup_filledRows x).sublist List.filter_sublist

theorem tracked_drop (f : Field) : Tracked f 0 f.drop.1 ((StartRows.ofField f).drop f) .empty where
  survivors x hx := by
    have hall : f.remaining .empty x = f.filledRows x :=
      List.filter_eq_self.mpr fun r _ => beq_iff_eq.mpr (EraseTrack.erasedAt_empty x r)
    rw [traced_drop hx, hall]
    refine List.map_congr_left fun y hy => ?_
    obtain ⟨hrow, hne⟩ := (f.mem_filledRows_iff x y).mp hy
    have hin : (⟨x, y⟩ : Cell).inField = true :=
      (Cell.inField_iff _).mpr ⟨hx, hrow.1, Nat.le_succ_of_le hrow.2⟩
    rw [StartRows.get_ofField f _ hin, if_neg (show ¬ f.colorAt ⟨x, y⟩ = .empty from hne)]
  top x hx := color_drop_top hx f
  filled x r h := absurd (EraseTrack.erasedAt_empty x r) h
  enough k h1 h0 := by omega
  erasedAt_le x r := Nat.le_of_eq (EraseTrack.erasedAt_empty x r)

namespace Tracked

variable (h : Tracked f n g o t)
include h

theorem map_get (hx : 1 ≤ x ∧ x ≤ 6) :
    ((g.filledRows x).map fun y => o.get ⟨x, y⟩) = f.remaining t x := by
  have hs := congrArg (List.map Prod.snd) (h.survivors x hx)
  rw [traced, List.map_map, List.map_map] at hs
  exact hs.trans (List.map_id' _)

theorem get_mem (hx : 1 ≤ x ∧ x ≤ 6) {y : Nat} (hy : y ∈ g.filledRows x) :
    o.get ⟨x, y⟩ ∈ f.remaining t x := by
  rw [← h.map_get hx]
  exact List.mem_map_of_mem hy

/-- no two puyos of one column have one start row -/
theorem get_inj (hx : 1 ≤ x ∧ x ≤ 6) {y z : Nat} (hy : y ∈ g.filledRows x)
    (hz : z ∈ g.filledRows x) (e : o.get ⟨x, y⟩ = o.get ⟨x, z⟩) : y = z := by
  have hn := f.nodup_remaining t x
  rw [← h.map_get hx] at hn
  exact List.inj_on_of_nodup_map hn hy hz e

/-! ## one step -/

variable {doomed : List Cell} (hd : ∀ p ∈ doomed, (1 ≤ p.x ∧ p.x ≤ 6) ∧ p.y ∈ g.filledRows p.x)
include hd

theorem erasedAt_mark (chain x r : Nat) : (o.mark chain doomed t).erasedAt x r =
    if r ≠ 0 ∧ ∃ p ∈ doomed, p.x = x ∧ o.get p = r then chain % 256 else t.erasedAt x r := by
  rw [StartRows.erasedAt_mark]
  refine if_congr (and_iff_right_of_imp ?_) rfl rfl
  rintro ⟨_, p, hp, rfl, rfl⟩
  obtain ⟨hx, hy⟩ := hd p hp
  have hmem := ((mem_remaining_iff f t p.x _).mp (h.get_mem hx hy)).1
  have hrow := ((mem_filledRows_iff f p.x _).mp hmem).1
  exact ⟨by omega, Nat.lt_of_le_of_lt hrow.2 (by decide)⟩

theorem remaining_of_marked {r : Nat} (hm : ∃ p ∈ doomed, p.x = x ∧ o.get p = r) :
    (1 ≤ x ∧ x ≤ 6) ∧ r ∈ f.remaining t x := by
  obtain ⟨p, hp, rfl, rfl⟩ := hm
  obtain ⟨hx, hy⟩ := hd p hp
  exact ⟨hx, h.get_mem hx hy⟩

/-- the puyos of a column that do not vanish are those whose start rows the step does not note -/
theorem remaining_mark {chain : Nat} (hc : chain % 256 ≠ 0) (x : Nat) :
    f.remaining (o.mark chain doomed t) x =
      (f.remaining t x).filter fun r => decide (¬ ∃ p ∈ doomed, p.x = x ∧ o.get p = r) := by
  rw [remaining, remaining, List.filter_filter]
  refine List.filter_congr fun r hr => ?_
  have hrow := ((mem_filledRows_iff f x r).mp hr).1
  rw [h.erasedAt_mark hd]
  by_cases hm : ∃ p ∈ doomed, p.x = x ∧ o.get p = r
  · rw [if_pos ⟨by omega, hm⟩, beq_false_of_ne hc, decide_eq_false (not_not.mpr hm), Bool.false_and]
  · rw [if_neg fun e => hm e.2, decide_eq_true hm, Bool.true_and]

theorem survivors_step {chain : Nat} (hc : chain % 256 ≠ 0) (hx : 1 ≤ x ∧ x ≤ 6) :
    (g.clear doomed).drop.1.traced ((o.clear doomed).drop (g.clear doomed)) x =
      (f.remaining (o.mark chain doomed t) x).map fun r => (f.color x r, r) := by
  -- start rows tell the puyos of a column apart, so a cell vanishes just if its start row is noted
  have hstart : ∀ y ∈ g.filledRows x,
      (⟨x, y⟩ ∈ doomed ↔ ∃ p ∈ doomed, p.x = x ∧ o.get p = o.get ⟨x, y⟩) := by
    intro y hy
    refine ⟨fun hm => ⟨_, hm, rfl, rfl⟩, ?_⟩
    rintro ⟨⟨z, w⟩, hp, rfl, e⟩
    rwa [← h.get_inj hx (hd _ hp).2 hy e]
  rw [traced_drop hx, traced_clear hx, h.remaining_mark hd hc]
  calc ((g.filledRows x).filter fun y => decide (⟨x, y⟩ ∉ doomed)).map
        (fun y => (g.color x y, o.get ⟨x, y⟩))
      = (g.traced o x).filter fun e => decide (¬ ∃ p ∈ doomed, p.x = x ∧ o.get p = e.2) := by
        rw [traced, List.filter_map]
        refine congrArg (List.map _) (List.filter_congr fun y hy => ?_)
        exact decide_eq_decide.mpr (not_congr (hstart y hy))
    _ = _ := by
        rw [h.survivors x hx, List.filter_map]
        rfl

theorem groupSize_le_countErased {p : Cell} (hp : g.group p ⊆ doomed) (hn : n + 1 < 256) :
    g.groupSize p ≤ (o.mark (n + 1) doomed t).countErased (n + 1) := by
  have hsize : ((g.group p).map fun q => (⟨q.x, o.get q⟩ : Cell)).length = g.groupSize p :=
    List.length_map _
  rw [← hsize]
  refine EraseTrack.length_le_countErased ?_ (by omega) fun q hq => ?_
  · refine (List.nodup_map_iff_inj_on (g.nodup_group p)).mpr fun q hq r hr e => ?_
    obtain ⟨qx, qy⟩ := q
    obtain ⟨rx, ry⟩ := r
    obtain ⟨rfl, e⟩ := Cell.mk.inj e
    exact congrArg (Cell.mk qx) (h.get_inj (hd _ (hp hq)).1 (hd _ (hp hq)).2 (hd _ (hp hr)).2 e)
  · obtain ⟨r, hr, rfl⟩ := List.mem_map.mp hq
    obtain ⟨hx, hy⟩ := hd r (hp hr)
    have hmem := ((mem_remaining_iff f t r.x _).mp (h.get_mem hx hy)).1
    have hrow := ((mem_filledRows_iff f r.x _).mp hmem).1
    rw [h.erasedAt_mark hd, if_pos ⟨Nat.ne_of_gt hrow.1, r, hp hr, rfl, rfl⟩, Nat.mod_eq_of_lt hn]

theorem step (hn : n + 1 < 256) (hg : ∃ p, 4 ≤ g.groupSize p ∧ g.group p ⊆ doomed) :
    Tracked f (n + 1) (g.clear doomed).drop.1 ((o.clear doomed).drop (g.clear doomed))
      (o.mark (n + 1) doomed t) where
  survivors x hx := h.survivors_step hd (by rw [Nat.mod_eq_of_lt hn]; omega) hx
  top x hx := by
    rw [color_drop_top hx, color_clear g doomed x 14 hx (by omega), if_neg, h.top x hx]
    intro hm
    have hrow := ((mem_filledRows_iff g x 14).mp (hd _ hm).2).1
    omega
  filled x r he := by
    rw [h.erasedAt_mark hd] at he
    by_cases hm : r ≠ 0 ∧ ∃ p ∈ doomed, p.x = x ∧ o.get p = r
    · obtain ⟨hx, hr⟩ := h.remaining_of_marked hd hm.2
      exact ⟨hx, ((mem_remaining_iff f t x r).mp hr).1⟩
    · rw [if_neg hm] at he
      exact h.filled x r he
  enough k h1 hk := by
    by_cases e : k = n + 1
    · obtain ⟨p, h4, hp⟩ := hg
      rw [e]
      exact Nat.le_trans h4 (h.groupSize_le_countErased hd hp hn)
    -- what was erased before keeps its number, for a step notes only what was not
    · refine Nat.le_trans (h.enough k h1 (by omega)) ?_
      refine EraseTrack.countErased_le (by omega) fun x r hr => ?_
      rw [h.erasedAt_mark hd, if_neg, hr]
      rintro ⟨_, hm⟩
      have h0 := ((mem_remaining_iff f t x r).mp (h.remaining_of_marked hd hm).2).2
      omega
  erasedAt_le x r := by
    have hle := h.erasedAt_le x r
    have hmod := Nat.mod_le (n + 1) 256
    rw [h.erasedAt_mark hd]
    split <;> omega

end Tracked

/-! ## the whole chain -/

theorem filledRows_of_mem_doomed {chain : Nat} {v : Vanish} (hv : g.vanish? chain = some v) :
    ∀ p ∈ v.doomed, (1 ≤ p.x ∧ p.x ≤ 6) ∧ p.y ∈ g.filledRows p.x := by
  intro p hp
  obtain ⟨hvis, hne⟩ := filled_of_mem_doomed hv hp
  obtain ⟨hx, hy⟩ := (Cell.isVisible_iff p).mp hvis
  exact ⟨hx, (mem_filledRows_iff g p.x p.y).mpr ⟨⟨hy.1, Nat.le_succ_of_le hy.2⟩, hne⟩⟩

theorem Tracked.cascade {fuel : Nat} {r : ChainResult} (h : Tracked f r.chains g o t)
    (hn : r.chains + fuel < 256) : ∃ o', Tracked f (cascadeTracked fuel g o r t).2.1.chains
      (cascadeTracked fuel g o r t).1 o' (cascadeTracked fuel g o r t).2.2 := by
  -- the steps done and the fuel left add up to the same, so the number of every step fits in a byte
  induction fuel generalizing g o r t with
  | zero => exact ⟨o, h⟩
  | succ fuel ih =>
    unfold cascadeTracked
    cases hv : g.vanish? (r.chains + 1) with
    | none => exact ⟨o, h⟩
    | some v =>
      have hstep := h.step (filledRows_of_mem_doomed hv) (by omega) (exists_group_subset_doomed hv)
      rw [← field_of_vanish? hv] at hstep
      refine ih (r := r.afterStep v.score v.field.drop.2) hstep ?_
      rw [ChainResult.chains_afterStep]
      omega

theorem tracked_simulate (f : Field) :
    ∃ o, Tracked f f.simulate.2.chains f.simulate.1 o (f.simulateTracked .empty).2.2 := by
  have h : ∃ o, Tracked f (f.simulateTracked .empty).2.1.chains (f.simulateTracked .empty).1 o
      (f.simulateTracked .empty).2.2 := by
    unfold simulateTracked
    exact f.tracked_drop.cascade (r := .zero) (by decide)
  rwa [simulateTracked_field, simulateTracked_result] at h

/-- what a chain leaves is what falls once the cells that it erased are emptied -/
theorem Tracked.eq_drop (h : Tracked f n g o t) (he : g.Exact) (hs : g.Settled) :
    g = (f.clear t.erasedCells).drop.1 := by
  rw [← he.drop_of_settled hs]
  refine drop_congr (fun x hx => ?_) fun x hx => ?_
  · have hg := congrArg (List.map Prod.fst) (h.survivors x hx)
    rw [traced, List.map_map, List.map_map] at hg
    have hrows : (f.clear t.erasedCells).filledRows x = f.remaining t x := by
      rw [filledRows_clear hx, remaining]
      refine List.filter_congr fun r _ => ?_
      by_cases e : t.erasedAt x r = 0 <;> simp [EraseTrack.mem_erasedCells_iff, e]
    rw [hrows]
    refine hg.trans (List.map_congr_left fun r hr => ?_)
    obtain ⟨hr, h0⟩ := (mem_remaining_iff f t x r).mp hr
    have hrow := ((mem_filledRows_iff f x r).mp hr).1
    rw [color_clear f _ x r hx ⟨hrow.1, by omega⟩, if_neg]
    · rfl
    · rw [EraseTrack.mem_erasedCells_iff]
      exact not_not.mpr h0
  · rw [h.top x hx, color_clear f _ x 14 hx (by omega), if_neg]
    rw [EraseTrack.mem_erasedCells_iff]
    intro hne
    have hrow := ((mem_filledRows_iff f x 14).mp (h.filled x 14 hne).2).1
    omega

end Field

/-- the track tells all about the chain of the field: which of its puyos a step erased, of each step
at least four, and what is left -/
structure EraseTrack.Accounts (t : EraseTrack) (f : Field) : Prop where
  filled : ∀ x y, t.erasedAt x y ≠ 0 →
    (1 ≤ x ∧ x ≤ 6) ∧ (1 ≤ y ∧ y ≤ 13) ∧ f.color x y ≠ .empty
  enough : ∀ k, 1 ≤ k → k ≤ f.simulate.2.chains → 4 ≤ t.countErased k
  noOther : ∀ k, ¬ (1 ≤ k ∧ k ≤ f.simulate.2.chains) → t.countErased k = 0
  left : f.simulate.1 = (f.clear t.erasedCells).drop.1

namespace Field

/-- **The track of a chain accounts for all of it.**  With an empty track, tracking changes neither
the field nor the outcome of any chain, and the track then tells which puyos the chain erased and
when; those that it did not erase fall just as if the others had been taken away at once. -/
theorem simulateTracked_accounts (f : Field) :
    ((f.simulateTracked .empty).1, (f.simulateTracked .empty).2.1) = f.simulate ∧
      (f.simulateTracked .empty).2.2.Accounts f := by
  obtain ⟨o, h⟩ := f.tracked_simulate
  refine ⟨f.simulateTracked_eq .empty, fun x y he => ?_, h.enough, fun k hk => ?_,
    h.eq_drop f.exact_simulate f.settled_simulate⟩
  · obtain ⟨hx, hy⟩ := h.filled x y he
    exact ⟨hx, (mem_filledRows_iff f x y).mp hy⟩
  · refine EraseTrack.countErased_eq_zero fun x y hk0 e => hk ⟨by omega, ?_⟩
    rw [← e]
    exact h.erasedAt_le x y

end Field

end PuyoChain
