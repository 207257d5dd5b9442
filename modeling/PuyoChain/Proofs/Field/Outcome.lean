import Mathlib.Algebra.BigOperators.Intervals
import Mathlib.Algebra.Order.BigOperators.Group.Finset
import Mathlib.Logic.Relation
import PuyoChain.Proofs.Field.Vanishing

/-!
# What comes of a chain

* `simulate_reaches_fixed_point`   a chain ends with a field that nothing changes any more;
* `Field.Pass`          one pass of the loop of a chain: a vanish that scores, and the fall after it;
* `Field.Consumed`      how the outcome so far is bounded by the puyos that are gone;
* `simulate_consumes`   the loop ends, in what `simulate` answers, and the bounds hold there.

Every pass takes four puyos of a normal color (`length_normalCells_step`) and scores
(`le_score_of_vanish?`), so it keeps `Consumed`, and no run of passes goes on forever.
-/

namespace PuyoChain

/-! ## the tables -/

theorem chainBonus_le (chain : Nat) : chainBonus chain ≤ 512 := by
  have hall : ∀ i < 20, chainBonuses.getD i 0 ≤ 512 := by decide
  exact hall _ (Nat.lt_succ_of_le (Nat.min_le_right chain 19))

theorem framesToFall_le {rows : Nat} (h : rows ≤ 12) : framesToFall rows ≤ 50 := by
  have hall : ∀ i < 13, framesToFall i ≤ 50 := by decide
  exact hall rows (Nat.lt_succ_of_le h)

/-- a step that erases four cells scores at least as much as one of a single bare group -/
theorem le_stepScore {erased : Nat} (h : 4 ≤ erased) (chain colors longBonuses : Nat) :
    40 * max 1 (chainBonus chain) ≤ stepScore chain erased colors longBonuses := by
  have hb := chainBonus_le chain
  calc 40 * max 1 (chainBonus chain)
      ≤ 40 * min 999 (max 1 (chainBonus chain + colorBonus colors + longBonuses)) :=
        Nat.mul_le_mul_left 40 (by omega)
    _ ≤ 10 * erased * min 999 (max 1 (chainBonus chain + colorBonus colors + longBonuses)) :=
        Nat.mul_le_mul_right _ (by omega)

theorem ChainResult.frames_afterStep (r : ChainResult) (score : Nat) {fall : Nat} (h : fall ≤ 12) :
    r.frames + 50 ≤ (r.afterStep score fall).frames ∧
      (r.afterStep score fall).frames ≤ r.frames + 110 := by
  have hfall := framesToFall_le h
  unfold ChainResult.afterStep vanishFrames groundingFrames
  dsimp only
  split <;> omega

namespace Field

variable {f g : Field} {chain n : Nat} {v : Vanish} {s t : Field × ChainResult}

/-! ## the end of a chain -/

theorem ChainsTo.fires_eq_false (h : f.ChainsTo n g) : g.fires = false := by
  induction h with
  | rest h => exact h
  | step _ _ ih => exact ih

theorem fires_simulate (f : Field) : f.simulate.1.fires = false :=
  f.chainsTo_simulate.fires_eq_false

theorem color_simulate_top (f : Field) (x : Nat) :
    f.simulate.1.color x 14 = f.color x 14 := by
  by_cases hx : 1 ≤ x ∧ x ≤ 6
  · obtain ⟨_, h⟩ := f.tracked_simulate
    exact h.top x hx
  · rw [color_of_not_column hx, color_of_not_column hx]

/-- a second chain has no step, and nothing falls in it -/
theorem simulate_simulate (f : Field) : f.simulate.1.simulate = (f.simulate.1, .zero) := by
  have hdrop := f.exact_simulate.drop_of_settled f.settled_simulate
  rw [simulate_of_fires_eq_false (by rw [hdrop]; exact f.fires_simulate), hdrop]

/-- **A chain reaches a fixed point.**  It leaves exact heights, no gap below row 14, row 14 as it
was, and no group that `fires` finds; a second chain then has no step and changes nothing.  There is
a step at all just if `fires` finds a group once everything has fallen. -/
theorem simulate_reaches_fixed_point (f : Field) :
    f.simulate.1.Exact ∧ f.simulate.1.Settled ∧
    (∀ x, f.simulate.1.color x 14 = f.color x 14) ∧
    f.simulate.1.fires = false ∧
    f.simulate.1.simulate = (f.simulate.1, .zero) ∧
    (0 < f.simulate.2.chains ↔ f.drop.1.fires = true) :=
  ⟨f.exact_simulate, f.settled_simulate, f.color_simulate_top, f.fires_simulate,
    f.simulate_simulate, f.chains_simulate_pos_iff_fires⟩

/-! ## what one vanish takes and gives -/

/-- the cells of rows 1 to 13 with puyos of normal colors -/
def normalCells (f : Field) : List Cell := f.cellsOf Color.isNormal

theorem exists_ripe_of_vanish? (h : f.vanish? chain = some v) :
    ∃ p, f.Ripe p ∧ f.group p ⊆ f.vanishingGroups.flatMap Group.cells := by
  obtain ⟨g, hg⟩ := List.exists_mem_of_ne_nil _ (eq_of_vanish? h).1
  obtain ⟨p, hp, rfl⟩ := eq_group_of_mem_vanishingGroups hg
  exact ⟨p, hp, fun q hq => List.mem_flatMap.mpr ⟨_, hg, hq⟩⟩

theorem Ripe.mem_normalCells {p q : Cell} (h : f.Ripe p) (hq : q ∈ f.group p) :
    q ∈ f.normalCells := by
  have hv := (visible_and_color_of_mem hq).1
  rw [Cell.isVisible_iff] at hv
  exact List.mem_filter.mpr ⟨(mem_fallingCells_iff q).mpr (by omega), (h.of_mem_group hq).1⟩

/-- every step takes four puyos of a normal color -/
theorem length_normalCells_step (h : f.vanish? chain = some v) :
    v.field.drop.1.normalCells.length + 4 ≤ f.normalCells.length := by
  obtain ⟨p, hp, hsub⟩ := exists_ripe_of_vanish? h
  have hgone : f.groupSize p ≤ (f.normalCells.filter fun q => !decide (q ∉ v.doomed)).length := by
    refine (f.nodup_group p).length_le_of_subset fun q hq => ?_
    have hmem : q ∈ v.doomed := by
      rw [doomed_of_vanish? h]
      exact List.mem_append_left _ (hsub hq)
    exact List.mem_filter.mpr ⟨hp.mem_normalCells hq, by simpa using hmem⟩
  have hleft : v.field.drop.1.normalCells.length =
      (f.normalCells.filter fun q => decide (q ∉ v.doomed)).length := by
    rw [normalCells, length_cellsOf_drop rfl, field_of_vanish? h, cellsOf_clear rfl]
    rfl
  have hsplit := f.normalCells.length_eq_length_filter_add fun q => decide (q ∉ v.doomed)
  have h4 := hp.2
  omega

theorem le_score_of_vanish? (h : f.vanish? chain = some v) :
    40 * max 1 (chainBonus chain) ≤ v.score := by
  obtain ⟨p, hp, hsub⟩ := exists_ripe_of_vanish? h
  rw [(eq_of_vanish? h).2.2.2]
  exact le_stepScore (Nat.le_trans hp.2 ((f.nodup_group p).length_le_of_subset hsub)) _ _ _

/-! ## one pass -/

/-- one pass of the loop of a chain: a vanish that scores, and the fall after it -/
def Pass (s t : Field × ChainResult) : Prop :=
  ∃ g score, s.1.vanish (s.2.chains + 1) = (g, score) ∧ score ≠ 0 ∧
    t = (g.drop.1, s.2.afterStep score g.drop.2)

/-- the score tells whether there is a vanish -/
theorem pass_iff (s t : Field × ChainResult) :
    Pass s t ↔ ∃ v, s.1.vanish? (s.2.chains + 1) = some v ∧
      t = (v.field.drop.1, s.2.afterStep v.score v.field.drop.2) := by
  constructor
  · rintro ⟨g, score, hv, hne, rfl⟩
    cases h : s.1.vanish? (s.2.chains + 1) with
    | none =>
      rw [vanish_of_vanish?_eq_none h] at hv
      exact absurd (congrArg Prod.snd hv).symm hne
    | some v =>
      rw [vanish_of_vanish?_eq_some h] at hv
      obtain ⟨rfl, rfl⟩ := Prod.mk.inj hv
      exact ⟨v, rfl, rfl⟩
  · rintro ⟨v, h, rfl⟩
    have hscore := le_score_of_vanish? h
    exact ⟨v.field, v.score, vanish_of_vanish?_eq_some h, by omega, rfl⟩

theorem rightUnique_pass : Relator.RightUnique Pass := by
  intro s t u ht hu
  obtain ⟨g, score, hv, _, ht⟩ := ht
  obtain ⟨g', score', hv', _, hu⟩ := hu
  obtain ⟨hg, hscore⟩ := Prod.mk.inj (hv.symm.trans hv')
  rw [ht, hu, hg, hscore]

theorem not_pass_iff (s : Field × ChainResult) : (∀ t, ¬ Pass s t) ↔ s.1.fires = false := by
  constructor
  · intro h
    by_contra hf
    obtain ⟨v, hv⟩ := exists_vanish? (Bool.not_eq_false _ ▸ hf) (s.2.chains + 1)
    exact h _ ((pass_iff s _).mpr ⟨v, hv, rfl⟩)
  · intro h t ht
    obtain ⟨v, hv, _⟩ := (pass_iff s t).mp ht
    rw [fires_of_vanish? hv] at h
    cases h

/-- no run of passes goes on forever, for every pass leaves fewer puyos of a normal color -/
theorem wellFounded_pass : WellFounded fun t s => Pass s t := by
  refine Subrelation.wf ?_ (measure fun s : Field × ChainResult => s.1.normalCells.length).wf
  intro t s h
  obtain ⟨v, hv, rfl⟩ := (pass_iff s t).mp h
  have := length_normalCells_step hv
  exact show v.field.drop.1.normalCells.length < s.1.normalCells.length by omega

/-- how the outcome so far is bounded by the puyos that a chain from `f` has taken -/
structure Consumed (f : Field) (s : Field × ChainResult) : Prop where
  normals : 4 * s.2.chains + s.1.normalCells.length ≤ f.normalCells.length
  le_score : ∑ k ∈ Finset.Icc 1 s.2.chains, 40 * max 1 (chainBonus k) ≤ s.2.score
  score_of_rest : s.2.chains = 0 → s.2.score = 0
  le_frames : 50 * s.2.chains ≤ s.2.frames
  frames_le : s.2.frames ≤ 110 * s.2.chains

theorem consumed_drop (f : Field) : f.Consumed (f.drop.1, .zero) where
  normals := Nat.le_of_eq ((Nat.zero_add _).trans (length_cellsOf_drop rfl f))
  le_score := Nat.le_refl 0
  score_of_rest _ := rfl
  le_frames := Nat.le_refl 0
  frames_le := Nat.le_refl 0

theorem Consumed.pass (h : f.Consumed s) (ht : Pass s t) : f.Consumed t := by
  obtain ⟨v, hv, rfl⟩ := (pass_iff s t).mp ht
  have hnormals := length_normalCells_step hv
  have hframes := s.2.frames_afterStep v.score v.field.fall_drop_le
  obtain ⟨hn, hscore, _, hlo, hhi⟩ := h
  constructor <;> dsimp only [ChainResult.chains_afterStep, ChainResult.score_afterStep]
  · omega
  · rw [Finset.sum_Icc_succ_top (Nat.le_add_left 1 _)]
    exact Nat.add_le_add hscore (le_score_of_vanish? hv)
  · exact fun h0 => absurd h0 (Nat.succ_ne_zero _)
  · omega
  · omega

/-! ## a run of passes -/

theorem Consumed.run (h : f.Consumed s) (ht : Relation.ReflTransGen Pass s t) : f.Consumed t := by
  induction ht with
  | refl => exact h
  | tail _ hp ih => exact ih.pass hp

theorem run_cascade (fuel : Nat) (f : Field) (r : ChainResult) :
    Relation.ReflTransGen Pass (f, r) (cascade fuel f r) := by
  induction fuel generalizing f r with
  | zero => exact .refl
  | succ fuel ih =>
    cases h : f.vanish? (r.chains + 1) with
    | none => rw [cascade_of_vanish?_eq_none h]
    | some v =>
      rw [cascade_of_vanish?_eq_some h]
      exact (ih _ _).head ((pass_iff _ _).mpr ⟨v, h, rfl⟩)

/-- a run ends in one place only -/
theorem eq_of_run {u : Field × ChainResult} (ht : Relation.ReflTransGen Pass s t)
    (hu : Relation.ReflTransGen Pass s u) (htend : ∀ w, ¬ Pass t w) (huend : ∀ w, ¬ Pass u w) :
    t = u := by
  rcases Relation.ReflTransGen.total_of_right_unique rightUnique_pass ht hu with h | h
  · rcases h.cases_head with e | ⟨w, hw, _⟩
    · exact e
    · exact absurd hw (htend w)
  · rcases h.cases_head with e | ⟨w, hw, _⟩
    · exact e.symm
    · exact absurd hw (huend w)

/-- the loop ends in what `simulate` answers -/
theorem run_ends_iff (f : Field) (s : Field × ChainResult) :
    (Relation.ReflTransGen Pass (f.drop.1, .zero) s ∧ ∀ t, ¬ Pass s t) ↔ s = f.simulate := by
  have hrun := run_cascade stepBound f.drop.1 .zero
  have hend := (not_pass_iff f.simulate).mpr f.fires_simulate
  constructor
  · rintro ⟨hs, hsend⟩
    exact eq_of_run hs hrun hsend hend
  · intro h
    rw [h]
    exact ⟨hrun, hend⟩

theorem consumed_simulate (f : Field) : f.Consumed f.simulate :=
  f.consumed_drop.run ((f.run_ends_iff f.simulate).mpr rfl).1

theorem Consumed.chains_le (h : f.Consumed s) : s.2.chains ≤ 19 := by
  have := h.normals
  have : f.normalCells.length ≤ 78 := f.length_cellsOf_le _
  omega

theorem Consumed.score_eq_zero_iff (h : f.Consumed s) : s.2.score = 0 ↔ s.2.chains = 0 := by
  refine ⟨fun h0 => ?_, h.score_of_rest⟩
  by_contra hne
  have hone : 1 ∈ Finset.Icc 1 s.2.chains := Finset.mem_Icc.mpr (by omega)
  have hle := Finset.single_le_sum (fun k _ => Nat.zero_le (40 * max 1 (chainBonus k))) hone
  have := h.le_score
  omega

theorem Consumed.frames_eq_zero_iff (h : f.Consumed s) : s.2.frames = 0 ↔ s.2.chains = 0 := by
  have := h.le_frames
  have := h.frames_le
  omega

/-- **A chain ends, and its outcome is bounded by what it consumed.**  No run of the loop goes on
forever, and the run from the fallen field ends in what `simulate` answers and nowhere else.  Every
step takes four puyos of a normal color, so there are at most 19 of them, and a track notes the
number of each without wrapping; every step scores and takes its frames. -/
theorem simulate_consumes (f : Field) :
    WellFounded (fun t s => Pass s t) ∧
    (∀ s, (Relation.ReflTransGen Pass (f.drop.1, .zero) s ∧ ∀ t, ¬ Pass s t) ↔ s = f.simulate) ∧
    4 * f.simulate.2.chains + f.simulate.1.normalCells.length ≤ f.normalCells.length ∧
    f.simulate.2.chains ≤ 19 ∧
    (∀ k ≤ f.simulate.2.chains, ∀ (t : EraseTrack) (x y : Nat), x < 8 ∧ y < 16 →
      (t.set x y k).erasedAt x y = k) ∧
    ∑ k ∈ Finset.Icc 1 f.simulate.2.chains, 40 * max 1 (chainBonus k) ≤ f.simulate.2.score ∧
    (f.simulate.2.chains = 0 ↔ f.simulate.2.score = 0) ∧
    (f.simulate.2.score = 0 ↔ f.simulate.2.frames = 0) ∧
    50 * f.simulate.2.chains ≤ f.simulate.2.frames ∧
    f.simulate.2.frames ≤ 110 * f.simulate.2.chains := by
  have h := f.consumed_simulate
  have hmax := h.chains_le
  refine ⟨wellFounded_pass, f.run_ends_iff, h.normals, hmax, fun k hk t x y hin => ?_, h.le_score,
    h.score_eq_zero_iff.symm, h.score_eq_zero_iff.trans h.frames_eq_zero_iff.symm, h.le_frames,
    h.frames_le⟩
  rw [EraseTrack.erasedAt_set _ _ _ _ _ _ hin, if_pos ⟨rfl, rfl⟩]
  exact Nat.mod_eq_of_lt (by omega)

end Field

end PuyoChain
