import Mathlib.Logic.Function.Basic
import PuyoChain.Proofs.Candidate.Growing
import PuyoChain.Proofs.Field.Firing

/-!
# Extending groups misses no minimal completion

* `columnRuns`, `Field.stacked`   puyos of one color on several columns, a number of them on each;
* `Field.Completes`               a stacking makes a puyo of the field part of a vanishing group;
* `exists_detected_of_minimal`    the field of a stacking that completes, and none below which does,
                                  is detected.

The stacking is built up by filling columns to single cells.  As long as it is not whole, the group
of the puyo has a neighbor in the rest of it (`exists_growthCell`): filling up to that cell stays
inside the stacking and makes the group larger, so three such steps are enough (`exists_mem_grow`).
-/

namespace PuyoChain

/-- `n x` puyos of one color on every column `x`, column by column -/
def columnRuns (a : Color) (n : Nat → Nat) : List Addition :=
  fieldColumns.flatMap fun x => List.replicate (n x) ⟨x, a⟩

/-- the number of puyos in all columns together -/
def columnTotal (n : Nat → Nat) : Nat := n 1 + n 2 + n 3 + n 4 + n 5 + n 6

namespace Field

/-- the field with `n x` puyos of one color on every column `x` -/
def stacked (f : Field) (a : Color) (n : Nat → Nat) : Field := f.placeAll (columnRuns a n)

/-- with the stacking, a puyo that the field holds is in a vanishing group of the color -/
def Completes (f : Field) (a : Color) (n : Nat → Nat) : Prop :=
  ∃ p, f.colorAt p = a ∧ 4 ≤ (f.stacked a n).groupSize p

end Field

variable {f : Field} {a : Color} {m n : Nat → Nat} {x : Nat}

/-! ## stackings -/

theorem filter_columnRuns (hx : 1 ≤ x ∧ x ≤ 6) (a : Color) (n : Nat → Nat) :
    ((columnRuns a n).filter fun e => e.x == x) = List.replicate (n x) ⟨x, a⟩ := by
  have hcases : x = 1 ∨ x = 2 ∨ x = 3 ∨ x = 4 ∨ x = 5 ∨ x = 6 := by omega
  rcases hcases with rfl | rfl | rfl | rfl | rfl | rfl <;>
    simp [columnRuns, fieldColumns, List.filter_append]

theorem columnRuns_congr (h : ∀ x, 1 ≤ x ∧ x ≤ 6 → m x = n x) : columnRuns a m = columnRuns a n :=
  List.flatMap_congr fun x hx => by rw [h x ((mem_fieldColumns_iff x).mp hx)]

theorem columnTotal_mono (h : ∀ x, 1 ≤ x ∧ x ≤ 6 → m x ≤ n x) : columnTotal m ≤ columnTotal n := by
  have h1 := h 1 (by omega)
  have h2 := h 2 (by omega)
  have h3 := h 3 (by omega)
  have h4 := h 4 (by omega)
  have h5 := h 5 (by omega)
  have h6 := h 6 (by omega)
  unfold columnTotal
  omega

theorem columnTotal_le {b : Nat} (h : ∀ x, 1 ≤ x ∧ x ≤ 6 → n x ≤ b) : columnTotal n ≤ 6 * b := by
  have hb : columnTotal (fun _ => b) = 6 * b := by
    show b + b + b + b + b + b = 6 * b
    omega
  rw [← hb]
  exact columnTotal_mono h

theorem columnTotal_update (hx : 1 ≤ x ∧ x ≤ 6) (m : Nat → Nat) (k : Nat) :
    columnTotal (Function.update m x (m x + k)) = columnTotal m + k := by
  have hcases : x = 1 ∨ x = 2 ∨ x = 3 ∨ x = 4 ∨ x = 5 ∨ x = 6 := by omega
  unfold columnTotal
  rcases hcases with rfl | rfl | rfl | rfl | rfl | rfl <;> simp <;> omega

theorem update_le {k z : Nat} (hk : k ≤ n x) (hle : m z ≤ n z) : Function.update m x k z ≤ n z := by
  by_cases e : z = x
  · rw [e, Function.update_self]
    exact hk
  · rw [Function.update_of_ne e]
    exact hle

namespace Field

theorem column?_stacked (hx : 1 ≤ x ∧ x ≤ 6) (f : Field) (a : Color) (n : Nat → Nat) :
    (f.stacked a n).column? x = (f.placeAll (List.replicate (n x) ⟨x, a⟩)).column? x := by
  rw [stacked, column?_placeAll_filter, filter_columnRuns hx]

theorem height_stacked (hx : 1 ≤ x ∧ x ≤ 6) (f : Field) (a : Color) (n : Nat → Nat) :
    (f.stacked a n).height x = f.height x + n x := by
  rw [height_congr_column? (column?_stacked hx f a n), height_run hx, if_pos rfl]

theorem color_stacked (hx : 1 ≤ x ∧ x ≤ 6) (a : Color) (hroom : f.height x + n x ≤ 14) (y : Nat) :
    (f.stacked a n).color x y =
      if f.height x < y ∧ y ≤ f.height x + n x then a else f.color x y := by
  rw [color_congr_column? (column?_stacked hx f a n), color_run hx a hroom]
  simp only [true_and]

theorem stacked_zero (f : Field) (a : Color) : f.stacked a (fun _ => 0) = f := rfl

theorem stacked_congr (h : ∀ x, 1 ≤ x ∧ x ≤ 6 → m x = n x) : f.stacked a m = f.stacked a n := by
  rw [stacked, stacked, columnRuns_congr h]

theorem placeAll_stacked (hx : 1 ≤ x ∧ x ≤ 6) (f : Field) (a : Color) (m : Nat → Nat) (k : Nat) :
    (f.stacked a m).placeAll (List.replicate k ⟨x, a⟩) =
      f.stacked a (Function.update m x (m x + k)) := by
  refine ext_column? fun z => ?_
  by_cases hz : 1 ≤ z ∧ z ≤ 6
  · rw [stacked, ← placeAll_append, column?_placeAll_filter, column?_stacked hz,
      List.filter_append, filter_columnRuns hz, List.filter_replicate]
    by_cases e : z = x
    · subst e
      simp
    · simp [Ne.symm e, Function.update_of_ne e]
  · rw [column?_of_not_column hz, column?_of_not_column hz]

theorem fillUpTo_stacked {q : Cell} (hx : 1 ≤ q.x ∧ q.x ≤ 6) (f : Field) (a : Color)
    (m : Nat → Nat) : (f.stacked a m).fillUpTo a q =
      f.stacked a (Function.update m q.x (m q.x + (q.y - (f.stacked a m).height q.x))) :=
  placeAll_stacked hx f a m _

theorem Covered.stacked (hf : f.Covered) (a : Color)
    (hroom : ∀ x, 1 ≤ x ∧ x ≤ 6 → f.height x + n x ≤ 14) : (f.stacked a n).Covered := by
  refine hf.placeAll (fits_of_room (fun e he => ?_) fun x hx => ?_)
  · obtain ⟨x, hx, he⟩ := List.mem_flatMap.mp he
    rw [List.eq_of_mem_replicate he]
    exact (mem_fieldColumns_iff x).mp hx
  · rw [List.countP_eq_length_filter, filter_columnRuns hx, List.length_replicate]
    exact hroom x hx

theorem Covered.keptIn_stacked (hf : f.Covered) (a : Color)
    (hroom : ∀ x, 1 ≤ x ∧ x ≤ 6 → f.height x + n x ≤ 14)
    (hle : ∀ x, 1 ≤ x ∧ x ≤ 6 → m x ≤ n x) : (f.stacked a m).KeptIn (f.stacked a n) := by
  intro p hv hne
  rw [Cell.isVisible_iff] at hv
  have hr := hroom p.x hv.1
  have hl := hle p.x hv.1
  unfold colorAt at hne ⊢
  have hcm := color_stacked (f := f) (n := m) hv.1 a (by omega) p.y
  rw [hcm] at hne
  rw [color_stacked hv.1 a hr, hcm]
  by_cases hm : f.height p.x < p.y ∧ p.y ≤ f.height p.x + m p.x
  · rw [if_pos hm, if_pos (by omega)]
  · rw [if_neg hm] at hne ⊢
    have hy := hf.le_height hv.1 (by omega) hne
    rw [if_neg (by omega)]

theorem Covered.not_completes (hf : f.Covered)
    (hroom : ∀ x, 1 ≤ x ∧ x ≤ 6 → f.height x + n x ≤ 14)
    (hsmall : ∀ p ∈ visibleCells, (f.stacked a n).groupSize p < 4)
    (hle : ∀ x, 1 ≤ x ∧ x ≤ 6 → m x ≤ n x) : ¬ f.Completes a m := by
  rintro ⟨p, _, h4⟩
  have hsize := (hf.keptIn_stacked a hroom hle).groupSize_le p
  have hjoin := canJoin_of_groupSize_pos (f := f.stacked a n) (p := p) (by omega)
  have h := hsmall p ((mem_visibleCells_iff p).mpr ((canJoin_iff _ p).mp hjoin).1)
  omega

/-- no smaller stacking completes anything, if none does with one puyo less on some column -/
theorem Covered.not_completes_of_lt (hf : f.Covered)
    (hroom : ∀ x, 1 ≤ x ∧ x ≤ 6 → f.height x + n x ≤ 14)
    (hless : ∀ x ∈ fieldColumns, 0 < n x → ∀ p ∈ visibleCells,
      (f.stacked a (Function.update n x (n x - 1))).groupSize p < 4)
    (m : Nat → Nat) (hle : ∀ x, 1 ≤ x ∧ x ≤ 6 → m x ≤ n x)
    (hne : ∃ x, (1 ≤ x ∧ x ≤ 6) ∧ m x ≠ n x) : ¬ f.Completes a m := by
  obtain ⟨x, hx, hne⟩ := hne
  have hlt := hle x hx
  refine hf.not_completes (fun z hz => ?_) (hless x ((mem_fieldColumns_iff x).mpr hx) (by omega))
    fun z hz => ?_
  · exact Nat.le_trans (Nat.add_le_add_left (update_le (Nat.sub_le _ 1) (Nat.le_refl _)) _)
      (hroom z hz)
  · by_cases e : z = x
    · rw [e, Function.update_self]
      omega
    · rw [Function.update_of_ne e]
      exact hle z hz

/-! ## one more cell -/

/-- as long as a stacking is not whole, the group of a puyo has a neighbor in the rest of it -/
theorem Covered.exists_growthCell (hf : f.Covered)
    (hroom : ∀ x, 1 ≤ x ∧ x ≤ 6 → f.height x + n x ≤ 14)
    (hle : ∀ x, 1 ≤ x ∧ x ≤ 6 → m x ≤ n x) {p : Cell} (hp : p ∈ (f.stacked a m).group p)
    (hlt : (f.stacked a m).groupSize p < (f.stacked a n).groupSize p) :
    ∃ c ∈ (f.stacked a m).group p, ∃ q ∈ c.neighbors, q.isVisible = true ∧
      f.height q.x + m q.x < q.y ∧ q.y ≤ f.height q.x + n q.x := by
  obtain ⟨hvp, hne, _⟩ := (canJoin_iff _ p).mp (canJoin_of_mem hp)
  have hcol := hf.keptIn_stacked a hroom hle p hvp hne
  have hrest : ∃ r ∈ (f.stacked a n).group p, r ∉ (f.stacked a m).group p := by
    by_contra hn
    have hsub : (f.stacked a n).group p ⊆ (f.stacked a m).group p := by
      intro r hr
      by_contra hr'
      exact hn ⟨r, hr, hr'⟩
    have := groupSize_le_of_subset hsub
    omega
  obtain ⟨r, hr, hr'⟩ := hrest
  have hway := (mem_group_iff (canJoin_of_mem_group hr) r).mp hr
  obtain ⟨c, q, hc, hq, hq'⟩ := hway.exists_exit hp hr'
  obtain ⟨hn, hv, hqcol⟩ := (mem_joined_iff _ _ c q).mp hq
  refine ⟨c, hc, q, hn, hv, ?_⟩
  -- in the smaller stacking the neighbor has another color, or it would be in the group
  have hother : (f.stacked a m).colorAt q ≠ (f.stacked a m).colorAt p := by
    intro e
    refine hq' (mem_group_trans hc ((mem_group_iff (canJoin_of_mem hc) q).mpr ?_))
    rw [(visible_and_color_of_mem hc).2]
    exact (leads_refl _ _).tail ((mem_joined_iff _ _ c q).mpr ⟨hn, hv, e⟩)
  rw [Cell.isVisible_iff] at hv
  have hr := hroom q.x hv.1
  have hl := hle q.x hv.1
  rw [← hcol, ← hqcol] at hother
  unfold colorAt at hother
  rw [color_stacked hv.1 a hr, color_stacked hv.1 a (by omega)] at hother
  by_cases hin : f.height q.x < q.y ∧ q.y ≤ f.height q.x + n q.x
  · refine ⟨?_, hin.2⟩
    by_contra hm
    rw [if_pos hin, if_pos (by omega)] at hother
    exact hother rfl
  · rw [if_neg hin, if_neg (by omega)] at hother
    exact absurd rfl hother

end Field

/-! ## growing up to the whole stacking -/

section
variable {w : Growth} (hf : f.Covered) (ha : a.isNormal = true)
  (hroom : ∀ x, 1 ≤ x ∧ x ≤ 6 → 0 < n x → f.height x + n x ≤ w.ceiling)
  (hallowed : ∀ x, w.prohibited.contains x = true → n x = 0)
  {p q : Cell} (hp : f.colorAt p = a) (hle : ∀ x, 1 ≤ x ∧ x ≤ 6 → m x ≤ n x)
  (hpq : p ∈ (f.stacked a m).group q)
include hf ha hroom hallowed hp hle hpq

/-- a stacking that is not whole grows by filling some column up to a cell, and stays in the whole
one; the group of `p` becomes larger -/
theorem exists_growth (hw : w.ceiling ≤ 12)
    (hlt : (f.stacked a m).groupSize q < (f.stacked a n).groupSize p) :
    ∃ r ∈ growthCells w (f.stacked a m) ((f.stacked a m).group q), ∃ m' : Nat → Nat,
      (∀ x, 1 ≤ x ∧ x ≤ 6 → m' x ≤ n x) ∧ (f.stacked a m).fillUpTo a r = f.stacked a m' ∧
        (f.stacked a m).height r.x < r.y ∧
          columnTotal m' = columnTotal m + (r.y - (f.stacked a m).height r.x) ∧
            p ∈ (f.stacked a m').group r ∧
              (f.stacked a m).groupSize q < (f.stacked a m').groupSize r := by
  have hroomn : ∀ x, 1 ≤ x ∧ x ≤ 6 → f.height x + n x ≤ 14 := by
    intro x hx
    have h := hroom x hx
    have h14 := hf.height_le x
    omega
  have hroomm : ∀ x, 1 ≤ x ∧ x ≤ 6 → f.height x + m x ≤ 14 := fun x hx =>
    Nat.le_trans (Nat.add_le_add_left (hle x hx) _) (hroomn x hx)
  have hcov : (f.stacked a m).Covered := hf.stacked a hroomm
  have hcolor : (f.stacked a m).colorAt q = a := by
    obtain ⟨hvp, hpcol⟩ := Field.visible_and_color_of_mem hpq
    have hkept := hf.keptIn_stacked a (m := fun _ => 0) hroomm (fun x _ => Nat.zero_le _) p hvp
    rw [Field.stacked_zero, hp] at hkept
    rw [← hpcol, hkept (Color.ne_of_isNormal ha rfl)]
  rw [← Field.groupSize_eq_of_mem hpq] at hlt
  obtain ⟨c, hc, r, hr, hv, hlow, hhigh⟩ := hf.exists_growthCell hroomn hle
    (Field.mem_group_self (Field.canJoin_of_mem hpq)) hlt
  have hcq := Field.mem_group_trans hpq hc
  obtain ⟨hcol, hrow⟩ := (Cell.isVisible_iff r).mp hv
  have hheight := Field.height_stacked hcol f a m
  have hfill := Field.fillUpTo_stacked hcol f a m
  refine ⟨r, (mem_growthCells_iff _ _ _ r).mpr ⟨⟨c, hcq, hr⟩, hcol, ⟨hrow.1, ?_⟩, ?_, ?_⟩, _,
    fun x hx => ?_, hfill, by omega, columnTotal_update hcol m _, ?_, ?_⟩
  · have h := hroom r.x hcol
    omega
  · refine Bool.eq_false_iff.mpr fun e => ?_
    have h := hallowed r.x e
    omega
  · exact hcov.color_eq_empty hcol (by omega) (by omega)
  · exact update_le (by omega) (hle x hx)
  · rw [← hfill]
    exact hcov.mem_group_fillUpTo hcq hr hv (by omega) hcolor hpq
  · rw [← hfill]
    exact hcov.groupSize_lt_fillUpTo hcq hr hv (by omega) hcolor

/-- where no smaller stacking completes, growing ends with the whole one -/
theorem exists_mem_grow (hw : w.ceiling ≤ 12)
    (hmin : ∀ m : Nat → Nat, (∀ x, 1 ≤ x ∧ x ≤ 6 → m x ≤ n x) →
      (∃ x, (1 ≤ x ∧ x ≤ 6) ∧ m x ≠ n x) → ¬ f.Completes a m)
    (hbig : 4 ≤ (f.stacked a n).groupSize p) {fuel budget : Nat} {l : Additions}
    (hsmall : (f.stacked a m).groupSize q < 4)
    (hfuel : 4 ≤ fuel + (f.stacked a m).groupSize q)
    (hbudget : columnTotal n ≤ columnTotal m + budget) (hl : l.size = columnTotal m) :
    ∃ c ∈ grow w a fuel (f.stacked a m) ((f.stacked a m).group q) budget l,
      c.field = f.stacked a n := by
  -- each step makes the group of `p` larger, so fuel and size never fall short of four together
  induction fuel generalizing m q budget l with
  | zero => omega
  | succ fuel ih =>
    obtain ⟨r, hr, m', hle', hfill, hlow, htotal, hpr, hlt⟩ :=
      exists_growth hf ha hroom hallowed hp hle hpq hw (by omega)
    have hmono := columnTotal_mono hle'
    have hcap : columnTotal n ≤ 6 * 12 := columnTotal_le fun x hx => by
      have h := hroom x hx
      omega
    obtain ⟨l', hadd⟩ : ∃ l', l.addCopies r.x a (r.y - (f.stacked a m).height r.x) = some l' :=
      ⟨_, if_pos ⟨((mem_growthCells_iff _ _ _ r).mp hr).2.column,
        show l.size + _ ≤ 84 by omega⟩⟩
    have hl' := Additions.size_addCopies hadd
    rw [hl, ← htotal] at hl'
    by_cases h4 : 4 ≤ (f.stacked a m').groupSize r
    · refine ⟨⟨f.stacked a m', l'⟩, (mem_grow_succ_iff hw).mpr
        ⟨r, hr, hlow, by omega, l', hadd, Or.inl ?_⟩, Field.stacked_congr fun x hx => ?_⟩
      · rw [hfill]
        exact ⟨h4, rfl⟩
      · by_contra hne
        refine hmin m' hle' ⟨x, hx, hne⟩ ⟨p, hp, ?_⟩
        rwa [Field.groupSize_eq_of_mem hpr]
    · have hsmall' := Nat.lt_of_not_le h4
      have hbudget' : columnTotal n ≤
          columnTotal m' + (budget - (r.y - (f.stacked a m).height r.x)) := by omega
      obtain ⟨c, hc, e⟩ := ih hle' hpr hsmall' (by omega) hbudget' hl'
      refine ⟨c, (mem_grow_succ_iff hw).mpr ⟨r, hr, hlow, by omega, l', hadd, Or.inr ?_⟩, e⟩
      rw [hfill]
      exact ⟨hsmall', Or.inr hc⟩

end

/-- **Extending misses no minimal completion.**  Where a stacking of a normal color, within the
limits of a strategy, completes a group that the field has a puyo of, and no smaller stacking does,
a detection by extending shows a field with the hash of the stacked one.  The field needs no more
than heights that hide no puyo, which exact ones do not. -/
theorem exists_detected_of_minimal (hf : f.Covered) {s : Strategy} (hs : s.mode = .extend)
    {prohibited : ColumnMask} (ha : a.isNormal = true)
    (hpos : ∃ x, (1 ≤ x ∧ x ≤ 6) ∧ 0 < n x)
    (hallowed : ∀ x, prohibited.contains x = true → n x = 0)
    (htotal : columnTotal n ≤ s.maxPuyos)
    (hroom : ∀ x, 1 ≤ x ∧ x ≤ 6 → 0 < n x → f.height x + n x ≤ min s.maxHeight 12)
    (hc : f.Completes a n)
    (hmin : ∀ m : Nat → Nat, (∀ x, 1 ≤ x ∧ x ≤ 6 → m x ≤ n x) →
      (∃ x, (1 ≤ x ∧ x ≤ 6) ∧ m x ≠ n x) → ¬ f.Completes a m) :
    ∃ c ∈ detected f s prohibited .fire, c.field.zobristHash = (f.stacked a n).zobristHash := by
  obtain ⟨p, hp, hbig⟩ := hc
  have hsmall : f.groupSize p < 4 := by
    obtain ⟨x, hx, hn⟩ := hpos
    refine Nat.lt_of_not_le fun h4 => ?_
    exact hmin (fun _ => 0) (fun _ _ => Nat.zero_le _) ⟨x, hx, by omega⟩ ⟨p, hp, h4⟩
  have hjoin : f.canJoin p = true := by
    have hjoin' := Field.canJoin_of_groupSize_pos (f := f.stacked a n) (p := p) (by omega)
    refine (f.canJoin_iff p).mpr ⟨((Field.canJoin_iff _ p).mp hjoin').1, ?_⟩
    rw [hp]
    exact ⟨Color.ne_of_isNormal ha rfl, Color.ne_of_isNormal ha rfl⟩
  -- the group of `p` is one of the groups that are extended
  obtain ⟨g, hg, hpg⟩ := (Field.exists_mem_groupsFrom [] (hf.mem_scannedCells hjoin)
    (by rw [hp]; exact ha) hjoin).resolve_left List.not_mem_nil
  obtain ⟨q, _, _, rfl⟩ := Field.mem_groupsFrom hg
  have hq : f.colorAt q = a := by rw [← hp, (Field.visible_and_color_of_mem hpg).2]
  have hsmall' : f.groupSize q < 4 := by rwa [← Field.groupSize_eq_of_mem hpg]
  have hone : 0 < f.groupSize q := List.length_pos_of_mem hpg
  have hseed : ⟨f.colorAt q, f.group q⟩ ∈ extendSeeds f := by
    refine List.mem_filter.mpr ⟨hg, ?_⟩
    rw [Bool.not_eq_true', Bool.eq_false_iff, ne_eq, Field.vanishes_iff]
    omega
  have hfuel : 4 ≤ growthLevels + f.groupSize q := by
    unfold growthLevels
    omega
  have hbudget : columnTotal n ≤ columnTotal (fun _ => 0) + s.maxPuyos :=
    Nat.le_trans htotal (Nat.le_add_left _ _)
  have hgrow : ∃ c ∈ grow ⟨s.ceiling, prohibited, .fire⟩ a growthLevels f (f.group q) s.maxPuyos
      .empty, c.field = f.stacked a n :=
    exists_mem_grow (m := fun _ => 0) hf ha hroom hallowed hp (fun _ _ => Nat.zero_le _) hpg
      s.ceiling_le hmin hbig hsmall' hfuel hbudget rfl
  obtain ⟨c, hc, e⟩ := hgrow
  have hcand : c ∈ candidates f s prohibited .fire := by
    unfold candidates
    rw [hs]
    refine List.mem_flatMap.mpr ⟨_, hseed, ?_⟩
    show c ∈ grow ⟨s.ceiling, prohibited, .fire⟩ (f.colorAt q) growthLevels f (f.group q)
      s.maxPuyos .empty
    rw [hq]
    exact hc
  obtain ⟨d, hd, e'⟩ := exists_mem_detected hcand
  exact ⟨d, hd, by rw [e', e]⟩

/-- two red puyos on column 2 -/
def redPair : Field := Field.empty.placeAll [⟨2, .red⟩, ⟨2, .red⟩]

/-- one puyo on either side of column 2 -/
def eitherSide (x : Nat) : Nat := if x = 1 ∨ x = 3 then 1 else 0

/-- the two puyos beside the pair complete it, and neither does alone -/
theorem exists_detected_of_minimal_redPair :
    redPair.Exact ∧ redPair.Completes .red eitherSide ∧
      ∃ c ∈ detected redPair .extendPreset (.only 4) .fire,
        c.field.zobristHash = (redPair.stacked .red eitherSide).zobristHash := by
  have hf : redPair.Exact := by decide +kernel
  have hc : redPair.Completes .red eitherSide := ⟨⟨2, 1⟩, by decide +kernel⟩
  have hallowed : ∀ x, (ColumnMask.only 4).contains x = true → eitherSide x = 0 := by
    intro x hx
    rw [← ColumnMask.mem_toList_iff] at hx
    exact (by decide +kernel : ∀ x ∈ (ColumnMask.only 4).toList, eitherSide x = 0) x hx
  have hroom : ∀ x, 1 ≤ x ∧ x ≤ 6 → redPair.height x + eitherSide x ≤ 12 := by
    intro x hx
    rw [← mem_fieldColumns_iff] at hx
    exact (by decide +kernel : ∀ x ∈ fieldColumns, redPair.height x + eitherSide x ≤ 12) x hx
  have hmin := hf.covered.not_completes_of_lt (a := .red) (n := eitherSide)
    (fun x hx => Nat.le_trans (hroom x hx) (by decide)) (by decide +kernel)
  exact ⟨hf, hc, exists_detected_of_minimal hf.covered rfl rfl ⟨1, by decide⟩ hallowed (by decide)
    (fun x hx _ => hroom x hx) hc hmin⟩

end PuyoChain
