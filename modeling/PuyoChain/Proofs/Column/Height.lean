import Mathlib.Tactic.ByContra
import PuyoChain.Field.Column

/-!
# Believed and counted heights of a column

* `Column.Covered`   the believed height is at most 14 and every cell above it is empty;
* `Column.Exact`     the believed height is the counted one, which is more (`Exact.covered`);
* `Column.pop`       the column without what is on top, if its height is not 0.

Counting again makes a height exact (`exact_recount`).  A color on top keeps a column covered
(`Covered.stack`), and exact if the color is not empty (`Exact.stack`); taking it off again gives
the column back (`Exact.pop_stack`).
-/

namespace PuyoChain

namespace Column

/-- the believed height hides no puyo -/
def Covered (c : Column) : Prop :=
  c.height ≤ 14 ∧ ∀ y, c.height < y → y ≤ 14 → c.color y = .empty

/-- the believed height is the row of the topmost cell that is not empty -/
def Exact (c : Column) : Prop := c.height = c.top

instance (c : Column) : Decidable c.Exact := inferInstanceAs (Decidable (c.height = c.top))

/-- the column without what is on top, if its height is not 0 -/
def pop (c : Column) : Column :=
  match c.unstack with
  | some (_, c') => c'
  | none => c

/-! ## the counted height -/

theorem color_of_topUpTo_lt (c : Column) (n y : Nat) (h : c.topUpTo n < y) (hy : y ≤ n) :
    c.color y = .empty := by
  induction n with
  | zero => omega
  | succ n ih =>
    unfold topUpTo at h
    by_cases e : c.color (n + 1) = .empty
    · rw [if_pos e] at h
      by_cases e' : y = n + 1
      · rw [e']
        exact e
      · exact ih h (by omega)
    · rw [if_neg e] at h
      omega

theorem color_topUpTo_ne_empty (c : Column) (n : Nat) (h : c.topUpTo n ≠ 0) :
    c.color (c.topUpTo n) ≠ .empty := by
  induction n with
  | zero => exact absurd rfl h
  | succ n ih =>
    unfold topUpTo at h ⊢
    by_cases e : c.color (n + 1) = .empty
    · rw [if_pos e] at h ⊢
      exact ih h
    · rw [if_neg e]
      exact e

theorem color_of_top_lt (c : Column) (y : Nat) (h : c.top < y) (hy : y ≤ 14) :
    c.color y = .empty :=
  c.color_of_topUpTo_lt 14 y h hy

theorem color_top_ne_empty (c : Column) (h : c.top ≠ 0) : c.color c.top ≠ .empty :=
  c.color_topUpTo_ne_empty 14 h

theorem le_top (c : Column) (y : Nat) (hy : y ≤ 14) (h : c.color y ≠ .empty) : y ≤ c.top := by
  by_contra hn
  exact h (c.color_of_top_lt y (by omega) hy)

theorem top_eq (c : Column) (h : Nat) (hh : h ≤ 14) (hc : h = 0 ∨ c.color h ≠ .empty)
    (above : ∀ y, h < y → y ≤ 14 → c.color y = .empty) : c.top = h := by
  have hle : h ≤ c.top := by
    rcases hc with rfl | hc
    · exact Nat.zero_le _
    · exact c.le_top h hh hc
  by_contra hn
  exact c.color_top_ne_empty (by omega) (above c.top (by omega) c.top_le)

theorem top_congr {c d : Column} (h : ∀ y, 1 ≤ y → y ≤ 14 → c.color y = d.color y) :
    c.top = d.top := by
  refine c.top_eq d.top d.top_le ?_ ?_
  · by_cases e : d.top = 0
    · exact Or.inl e
    · have h14 := d.top_le
      rw [h d.top (by omega) h14]
      exact Or.inr (d.color_top_ne_empty e)
  · intro y hy hy'
    rw [h y (by omega) hy']
    exact d.color_of_top_lt y hy hy'

/-! ## covered and exact columns -/

theorem Exact.covered {c : Column} (h : c.Exact) : c.Covered := by
  have e : c.height = c.top := h
  refine ⟨e ▸ c.top_le, fun y hy hy' => ?_⟩
  exact c.color_of_top_lt y (by omega) hy'

theorem Exact.color_ne_empty {c : Column} (h : c.Exact) (h0 : c.height ≠ 0) :
    c.color c.height ≠ .empty := by
  have e : c.height = c.top := h
  rw [e] at h0 ⊢
  exact c.color_top_ne_empty h0

theorem exact_recount (c : Column) : c.recount.Exact := rfl

theorem Exact.recount {c : Column} (h : c.Exact) : c.recount = c := by
  obtain ⟨cells, height⟩ := c
  have e : height = top ⟨cells, height⟩ := h
  show Column.mk cells (top ⟨cells, height⟩) = _
  rw [← e]

/-- columns of the same colors are equal once both are exact -/
theorem Exact.ext {c d : Column} (hc : c.Exact) (hd : d.Exact)
    (h : ∀ y, 1 ≤ y → y ≤ 14 → c.color y = d.color y) : c = d := by
  refine ext_color h ?_
  have e : c.height = c.top := hc
  have e' : d.height = d.top := hd
  rw [e, e', top_congr h]

theorem exact_empty : empty.Exact := by
  show 0 = empty.top
  refine (empty.top_eq 0 (by omega) (Or.inl rfl) fun y hy hy' => ?_).symm
  unfold color
  rw [dif_pos ⟨by omega, hy'⟩]
  exact Vector.getElem_replicate ..

theorem Exact.set {c : Column} (h : c.Exact) (y : Nat) (a : Color) : (c.set y a).Exact := by
  unfold Column.set
  split
  · exact exact_recount _
  · exact h

theorem Covered.set {c : Column} (h : c.Covered) (y : Nat) (a : Color) : (c.set y a).Covered := by
  unfold Column.set
  split
  · exact (exact_recount _).covered
  · exact h

theorem exact_clear (c : Column) (doomed : Nat → Bool) : (c.clear doomed).Exact :=
  exact_recount _

theorem exact_drop (c : Column) : c.drop.1.Exact := exact_recount _

/-! ## one cell more on top -/

theorem height_stack (c : Column) (a : Color) : (c.stack a).height = c.height + 1 := rfl

theorem color_stack {c : Column} (h : c.height < 14) (a : Color) (y : Nat) :
    (c.stack a).color y = if y = c.height + 1 then a else c.color y :=
  c.color_put (c.height + 1) a ⟨by omega, by omega⟩ y

theorem Covered.stack {c : Column} (hc : c.Covered) (h : c.height < 14) (a : Color) :
    (c.stack a).Covered := by
  refine ⟨h, fun y hy hy' => ?_⟩
  rw [height_stack] at hy
  rw [color_stack h, if_neg (by omega)]
  exact hc.2 y (by omega) hy'

theorem Exact.stack {c : Column} (hc : c.Exact) (h : c.height < 14) {a : Color}
    (ha : a ≠ .empty) : (c.stack a).Exact := by
  refine ((c.stack a).top_eq (c.height + 1) h (Or.inr ?_) (hc.covered.stack h a).2).symm
  rw [color_stack h, if_pos rfl]
  exact ha

/-! ## one cell less on top -/

theorem pop_of_height_eq_zero {c : Column} (h : c.height = 0) : c.pop = c := by
  unfold pop unstack
  rw [if_pos h]

theorem pop_of_height_ne_zero {c : Column} (h : c.height ≠ 0) :
    c.pop = (c.put c.height .empty).recount := by
  unfold pop unstack
  rw [if_neg h]

theorem Exact.pop {c : Column} (hc : c.Exact) : c.pop.Exact := by
  by_cases h : c.height = 0
  · rw [pop_of_height_eq_zero h]
    exact hc
  · rw [pop_of_height_ne_zero h]
    exact exact_recount _

theorem Covered.pop {c : Column} (hc : c.Covered) : c.pop.Covered := by
  by_cases h : c.height = 0
  · rw [pop_of_height_eq_zero h]
    exact hc
  · rw [pop_of_height_ne_zero h]
    exact (exact_recount _).covered

/-- what was stacked on an exact column comes off again -/
theorem Exact.pop_stack {c : Column} (hc : c.Exact) (h : c.height < 14) (a : Color) :
    (c.stack a).pop = c := by
  rw [pop_of_height_ne_zero (by rw [height_stack]; omega)]
  refine (exact_recount _).ext hc fun y _ _ => ?_
  rw [color_recount, height_stack, color_put _ _ _ ⟨by omega, by omega⟩, color_stack h]
  by_cases e : y = c.height + 1
  · rw [if_pos e, e, hc.covered.2 (c.height + 1) (by omega) (by omega)]
  · rw [if_neg e, if_neg e]

end Column

end PuyoChain
