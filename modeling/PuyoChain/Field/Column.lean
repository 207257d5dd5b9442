import PuyoChain.Color
import PuyoChain.Field.Settle

/-!
# Columns of the field

A column holds the colors of its 14 rows and the height it is believed to have.  The believed
height is a mark that each operation moves on its own: an empty cell that is put on top raises it,
and it stays raised until an operation counts again.

* `Column.color`, `Column.put`   reads and writes one row (`color_put`);
* `Column.top`, `Column.recount` the row of the topmost cell that is not empty, and the column with
                                 that height;
* `Column.stack`, `Column.unstack`   one cell more or less on top;
* `Column.drop`                  rows 1 to 13 settle, row 14 stays.
-/

namespace PuyoChain

theorem get_eq_getElem {α : Type} {n : Nat} (xs : Vector α n) (i : Fin n) :
    xs.get i = xs[i.val] := rfl

/-- one column of the field -/
structure Column where
  /-- the colors of rows 1 to 14 -/
  cells : Vector Color 14
  /-- the believed row of the topmost cell that is not empty, 0 for none -/
  height : Nat
  deriving DecidableEq

namespace Column

def empty : Column := ⟨Vector.replicate 14 .empty, 0⟩

/-- the color in row `y`; floor and ceiling are wall -/
def color (c : Column) (y : Nat) : Color :=
  if h : 1 ≤ y ∧ y ≤ 14 then c.cells[y - 1] else .wall

/-- the column with a color written in row `y`, if there is such a row; the height stays -/
def put (c : Column) (y : Nat) (a : Color) : Column :=
  if h : 1 ≤ y ∧ y ≤ 14 then { c with cells := c.cells.set (y - 1) a } else c

/-- the topmost of the rows 1 to `y` that is not empty, 0 for none -/
def topUpTo (c : Column) : Nat → Nat
  | 0 => 0
  | y + 1 => if c.color (y + 1) = .empty then c.topUpTo y else y + 1

def top (c : Column) : Nat := c.topUpTo 14

def recount (c : Column) : Column := { c with height := c.top }

/-- the column with a color written in row `y` and its height counted again, if there is such a
row -/
def set (c : Column) (y : Nat) (a : Color) : Column :=
  if 1 ≤ y ∧ y ≤ 14 then (c.put y a).recount else c

def stack (c : Column) (a : Color) : Column :=
  { c.put (c.height + 1) a with height := c.height + 1 }

/-- the color on top and the column without it, if its height is not 0 -/
def unstack (c : Column) : Option (Color × Column) :=
  if c.height = 0 then none else some (c.color c.height, (c.put c.height .empty).recount)

/-- the column with the rows emptied that `doomed` tells, and its height counted again -/
def clear (c : Column) (doomed : Nat → Bool) : Column :=
  recount { c with cells := Vector.ofFn fun i => if doomed (i + 1) then .empty else c.cells.get i }

/-- the column with rows 1 to 13 settled and its height counted again, and the longest fall -/
def drop (c : Column) : Column × Nat :=
  let s := settle .empty (· == .empty) 0 (c.cells.toList.take 13)
  (recount { c with cells := ⟨(s.1 ++ c.cells.toList.drop 13).toArray, by simp [s, settle_length]⟩ }, s.2)

theorem color_of_not_row {c : Column} {y : Nat} (h : ¬ (1 ≤ y ∧ y ≤ 14)) : c.color y = .wall :=
  dif_neg h

theorem color_put (c : Column) (y : Nat) (a : Color) (h : 1 ≤ y ∧ y ≤ 14) (z : Nat) :
    (c.put y a).color z = if z = y then a else c.color z := by
  unfold color put
  rw [dif_pos h]
  by_cases hz : 1 ≤ z ∧ z ≤ 14
  · rw [dif_pos hz, dif_pos hz]
    by_cases e : z = y
    · subst e
      simp
    · rw [if_neg e, Vector.getElem_set_ne]
      omega
  · rw [dif_neg hz, dif_neg hz, if_neg]
    rintro rfl
    exact hz h

theorem color_recount (c : Column) (y : Nat) : c.recount.color y = c.color y := rfl

theorem height_recount (c : Column) : c.recount.height = c.top := rfl

theorem height_put (c : Column) (y : Nat) (a : Color) : (c.put y a).height = c.height := by
  unfold put
  split <;> rfl

theorem color_clear (c : Column) (doomed : Nat → Bool) (y : Nat) (h : 1 ≤ y ∧ y ≤ 14) :
    (c.clear doomed).color y = if doomed y then .empty else c.color y := by
  unfold clear
  rw [color_recount]
  unfold color
  rw [dif_pos h, dif_pos h]
  have e : y - 1 + 1 = y := by omega
  simp [get_eq_getElem, e]

theorem set_of_not_row {c : Column} {y : Nat} (h : ¬ (1 ≤ y ∧ y ≤ 14)) (a : Color) :
    c.set y a = c := if_neg h

/-- columns with the same colors and the same height are equal -/
theorem ext_color {c d : Column} (h : ∀ y, 1 ≤ y → y ≤ 14 → c.color y = d.color y)
    (hh : c.height = d.height) : c = d := by
  obtain ⟨cs, ch⟩ := c
  obtain ⟨ds, dh⟩ := d
  obtain rfl : ch = dh := hh
  congr 1
  refine Vector.ext fun i hi => ?_
  have := h (i + 1) (by omega) (by omega)
  unfold color at this
  rw [dif_pos ⟨by omega, by omega⟩, dif_pos ⟨by omega, by omega⟩] at this
  simpa using this

theorem topUpTo_le (c : Column) (n : Nat) : c.topUpTo n ≤ n := by
  induction n with
  | zero => exact Nat.le_refl 0
  | succ n ih =>
    unfold topUpTo
    split
    · omega
    · exact Nat.le_refl _

theorem top_le (c : Column) : c.top ≤ 14 := c.topUpTo_le 14

end Column

end PuyoChain
