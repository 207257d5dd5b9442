import PuyoChain.Cell
import PuyoChain.Field.Column

/-!
# The field

* `Field`               six columns;
* `Field.color`, `Field.height`   reads a cell, and the believed height of a column; beside the
                        field everything is wall and every height is 0;
* `Field.modify`        changes one column (`color_modify`, `height_modify`);
* `Field.set`           writes a cell;
* `Field.ext_color`     fields with the same colors and heights are equal.
-/

namespace PuyoChain

/-- the play field -/
structure Field where
  /-- the columns, from the left -/
  columns : Vector Column 6
  deriving DecidableEq

namespace Field

def empty : Field := ⟨Vector.replicate 6 .empty⟩

/-- column `x`, if the field has it -/
def column? (f : Field) (x : Nat) : Option Column :=
  if h : 1 ≤ x ∧ x ≤ 6 then some f.columns[x - 1] else none

/-- the color in column `x` and row `y`; outside the field all is wall -/
def color (f : Field) (x y : Nat) : Color :=
  if h : 1 ≤ x ∧ x ≤ 6 then f.columns[x - 1].color y else .wall

def colorAt (f : Field) (p : Cell) : Color := f.color p.x p.y

def isEmpty (f : Field) (x y : Nat) : Bool := f.color x y == .empty

/-- the believed row of the topmost puyo in column `x`, 0 for none -/
def height (f : Field) (x : Nat) : Nat :=
  if h : 1 ≤ x ∧ x ≤ 6 then f.columns[x - 1].height else 0

/-- the field with column `x` changed, if there is such a column -/
def modify (f : Field) (x : Nat) (g : Column → Column) : Field :=
  if h : 1 ≤ x ∧ x ≤ 6 then ⟨f.columns.set (x - 1) (g f.columns[x - 1])⟩ else f

/-- the field with a color written in column `x` and row `y`, if it has the cell; nothing falls -/
def set (f : Field) (x y : Nat) (a : Color) : Field := f.modify x fun c => c.set y a

/-- the colors of the 14 rows of all columns, column by column -/
def colors (f : Field) : List Color := f.columns.toList.flatMap fun c => c.cells.toList

def countPuyos (f : Field) : Nat := f.colors.countP (· != .empty)

def countColor (f : Field) (a : Color) : Nat := f.colors.count a

/-- rows 1 to 13 are empty; what the top staging row holds does not count -/
def isAllClear (f : Field) : Bool := fieldColumns.all fun x => (rowsUpTo 13).all fun y => f.isEmpty x y

def isConnected (f : Field) (p : Cell) : Bool := p.neighbors.any fun q => f.colorAt q == f.colorAt p

def hasEmptyNeighbor (f : Field) (p : Cell) : Bool := p.neighbors.any fun q => f.colorAt q == .empty

theorem color_of_column? {f : Field} {x : Nat} {c : Column} (h : f.column? x = some c) (y : Nat) :
    f.color x y = c.color y := by
  unfold column? at h
  unfold color
  split at h
  · rw [dif_pos ‹_›, Option.some.inj h]
  · cases h

theorem height_of_column? {f : Field} {x : Nat} {c : Column} (h : f.column? x = some c) :
    f.height x = c.height := by
  unfold column? at h
  unfold height
  split at h
  · rw [dif_pos ‹_›, Option.some.inj h]
  · cases h

theorem column?_isSome_iff (f : Field) (x : Nat) :
    (f.column? x).isSome = true ↔ 1 ≤ x ∧ x ≤ 6 := by
  unfold column?
  split <;> simp_all

theorem color_of_not_column {f : Field} {x y : Nat} (h : ¬ (1 ≤ x ∧ x ≤ 6)) :
    f.color x y = .wall := dif_neg h

theorem height_of_not_column {f : Field} {x : Nat} (h : ¬ (1 ≤ x ∧ x ≤ 6)) : f.height x = 0 :=
  dif_neg h

theorem color_of_not_row {f : Field} {x y : Nat} (h : ¬ (1 ≤ y ∧ y ≤ 14)) :
    f.color x y = .wall := by
  unfold color
  split
  · exact Column.color_of_not_row h
  · rfl

/-- a cell that is no wall lies in the field -/
theorem inField_of_color_ne_wall {f : Field} {p : Cell} (h : f.colorAt p ≠ .wall) :
    p.inField = true := by
  rw [Cell.inField_iff]
  constructor
  · exact Decidable.byContradiction fun hx => h (color_of_not_column hx)
  · exact Decidable.byContradiction fun hy => h (color_of_not_row hy)

theorem color_modify (f : Field) (x : Nat) (g : Column → Column) (h : 1 ≤ x ∧ x ≤ 6) (z y : Nat) :
    (f.modify x g).color z y = if z = x then (g f.columns[x - 1]).color y else f.color z y := by
  unfold color modify
  rw [dif_pos h]
  by_cases hz : 1 ≤ z ∧ z ≤ 6
  · rw [dif_pos hz, dif_pos hz]
    by_cases e : z = x
    · subst e
      simp
    · rw [if_neg e, Vector.getElem_set_ne]
      omega
  · rw [dif_neg hz, dif_neg hz, if_neg]
    rintro rfl
    exact hz h

theorem height_modify (f : Field) (x : Nat) (g : Column → Column) (h : 1 ≤ x ∧ x ≤ 6) (z : Nat) :
    (f.modify x g).height z = if z = x then (g f.columns[x - 1]).height else f.height z := by
  unfold height modify
  rw [dif_pos h]
  by_cases hz : 1 ≤ z ∧ z ≤ 6
  · rw [dif_pos hz, dif_pos hz]
    by_cases e : z = x
    · subst e
      simp
    · rw [if_neg e, Vector.getElem_set_ne]
      omega
  · rw [dif_neg hz, dif_neg hz, if_neg]
    rintro rfl
    exact hz h

theorem modify_of_not_column {f : Field} {x : Nat} {g : Column → Column}
    (h : ¬ (1 ≤ x ∧ x ≤ 6)) : f.modify x g = f := dif_neg h

/-- what is written beside the field is lost -/
theorem set_of_not_inField {f : Field} {x y : Nat} (h : ¬ ((1 ≤ x ∧ x ≤ 6) ∧ 1 ≤ y ∧ y ≤ 14))
    (a : Color) : f.set x y a = f := by
  by_cases hx : 1 ≤ x ∧ x ≤ 6
  · unfold set modify
    rw [dif_pos hx]
    dsimp only
    rw [Column.set_of_not_row fun hy => h ⟨hx, hy⟩, Vector.set_getElem_self]
  · exact modify_of_not_column hx

/-- fields with the same colors and the same heights are equal -/
theorem ext_color {f g : Field}
    (hc : ∀ x y, 1 ≤ x → x ≤ 6 → 1 ≤ y → y ≤ 14 → f.color x y = g.color x y)
    (hh : ∀ x, 1 ≤ x → x ≤ 6 → f.height x = g.height x) : f = g := by
  obtain ⟨fs⟩ := f
  obtain ⟨gs⟩ := g
  congr 1
  refine Vector.ext fun i hi => Column.ext_color (fun y h1 h14 => ?_) ?_
  · have := hc (i + 1) y (by omega) (by omega) h1 h14
    unfold color at this
    rw [dif_pos ⟨by omega, by omega⟩, dif_pos ⟨by omega, by omega⟩] at this
    simpa using this
  · have := hh (i + 1) (by omega) (by omega)
    unfold height at this
    rw [dif_pos ⟨by omega, by omega⟩, dif_pos ⟨by omega, by omega⟩] at this
    simpa using this

end Field

end PuyoChain
