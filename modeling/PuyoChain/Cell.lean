/-!
# Cells of the map

The field has columns 1 to 6, from the left, and rows 1 to 14, from the floor.  Rows 1 to 12 are
visible; rows 13 and 14 are staging rows.  The map is the field with a border of wall: columns 0
and 7, and rows 0 and 15.

* `Cell`              a place of the map;
* `Cell.neighbors`    the four cells beside it, in the order right, left, up, down;
* `Cell.inField`, `Cell.isVisible`   the cell lies in the field, or in its visible part.
-/

namespace PuyoChain

def fieldWidth : Nat := 6

def visibleHeight : Nat := 12

/-- the number of rows, the two staging rows included -/
def fieldHeight : Nat := 14

def mapWidth : Nat := 8

def mapHeight : Nat := 16

def spawnColumn : Nat := 3

/-- a place of the map -/
structure Cell where
  x : Nat
  /-- the row, upwards -/
  y : Nat
  deriving DecidableEq, Repr

namespace Cell

/-- the cell whose occupation ends the game -/
def neck : Cell := ⟨3, 12⟩

/-- the cells right, left, above and below -/
def neighbors (p : Cell) : List Cell := [⟨p.x + 1, p.y⟩, ⟨p.x - 1, p.y⟩, ⟨p.x, p.y + 1⟩, ⟨p.x, p.y - 1⟩]

def inField (p : Cell) : Bool := 1 ≤ p.x && p.x ≤ 6 && 1 ≤ p.y && p.y ≤ 14

def isVisible (p : Cell) : Bool := 1 ≤ p.x && p.x ≤ 6 && 1 ≤ p.y && p.y ≤ 12

theorem inField_iff (p : Cell) :
    p.inField = true ↔ (1 ≤ p.x ∧ p.x ≤ 6) ∧ 1 ≤ p.y ∧ p.y ≤ 14 := by
  simp only [inField, Bool.and_eq_true, decide_eq_true_eq]
  omega

theorem isVisible_iff (p : Cell) :
    p.isVisible = true ↔ (1 ≤ p.x ∧ p.x ≤ 6) ∧ 1 ≤ p.y ∧ p.y ≤ 12 := by
  simp only [isVisible, Bool.and_eq_true, decide_eq_true_eq]
  omega

theorem inField_of_isVisible {p : Cell} (h : p.isVisible = true) : p.inField = true := by
  rw [isVisible_iff] at h
  rw [inField_iff]
  omega

end Cell

def fieldColumns : List Nat := [1, 2, 3, 4, 5, 6]

/-- the rows 1 to `top`, from the floor -/
def rowsUpTo (top : Nat) : List Nat := (List.range top).map (· + 1)

theorem mem_fieldColumns_iff (x : Nat) : x ∈ fieldColumns ↔ 1 ≤ x ∧ x ≤ 6 := by
  simp only [fieldColumns, List.mem_cons, List.not_mem_nil, or_false]
  omega

theorem rowsUpTo_succ (n : Nat) : rowsUpTo (n + 1) = rowsUpTo n ++ [n + 1] := by
  rw [rowsUpTo, List.range_succ, List.map_append]
  rfl

theorem mem_rowsUpTo_iff (top y : Nat) : y ∈ rowsUpTo top ↔ 1 ≤ y ∧ y ≤ top := by
  simp only [rowsUpTo, List.mem_map, List.mem_range]
  constructor
  · rintro ⟨i, hi, rfl⟩
    omega
  · rintro ⟨h1, h2⟩
    exact ⟨y - 1, by omega, by omega⟩

theorem mem_flatMap_rowsUpTo_iff (top : Nat) (p : Cell) :
    (p ∈ fieldColumns.flatMap fun x => (rowsUpTo top).map fun y => Cell.mk x y) ↔
      (1 ≤ p.x ∧ p.x ≤ 6) ∧ 1 ≤ p.y ∧ p.y ≤ top := by
  simp only [List.mem_flatMap, List.mem_map, mem_fieldColumns_iff, mem_rowsUpTo_iff]
  constructor
  · rintro ⟨x, hx, y, hy, rfl⟩
    exact ⟨hx, hy⟩
  · rintro ⟨hx, hy⟩
    exact ⟨p.x, hx, p.y, hy, rfl⟩

end PuyoChain
