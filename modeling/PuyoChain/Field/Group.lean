import PuyoChain.Field.Basic
import PuyoChain.Search.Spread

/-!
# Groups of one color

Two visible cells that lie side by side and have one color are joined.  Staging rows join nothing.

* `Field.joined`       the visible cells of a color beside a cell;
* `Field.group`        the cells that are joined, over any number of steps, to a cell that is
                       neither empty nor wall, nearest first;
* `Field.groupSizeUpTo4`   their number, counted no further than 4;
* `Field.groups`       the groups of normal colors, in the order of the lowest leftmost cells.

A scan of a column stops at its believed height.
-/

namespace PuyoChain

/-- a group of one color -/
structure Group where
  color : Color
  cells : List Cell
  deriving DecidableEq, Repr

namespace Group

def size (g : Group) : Nat := g.cells.length

/-- the group is large enough to vanish -/
def vanishes (g : Group) : Bool := 4 ≤ g.size

end Group

namespace Field

/-- the visible cells of color `a` beside a cell -/
def joined (f : Field) (a : Color) (p : Cell) : List Cell :=
  p.neighbors.filter fun q => q.isVisible && f.colorAt q == a

/-- the cell is visible and holds something that can be joined -/
def canJoin (f : Field) (p : Cell) : Bool :=
  p.isVisible && f.colorAt p != .empty && f.colorAt p != .wall

/-- the number of visible cells, and so of layers around a cell -/
def visibleCount : Nat := 72

/-- the cells joined to a cell, nearest first -/
def group (f : Field) (p : Cell) : List Cell :=
  if f.canJoin p then spread (f.joined (f.colorAt p)) visibleCount [] [p] else []

def groupSize (f : Field) (p : Cell) : Nat := (f.group p).length

/-- the number of cells joined to a cell, counted no further than 4 -/
def groupSizeUpTo4 (f : Field) (p : Cell) : Nat :=
  if f.canJoin p then spreadUpTo (f.joined (f.colorAt p)) 4 4 [] [p] else 0

def inVanishing (f : Field) (p : Cell) : Bool := 4 ≤ f.groupSizeUpTo4 p

/-- the cells of column `x` up to its believed height and up to row `top` -/
def columnCells (f : Field) (top x : Nat) : List Cell :=
  (rowsUpTo (min (f.height x) top)).map fun y => ⟨x, y⟩

/-- the visible cells up to the believed heights, column by column -/
def scannedCells (f : Field) : List Cell := fieldColumns.flatMap (f.columnCells visibleHeight)

/-- the groups of normal colors of the cells of a list, without those of cells of `seen` -/
def groupsFrom (f : Field) : List Cell → List Cell → List Group
  | [], _ => []
  | p :: ps, seen =>
    if (f.colorAt p).isNormal && p ∉ seen then
      let cells := f.group p
      ⟨f.colorAt p, cells⟩ :: groupsFrom f ps (cells ++ seen)
    else groupsFrom f ps seen

def groups (f : Field) : List Group := f.groupsFrom f.scannedCells []

/-- a chain starts here: some visible cell of a normal color belongs to a group of four or more -/
def fires (f : Field) : Bool :=
  f.scannedCells.any fun p => (f.colorAt p).isNormal && f.inVanishing p

theorem mem_joined_iff (f : Field) (a : Color) (p q : Cell) :
    q ∈ f.joined a p ↔ q ∈ p.neighbors ∧ q.isVisible = true ∧ f.colorAt q = a := by
  simp only [joined, List.mem_filter, Bool.and_eq_true, beq_iff_eq]

theorem mem_columnCells_iff (f : Field) (top x : Nat) (p : Cell) :
    p ∈ f.columnCells top x ↔ p.x = x ∧ 1 ≤ p.y ∧ p.y ≤ f.height x ∧ p.y ≤ top := by
  simp only [columnCells, List.mem_map, mem_rowsUpTo_iff]
  constructor
  · rintro ⟨y, ⟨h1, h2⟩, rfl⟩
    exact ⟨rfl, h1, Nat.le_trans h2 (Nat.min_le_left ..), Nat.le_trans h2 (Nat.min_le_right ..)⟩
  · rintro ⟨rfl, h1, h2, h3⟩
    exact ⟨p.y, ⟨h1, by omega⟩, rfl⟩

theorem mem_scannedCells_iff (f : Field) (p : Cell) :
    p ∈ f.scannedCells ↔ (1 ≤ p.x ∧ p.x ≤ 6) ∧ 1 ≤ p.y ∧ p.y ≤ f.height p.x ∧ p.y ≤ 12 := by
  simp only [scannedCells, List.mem_flatMap, mem_fieldColumns_iff, mem_columnCells_iff,
    visibleHeight]
  constructor
  · rintro ⟨x, hx, rfl, h⟩
    exact ⟨hx, h⟩
  · rintro ⟨hx, h⟩
    exact ⟨p.x, hx, rfl, h⟩

end Field

end PuyoChain
