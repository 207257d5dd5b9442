import PuyoChain.Field.Group
import PuyoChain.Score

/-!
# One vanish

Every group of a normal color of four or more cells vanishes, and with it the garbage beside it.

* `Field.doomed`       the cells that vanish;
* `Field.vanish?`      what one vanish does, if any group vanishes at all;
* `Field.vanish`       the field after it and its score; where nothing vanishes the field stays as
                       it is, believed heights included, and the score is 0.
-/

namespace PuyoChain

/-- one vanish -/
structure Vanish where
  doomed : List Cell
  field : Field
  score : Nat

namespace Field

def vanishingGroups (f : Field) : List Group := f.groups.filter Group.vanishes

/-- the visible garbage beside the cells of a list -/
def garbageBeside (f : Field) (cells : List Cell) : List Cell := cells.flatMap (f.joined .garbage)

/-- the field with the cells of a list emptied, and all heights counted again -/
def clear (f : Field) (doomed : List Cell) : Field :=
  ⟨Vector.ofFn fun i => (f.columns.get i).clear fun y => decide (⟨i + 1, y⟩ ∈ doomed)⟩

def colorsOf (gs : List Group) : Nat := Color.normals.countP fun a => gs.any fun g => g.color == a

/-- the sum of the bonuses of groups for their sizes -/
def longBonuses : List Group → Nat
  | [] => 0
  | g :: gs => longBonus g.size + longBonuses gs

def groupsScore (chain : Nat) (gs : List Group) : Nat :=
  stepScore chain (gs.flatMap Group.cells).length (colorsOf gs) (longBonuses gs)

/-- the vanish in the step `chain`, if a group vanishes -/
def vanish? (f : Field) (chain : Nat) : Option Vanish :=
  let gs := f.vanishingGroups
  if gs.isEmpty then none
  else
    let cells := gs.flatMap Group.cells
    let doomed := cells ++ f.garbageBeside cells
    some ⟨doomed, f.clear doomed, groupsScore chain gs⟩

/-- the field after a vanish in the step `chain`, and the score -/
def vanish (f : Field) (chain : Nat) : Field × Nat :=
  match f.vanish? chain with
  | some v => (v.field, v.score)
  | none => (f, 0)

theorem color_clear (f : Field) (doomed : List Cell) (x y : Nat) (hx : 1 ≤ x ∧ x ≤ 6)
    (hy : 1 ≤ y ∧ y ≤ 14) :
    (f.clear doomed).color x y = if ⟨x, y⟩ ∈ doomed then .empty else f.color x y := by
  unfold color
  rw [dif_pos hx, dif_pos hx]
  have e : x - 1 + 1 = x := by omega
  simp [clear, Column.color_clear _ _ _ hy, get_eq_getElem, e]

end Field

end PuyoChain
