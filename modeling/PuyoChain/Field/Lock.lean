import PuyoChain.Decision
import PuyoChain.Score
import PuyoChain.Field.Group
import PuyoChain.Field.Stack

/-!
# Locking a piece

* `Field.lock?`         the field with both cells of a piece where a decision puts them: each cell
                        falls onto its column, and a horizontal piece over uneven columns splits;
* `Field.unlock`        takes the two cells off again;
* `Field.splits`        the two cells come to rest at different heights;
* `Field.placementFrames`   frames from the appearance of the piece until it has settled;
* `Field.firesAfter`    right after locking, one of the two cells belongs to a vanishing group.
-/

namespace PuyoChain

def distance (a b : Nat) : Nat := (a - b) + (b - a)

namespace Field

/-- the field with a piece locked; none for a decision that is not valid or a cell without room -/
def lock? (f : Field) (d : Decision) (p : Piece) : Option Field :=
  if !d.isValid then none
  else if d.r = 0 then
    if f.height d.axisX + 2 > 14 then none
    else some ((f.place d.axisX p.axis).place d.axisX p.child)
  else if d.r = 2 then
    if f.height d.axisX + 2 > 14 then none
    else some ((f.place d.axisX p.child).place d.axisX p.axis)
  else
    if f.height d.axisX ≥ 14 ∨ f.height d.childX ≥ 14 then none
    else some ((f.place d.axisX p.axis).place d.childX p.child)

/-- the field without the two cells that locking by a decision has put on top -/
def unlock (f : Field) (d : Decision) : Field :=
  if d.isVertical then (f.removeTop d.axisX).removeTop d.axisX
  else (f.removeTop d.axisX).removeTop d.childX

/-- the two cells come to rest at different heights -/
def splits (f : Field) (d : Decision) : Bool :=
  !d.isVertical && f.height d.axisX != f.height d.childX

/-- frames from the appearance of a piece until it has settled where a decision puts it -/
def placementFrames (f : Field) (d : Decision) : Nat :=
  let shift := shiftFrames * distance d.axisX spawnColumn
  if d.isVertical then
    -- the lower cell starts in row 12 with the child above, in row 11 with the child below
    let start := if d.r = 0 then 12 else 11
    shift + (framesToSoftDrop (start - (f.height d.axisX + 1)) + groundingFrames)
  else
    let h := f.height d.axisX
    let k := f.height d.childX
    shift + (framesToSoftDrop (12 - (max h k + 1)) + groundingFrames) +
      if h = k then 0 else framesToFall (distance h k) + groundingFrames

/-- right after locking by a decision, one of the two cells belongs to a vanishing group -/
def firesAfter (f : Field) (d : Decision) : Bool :=
  let h := f.height d.axisX
  if d.isVertical then f.inVanishing ⟨d.axisX, h⟩ || f.inVanishing ⟨d.axisX, h - 1⟩
  else f.inVanishing ⟨d.axisX, h⟩ || f.inVanishing ⟨d.childX, f.height d.childX⟩

theorem lock?_of_not_valid {f : Field} {d : Decision} {p : Piece} (h : d.isValid = false) :
    f.lock? d p = none := by
  simp [lock?, h]

end Field

end PuyoChain
