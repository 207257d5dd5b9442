import PuyoChain.Field.Basic

/-!
# Gravity on the whole field

* `Field.drop`   settles every column and answers the longest fall of a puyo.  The top staging row
                 never moves.
-/

namespace PuyoChain

namespace Field

/-- the columns after gravity, each with its longest fall -/
def settledColumns (f : Field) : Vector (Column × Nat) 6 :=
  Vector.ofFn fun i => (f.columns.get i).drop

/-- the field after gravity, and the longest fall -/
def drop (f : Field) : Field × Nat :=
  let settled := f.settledColumns
  (⟨Vector.ofFn fun i => (settled.get i).1⟩, (settled.toList.map Prod.snd).foldl max 0)

theorem column?_drop (f : Field) (x : Nat) :
    f.drop.1.column? x = (f.column? x).map fun c => c.drop.1 := by
  unfold column?
  split
  · simp [drop, settledColumns, get_eq_getElem]
  · rfl

end Field

end PuyoChain
