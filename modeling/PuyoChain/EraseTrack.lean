import PuyoChain.Cell

/-!
# Which chain step erased which cell

* `EraseTrack`              for each cell of the map the step that erased what it held before the
                            chain, 0 for never;
* `EraseTrack.erasedAt_set`   what writing one cell changes.
-/

namespace PuyoChain

/-- for each cell of the map the chain step that erased it, column by column, 0 for never -/
structure EraseTrack where
  steps : Vector (Vector Nat 16) 8
  deriving DecidableEq

namespace EraseTrack

def empty : EraseTrack := ⟨Vector.replicate 8 (Vector.replicate 16 0)⟩

/-- the step that erased the cell in column `x` and row `y`, 0 for never and outside the map -/
def erasedAt (t : EraseTrack) (x y : Nat) : Nat :=
  if h : x < 8 ∧ y < 16 then t.steps[x][y] else 0

/-- the track with the low eight bits of `chain` written at a cell, if the map has the cell -/
def set (t : EraseTrack) (x y chain : Nat) : EraseTrack :=
  if h : x < 8 ∧ y < 16 then ⟨t.steps.set x (t.steps[x].set y (chain % 256))⟩ else t

/-- the number of cells that step `chain` erased -/
def countErased (t : EraseTrack) (chain : Nat) : Nat :=
  if chain = 0 then 0 else (t.steps.toList.flatMap Vector.toList).count chain

theorem erasedAt_empty (x y : Nat) : empty.erasedAt x y = 0 := by
  unfold erasedAt empty
  split <;> simp

theorem erasedAt_set (t : EraseTrack) (x y chain x' y' : Nat) (h : x < 8 ∧ y < 16) :
    (t.set x y chain).erasedAt x' y' = if x' = x ∧ y' = y then chain % 256 else t.erasedAt x' y' := by
  unfold erasedAt set
  rw [dif_pos h]
  by_cases h' : x' < 8 ∧ y' < 16
  · rw [dif_pos h', dif_pos h']
    by_cases hx : x' = x
    · subst hx
      by_cases hy : y' = y
      · subst hy
        simp
      · rw [if_neg (fun e => hy e.2)]
        simp [Ne.symm hy]
    · rw [if_neg (fun e => hx e.1)]
      simp [Ne.symm hx]
  · rw [dif_neg h', dif_neg h', if_neg]
    rintro ⟨rfl, rfl⟩
    exact h' h

theorem set_of_not_lt (t : EraseTrack) (x y chain : Nat) (h : ¬ (x < 8 ∧ y < 16)) :
    t.set x y chain = t := by
  rw [set, dif_neg h]

end EraseTrack

end PuyoChain
