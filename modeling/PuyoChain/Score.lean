/-!
# Scoring and timing tables

* `stepScore`           the score of one chain step, `10 * erased * clamp(bonus, 1, 999)`;
* `framesToFall`        frames of free fall after a vanish, by rows fallen;
* `framesToSoftDrop`    frames of a soft-dropped piece, by rows fallen.

A table answers its last entry for every larger argument.
-/

namespace PuyoChain

/-- the bonus of the n-th chain step, from 0 -/
def chainBonuses : List Nat :=
  [0, 0, 8, 16, 32, 64, 96, 128, 160, 192, 224, 256, 288, 320, 352, 384, 416, 448, 480, 512]

/-- the bonus of the number of colors that vanish in one step -/
def colorBonuses : List Nat := [0, 0, 3, 6, 12, 24]

/-- frames for which the field stands still while groups vanish -/
def vanishFrames : Nat := 50

/-- frames in which a puyo settles after it lands -/
def groundingFrames : Nat := 10

/-- frames of a one-column shift of a falling piece -/
def shiftFrames : Nat := 2

/-- frames of free fall, by rows fallen -/
def fallFrames : List Nat := [0, 19, 24, 28, 31, 34, 37, 40, 42, 44, 46, 48, 50, 52, 54]

/-- frames of a soft drop, by rows fallen -/
def softDropFrames : List Nat := [0, 2, 4, 6, 8, 10, 12, 14, 16, 18, 20, 22, 24, 26, 28]

/-- the entry of a table, or its last one beyond the end -/
def lookupLast (table : List Nat) (i : Nat) : Nat :=
  table.getD (min i (table.length - 1)) 0

def chainBonus (chain : Nat) : Nat := lookupLast chainBonuses chain

def colorBonus (n : Nat) : Nat := lookupLast colorBonuses n

/-- the bonus of one vanishing group of `size` puyos -/
def longBonus (size : Nat) : Nat :=
  if size ≤ 4 then 0 else if size ≤ 10 then size - 3 else 10

def stepScore (chain erased colors longBonuses : Nat) : Nat :=
  10 * erased * min 999 (max 1 (chainBonus chain + colorBonus colors + longBonuses))

def framesToFall (rows : Nat) : Nat := lookupLast fallFrames rows

def framesToSoftDrop (rows : Nat) : Nat := lookupLast softDropFrames rows

theorem stepScore_eq_zero_iff (chain erased colors longBonuses : Nat) :
    stepScore chain erased colors longBonuses = 0 ↔ erased = 0 := by
  simp only [stepScore, Nat.mul_eq_zero]
  omega

end PuyoChain
