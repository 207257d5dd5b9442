import PuyoChain.Decision
import PuyoChain.Field.Basic

/-!
# Poses of a falling piece and its moves

* `Pose`                where the axis cell is, and the rotation;
* `Pose.fits`           both cells of the piece are on empty cells of the field;
* `Pose.shift?`, `Pose.turn?`, `Pose.flip?`, `Pose.fall?`   the moves, none where they are blocked;
* `Pose.landing`        the pose in which the piece comes to rest without further moves.

A blocked quarter turn tries its kick: where the child swings sideways the axis is pushed the other
way, and where that is blocked too a vertical piece flips; where the child swings below the axis the
piece is lifted by one row.
-/

namespace PuyoChain

/-- where a falling piece is -/
structure Pose where
  x : Int
  y : Int
  /-- the rotation: 0 child above, 1 child right, 2 child below, 3 child left -/
  r : Nat
  deriving DecidableEq, Repr

namespace Pose

def spawn : Pose := ⟨3, 12, 0⟩

/-- where the child cell is, by column and row -/
def child (p : Pose) : Int × Int :=
  match p.r % 4 with
  | 0 => (p.x, p.y + 1)
  | 1 => (p.x + 1, p.y)
  | 2 => (p.x, p.y - 1)
  | _ => (p.x - 1, p.y)

/-- the cell in column `x` and row `y` is an empty cell of the field -/
def isFree (f : Field) (x y : Int) : Bool := 1 ≤ x && 1 ≤ y && f.isEmpty x.toNat y.toNat

/-- both cells are on empty cells of the field -/
def fits (f : Field) (p : Pose) : Bool := isFree f p.x p.y && isFree f p.child.1 p.child.2

def ifFits (f : Field) (p : Pose) : Option Pose := if p.fits f then some p else none

/-- the pose `dx` columns further -/
def shift? (f : Field) (p : Pose) (dx : Int) : Option Pose :=
  if p.x + dx < 1 ∨ 6 < p.x + dx then none else ifFits f { p with x := p.x + dx }

def fall? (f : Field) (p : Pose) : Option Pose := ifFits f { p with y := p.y - 1 }

/-- the pose after a half turn, in which the axis takes the cell of the child; only a vertical
piece does it -/
def flip? (f : Field) (p : Pose) : Option Pose :=
  match p.r with
  | 0 => ifFits f ⟨p.x, p.y + 1, 2⟩
  | 2 => ifFits f ⟨p.x, p.y - 1, 0⟩
  | _ => none

/-- the pose after a quarter turn to rotation `r`, perhaps kicked -/
def turnTo? (f : Field) (p : Pose) (r : Nat) : Option Pose :=
  (ifFits f ⟨p.x, p.y, r⟩).or <|
    match r with
    | 1 => (ifFits f ⟨p.x - 1, p.y, r⟩).or (p.flip? f)
    | 3 => (ifFits f ⟨p.x + 1, p.y, r⟩).or (p.flip? f)
    | 2 => ifFits f ⟨p.x, p.y + 1, r⟩
    | _ => none

def turn? (f : Field) (p : Pose) (clockwise : Bool) : Option Pose :=
  p.turnTo? f (if clockwise then (p.r + 1) % 4 else (p.r + 3) % 4)

/-- the pose after at most `fuel` rows of falling -/
def landFrom (f : Field) : Nat → Pose → Pose
  | 0, p => p
  | fuel + 1, p =>
    match p.fall? f with
    | some q => landFrom f fuel q
    | none => p

/-- the pose in which a piece comes to rest; it cannot fall over more rows than are below it -/
def landing (f : Field) (p : Pose) : Pose := landFrom f p.y.toNat p

/-- the poses after one move: a shift to the left or right, a quarter turn either way, or a fall by
one row -/
def moves (f : Field) (p : Pose) : List Pose :=
  [p.shift? f (-1), p.shift? f 1, p.turn? f true, p.turn? f false, p.fall? f].filterMap id

theorem ifFits_eq_some_iff (f : Field) (p q : Pose) :
    ifFits f p = some q ↔ p = q ∧ q.fits f = true := by
  unfold ifFits
  split
  · rename_i h
    constructor
    · intro e
      obtain rfl := Option.some.inj e
      exact ⟨rfl, h⟩
    · rintro ⟨rfl, _⟩
      rfl
  · rename_i h
    constructor
    · intro e
      cases e
    · rintro ⟨rfl, e⟩
      exact absurd e h

/-- a free cell lies in the field -/
theorem inField_of_isFree {f : Field} {x y : Int} (h : isFree f x y = true) :
    (1 ≤ x ∧ x ≤ 6) ∧ 1 ≤ y ∧ y ≤ 14 := by
  simp only [isFree, Bool.and_eq_true, decide_eq_true_eq, Field.isEmpty, beq_iff_eq] at h
  obtain ⟨⟨hx, hy⟩, he⟩ := h
  have hc : 1 ≤ x.toNat ∧ x.toNat ≤ 6 := by
    refine Decidable.byContradiction fun hn => ?_
    rw [Field.color_of_not_column hn] at he
    cases he
  have hr : 1 ≤ y.toNat ∧ y.toNat ≤ 14 := by
    refine Decidable.byContradiction fun hn => ?_
    rw [Field.color_of_not_row hn] at he
    cases he
  omega

end Pose

end PuyoChain
