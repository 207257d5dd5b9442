import PuyoChain.Pose
import PuyoChain.Search.Spread

/-!
# Placements that a piece can be brought to

* `Pose.reached`          all poses that some moves lead to from the place where a piece appears;
* `Placement`             a decision, and the row in which its axis cell comes to rest before any
                          split;
* `placements`            for every column and rotation among the reached poses, the rest below the
                          highest of them, in ascending order of the decision;
* `DecisionSet`           a set of decisions, as one bit for each rotation and column;
* `DecisionSet.reachable` the reachable decisions: all of them as long as every column is low;
* `isReachable`           one decision; all columns on the way being low is enough.
-/

namespace PuyoChain

/-- the number of poses: rotations, columns and rows of the map -/
def poseCount : Nat := 512

/-- the poses that moves lead to, if a piece can appear at all -/
def Pose.reached (f : Field) : List Pose :=
  if Pose.spawn.fits f then spread (Pose.moves f) poseCount [] [Pose.spawn] else []

/-- where a piece can be brought to rest -/
structure Placement where
  decision : Decision
  /-- the row in which the axis cell comes to rest before any split -/
  landingRow : Nat
  deriving DecidableEq, Repr

def Placement.text (p : Placement) : String := p.decision.text ++ "@" ++ toString p.landingRow

/-- the highest row in which poses stand in column `x` with rotation `r`, 0 for none -/
def bestRow (poses : List Pose) (x r : Nat) : Nat :=
  ((poses.filter fun p => p.x == (x : Int) && p.r == r).map fun p => p.y.toNat).foldl max 0

/-- every decision of a column of the field and a rotation, in ascending order -/
def columnDecisions : List Decision :=
  fieldColumns.flatMap fun x => [0, 1, 2, 3].map fun r => ⟨x, r⟩

/-- the placement of a decision among reached poses -/
def placementAmong (f : Field) (poses : List Pose) (d : Decision) : Option Placement :=
  let y := bestRow poses d.x d.r
  if y = 0 then none else some ⟨d, (Pose.landing f ⟨d.x, y, d.r⟩).y.toNat⟩

/-- the placements that a piece can be brought to, in ascending order of their decisions -/
def placements (f : Field) : List Placement :=
  let poses := Pose.reached f
  columnDecisions.filterMap (placementAmong f poses)

/-- a set of decisions; the bit `8 * r + x` stands for column `x` and rotation `r` -/
structure DecisionSet where
  bits : BitVec 32
  deriving DecidableEq

namespace DecisionSet

def empty : DecisionSet := ⟨0⟩

def bitOf (d : Decision) : Nat := 8 * d.r + d.x

/-- the set with one more decision, which is not checked -/
def insert (s : DecisionSet) (d : Decision) : DecisionSet := ⟨s.bits ||| BitVec.twoPow 32 (bitOf d)⟩

/-- the decision is valid and its bit is in the set -/
def contains (s : DecisionSet) (d : Decision) : Bool := d.isValid && s.bits.getLsbD (bitOf d)

def size (s : DecisionSet) : Nat := (List.range 32).countP fun i => s.bits.getLsbD i

def isEmpty (s : DecisionSet) : Bool := s.bits == 0

def ofList (ds : List Decision) : DecisionSet := ds.foldl insert empty

def reachable (f : Field) : DecisionSet :=
  if fieldColumns.all fun x => f.height x < 12 then ofList Decision.catalog
  else ofList ((placements f).map Placement.decision)

end DecisionSet

/-- the columns between the place where a piece appears and both cells of a decision -/
def columnsOnTheWay (d : Decision) : List Nat :=
  fieldColumns.filter fun x =>
    min spawnColumn (min d.axisX d.childX) ≤ x && x ≤ max spawnColumn (max d.axisX d.childX)

/-- a piece can be brought to a decision -/
def isReachable (f : Field) (d : Decision) : Bool :=
  d.isValid &&
    ((columnsOnTheWay d).all (fun x => f.height x < 12) ||
      (placements f).any fun p => p.decision == d)

namespace DecisionSet

theorem getLsbD_insert (s : DecisionSet) (d : Decision) (i : Nat) (h : i < 32) :
    (s.insert d).bits.getLsbD i = (s.bits.getLsbD i || decide (i = bitOf d)) := by
  simp [insert, h]

end DecisionSet

end PuyoChain
