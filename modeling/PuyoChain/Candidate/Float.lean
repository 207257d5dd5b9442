import PuyoChain.Candidate.Basic
import PuyoChain.ColumnMask

/-!
# Candidates by floating

A vertical run of the color of a puyo goes into a column beside it, with its top in the row of the
puyo.  What the run leaves open below it is filled with garbage, where the strategy allows that.

* `FloatSeed`         a puyo and a column beside it that ends below the puyo;
* `floatCandidate?`   the candidate with a run of a given length;
* `floatRun`          the candidates with runs of several lengths, up to the first that fires.
-/

namespace PuyoChain

/-- where a run may be put -/
structure FloatSeed where
  /-- the row of the puyo, and of the top of the run -/
  y : Nat
  /-- the color of the puyo and of the run -/
  color : Color
  x : Nat
  height : Nat

def floatSeedsAt (f : Field) (prohibited : ColumnMask) (p : Cell) : List FloatSeed :=
  if (f.colorAt p).isNormal then
    ([p.x - 1, p.x + 1].filter fun x =>
      1 ≤ x && x ≤ 6 && !prohibited.contains x && f.height x < p.y).map fun x =>
        ⟨p.y, f.colorAt p, x, f.height x⟩
  else []

/-- the seeds of all puyos up to the ceiling, column by column -/
def floatSeeds (f : Field) (s : Strategy) (prohibited : ColumnMask) : List FloatSeed :=
  (fieldColumns.flatMap (f.columnCells s.ceiling)).flatMap (floatSeedsAt f prohibited)

/-- the additions of a run of length `k` over the garbage below it -/
def floatAdditions? (seed : FloatSeed) (k : Nat) : Option Additions :=
  (Additions.empty.addCopies seed.x .garbage (seed.y - k - seed.height)).bind fun l =>
    l.addCopies seed.x seed.color k

def floatCandidate? (f : Field) (seed : FloatSeed) (k : Nat) : Option Candidate :=
  (floatAdditions? seed k).bind fun l => (f.stackAll? l).map fun g => ⟨g, l⟩

/-- the candidates with runs of the lengths of a list, up to the first that fires -/
def floatRun (f : Field) (s : Strategy) (purpose : Purpose) (seed : FloatSeed) :
    List Nat → List Candidate
  | [] => []
  | k :: ks =>
    if 0 < seed.y - k - seed.height && !s.allowsGarbage then floatRun f s purpose seed ks
    else
      match floatCandidate? f seed k with
      | none => []
      | some c =>
        if c.field.inVanishing ⟨seed.x, seed.y⟩ then [c]
        else c.shown purpose ++ floatRun f s purpose seed ks

def floatCandidates (f : Field) (s : Strategy) (purpose : Purpose) (seed : FloatSeed) :
    List Candidate :=
  floatRun f s purpose seed (rowsUpTo (min s.maxPuyos (seed.y - seed.height)))

end PuyoChain
