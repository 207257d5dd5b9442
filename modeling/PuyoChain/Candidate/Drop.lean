import PuyoChain.Candidate.Basic
import PuyoChain.ColumnMask

/-!
# Candidates by dropping

Puyos of one color go on top of a column until one of them belongs to a vanishing group.

* `dropRun`     the candidates of one column and one color;
* `dropSeeds`   the columns and colors.
-/

namespace PuyoChain

/-- the candidates with up to `n` more puyos of a color on column `x`, none above row `ceiling` -/
def dropRun (purpose : Purpose) (ceiling x : Nat) (a : Color) :
    Nat → Field → Additions → List Candidate
  | 0, _, _ => []
  | n + 1, f, l =>
    if ceiling ≤ f.height x then []
    else
      match f.stack? x a, l.add x a with
      | some g, some m =>
        if g.inVanishing ⟨x, g.height x⟩ then [⟨g, m⟩]
        else Candidate.shown purpose ⟨g, m⟩ ++ dropRun purpose ceiling x a n g m
      | _, _ => []

/-- the columns and colors for which puyos are dropped -/
def dropSeeds (prohibited : ColumnMask) : List (Nat × Color) :=
  (fieldColumns.filter fun x => !prohibited.contains x).flatMap fun x =>
    Color.normals.map fun a => (x, a)

/-- the candidates of one column and one color -/
def dropCandidates (f : Field) (s : Strategy) (purpose : Purpose) (seed : Nat × Color) :
    List Candidate :=
  dropRun purpose s.ceiling seed.1 seed.2 s.maxPuyos f .empty

end PuyoChain
