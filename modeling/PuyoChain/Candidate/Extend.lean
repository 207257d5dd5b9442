import PuyoChain.Candidate.Basic
import PuyoChain.ColumnMask

/-!
# Candidates by extending groups

A group of one to three puyos grows by one adjacent empty cell at a time until it is large enough to
vanish.  A cell above the top of its column costs the puyos that fill the column up to it; a cell
under a floating puyo cannot be filled at all.

* `growthCells`   the cells by which a group may grow;
* `grow`          the candidates that grow from a group.

A grown group is larger than the group it comes from and is not grown further from four cells on, so
three levels are all that there are.
-/

namespace PuyoChain

/-- the limits of growing -/
structure Growth where
  /-- the highest row that may be filled -/
  ceiling : Nat
  /-- the columns that must not be filled -/
  prohibited : ColumnMask
  purpose : Purpose

/-- the cells left of, right of, above and below a cell -/
def cellsAround (p : Cell) : List Cell :=
  [⟨p.x - 1, p.y⟩, ⟨p.x + 1, p.y⟩, ⟨p.x, p.y + 1⟩, ⟨p.x, p.y - 1⟩]

/-- the cell may be filled -/
def Growth.admits (w : Growth) (f : Field) (p : Cell) : Bool :=
  1 ≤ p.x && p.x ≤ 6 && 1 ≤ p.y && p.y ≤ w.ceiling && !w.prohibited.contains p.x &&
    f.colorAt p == .empty

/-- the cells beside a group that may be filled, each where it is first met -/
def growthCells (w : Growth) (f : Field) (group : List Cell) : List Cell :=
  fresh [] ((group.flatMap cellsAround).filter (w.admits f))

/-- the field with `n` puyos of a color on column `x`, as far as it has room -/
def stackCopies (x : Nat) (a : Color) : Nat → Field → Field
  | 0, f => f
  | n + 1, f => stackCopies x a n ((f.stack? x a).getD f)

/-- the number of levels on which a group can grow -/
def growthLevels : Nat := 3

/-- the candidates that grow from a group on at most `fuel` levels, with `budget` puyos left and the
additions `l` made so far -/
def grow (w : Growth) (a : Color) : (fuel : Nat) → Field → List Cell → (budget : Nat) → Additions →
    List Candidate
  | 0, _, _, _, _ => []
  | fuel + 1, f, group, budget, l =>
    (growthCells w f group).flatMap fun p =>
      let cost := p.y - f.height p.x
      if cost = 0 ∨ budget < cost then []
      else
        match l.addCopies p.x a cost with
        | none => []
        | some m =>
          let grown := stackCopies p.x a cost f
          let members := grown.group p
          if 4 ≤ members.length then [⟨grown, m⟩]
          else
            Candidate.shown w.purpose ⟨grown, m⟩ ++ grow w a fuel grown members (budget - cost) m

def extendSeeds (f : Field) : List Group := f.groups.filter fun g => !g.vanishes

def extendCandidates (f : Field) (s : Strategy) (prohibited : ColumnMask) (purpose : Purpose)
    (g : Group) : List Candidate :=
  grow ⟨s.ceiling, prohibited, purpose⟩ g.color growthLevels f g.cells s.maxPuyos .empty

end PuyoChain
