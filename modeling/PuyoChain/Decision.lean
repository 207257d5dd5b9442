import PuyoChain.Piece

/-!
# Decisions: where and how a piece locks

* `Decision`            axis column and rotation (0 child above, 1 child right, 2 child below,
                        3 child left);
* `Decision.catalog`    the 22 valid decisions in a fixed order of preference;
* `Decision.forPiece`   the part of the catalog that is tried for a piece: its first half
                        already covers every outcome of a piece of one color.
-/

namespace PuyoChain

/-- where and how a piece locks -/
structure Decision where
  x : Nat
  /-- the rotation: 0 child above, 1 child right, 2 child below, 3 child left -/
  r : Nat
  deriving DecidableEq, Repr

namespace Decision

/-- the decision of two numbers, of which it keeps the low eight bits -/
def ofNats (x r : Nat) : Decision := ⟨x % 256, r % 256⟩

/-- the decisions that leave both cells in the field, those that cover every outcome of a piece of
one color first -/
def catalog : List Decision := [
  ⟨2, 3⟩, ⟨3, 3⟩, ⟨3, 1⟩, ⟨4, 1⟩, ⟨5, 1⟩, ⟨1, 2⟩, ⟨2, 2⟩, ⟨3, 2⟩, ⟨4, 2⟩, ⟨5, 2⟩, ⟨6, 2⟩,
  ⟨1, 1⟩, ⟨2, 1⟩, ⟨4, 3⟩, ⟨5, 3⟩, ⟨6, 3⟩, ⟨1, 0⟩, ⟨2, 0⟩, ⟨3, 0⟩, ⟨4, 0⟩, ⟨5, 0⟩, ⟨6, 0⟩]

/-- how much of the catalog is tried for a piece of one color -/
def doubleCount : Nat := 11

/-- the decisions that are tried for a piece -/
def forPiece (p : Piece) : List Decision :=
  if p.isDouble then catalog.take doubleCount else catalog

def axisX (d : Decision) : Nat := d.x

def childX (d : Decision) : Nat :=
  if d.r = 1 then d.x + 1 else if d.r = 3 then d.x - 1 else d.x

def isVertical (d : Decision) : Bool := d.r == 0 || d.r == 2

def isValid (d : Decision) : Bool :=
  1 ≤ d.x && d.x ≤ 6 && d.r ≤ 3 && !(d.x == 1 && d.r == 3) && !(d.x == 6 && d.r == 1)

def text (d : Decision) : String := "(" ++ toString d.x ++ "," ++ toString d.r ++ ")"

def pathText (ds : List Decision) : String := "-".intercalate (ds.map text)

theorem isValid_iff (d : Decision) :
    d.isValid = true ↔ (1 ≤ d.x ∧ d.x ≤ 6) ∧ d.r ≤ 3 ∧ (1 ≤ d.childX ∧ d.childX ≤ 6) := by
  obtain ⟨x, r⟩ := d
  simp only [isValid, childX, Bool.and_eq_true, decide_eq_true_eq, Bool.not_eq_true',
    Bool.and_eq_false_iff, beq_eq_false_iff_ne]
  constructor
  · rintro ⟨⟨⟨⟨h1, h6⟩, hr⟩, hl⟩, hu⟩
    refine ⟨⟨h1, h6⟩, hr, ?_⟩
    split
    · omega
    · split <;> omega
  · rintro ⟨⟨h1, h6⟩, hr, hc⟩
    split at hc
    · omega
    · split at hc <;> omega

theorem isValid_of_mem_catalog {d : Decision} (h : d ∈ catalog) : d.isValid = true :=
  List.all_eq_true.mp (by decide : catalog.all isValid = true) d h

theorem forPiece_subset_catalog {p : Piece} {d : Decision} (h : d ∈ forPiece p) : d ∈ catalog := by
  unfold forPiece at h
  split at h
  · exact List.mem_of_mem_take h
  · exact h

end Decision

end PuyoChain
