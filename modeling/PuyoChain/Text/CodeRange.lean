/-!
# Ranges of code points

* `CodeRange`   the first and the last code point of a range;
* `inRanges`    a character lies in one of the ranges of a table.
-/

namespace PuyoChain

/-- the first and the last code point of a range, both included -/
abbrev CodeRange := Nat × Nat

/-- the character lies in one of the ranges -/
def inRanges (ranges : List CodeRange) (c : Char) : Bool :=
  ranges.any fun r => r.1 ≤ c.toNat && c.toNat ≤ r.2

theorem inRanges_iff (ranges : List CodeRange) (c : Char) :
    inRanges ranges c = true ↔ ∃ r ∈ ranges, r.1 ≤ c.toNat ∧ c.toNat ≤ r.2 := by
  simp [inRanges]

end PuyoChain
