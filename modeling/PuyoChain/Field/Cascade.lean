import PuyoChain.Field.Gravity
import PuyoChain.Field.Vanish
import PuyoChain.ChainResult

/-!
# The whole chain

Everything falls; then groups vanish and the rest falls, until nothing vanishes.

* `Field.cascade`     a bounded number of steps of a chain;
* `Field.simulate`    the field after the chain, and the outcome.

A step erases at least four of the 84 cells, so `stepBound` steps are more than any chain has.
-/

namespace PuyoChain

/-- a bound on the number of steps of a chain -/
def stepBound : Nat := 84

namespace Field

/-- at most `fuel` further steps of a chain, after the outcome `r` so far -/
def cascade : Nat → Field → ChainResult → Field × ChainResult
  | 0, f, r => (f, r)
  | fuel + 1, f, r =>
    match f.vanish? (r.chains + 1) with
    | none => (f, r)
    | some v =>
      let fallen := v.field.drop
      cascade fuel fallen.1 (r.afterStep v.score fallen.2)

/-- the field after its chain, and the outcome -/
def simulate (f : Field) : Field × ChainResult := cascade stepBound f.drop.1 .zero

theorem cascade_of_vanish?_eq_none {f : Field} {r : ChainResult}
    (h : f.vanish? (r.chains + 1) = none) (fuel : Nat) : cascade fuel f r = (f, r) := by
  cases fuel with
  | zero => rfl
  | succ fuel =>
    unfold cascade
    rw [h]

theorem cascade_of_vanish?_eq_some {f : Field} {r : ChainResult} {v : Vanish}
    (h : f.vanish? (r.chains + 1) = some v) (fuel : Nat) :
    cascade (fuel + 1) f r =
      cascade fuel v.field.drop.1 (r.afterStep v.score v.field.drop.2) := by
  show (match f.vanish? (r.chains + 1) with
    | none => (f, r)
    | some v => cascade fuel v.field.drop.1 (r.afterStep v.score v.field.drop.2)) = _
  rw [h]

end Field

end PuyoChain
