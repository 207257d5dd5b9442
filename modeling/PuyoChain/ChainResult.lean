import PuyoChain.Score

/-!
# The outcome of a chain

* `ChainResult`             chain steps, score, frames, and whether the last step left nothing to
                            fall;
* `ChainResult.afterStep`   one more step: a vanish and the fall that follows it.
-/

namespace PuyoChain

/-- the outcome of a whole chain -/
structure ChainResult where
  chains : Nat
  /-- the score of all steps together -/
  score : Nat
  /-- the frames of all steps together -/
  frames : Nat
  /-- nothing fell after the last step, so that the next piece appears sooner -/
  quick : Bool
  deriving DecidableEq, Repr

namespace ChainResult

def zero : ChainResult := ⟨0, 0, 0, false⟩

/-- the outcome after one more step that scored `score`, with a longest fall of `fall` rows -/
def afterStep (r : ChainResult) (score fall : Nat) : ChainResult where
  chains := r.chains + 1
  score := r.score + score
  frames := r.frames + vanishFrames + if 0 < fall then framesToFall fall + groundingFrames else 0
  quick := fall == 0

def text (r : ChainResult) : String :=
  "chains=" ++ toString r.chains ++ " score=" ++ toString r.score ++ " frames=" ++
    toString r.frames ++ if r.quick then " quick" else ""

theorem chains_afterStep (r : ChainResult) (score fall : Nat) :
    (r.afterStep score fall).chains = r.chains + 1 := rfl

theorem score_afterStep (r : ChainResult) (score fall : Nat) :
    (r.afterStep score fall).score = r.score + score := rfl

end ChainResult

end PuyoChain
