import PuyoChain.Decision
import PuyoChain.ChainResult
import PuyoChain.Field.Basic

/-!
# Plans

A plan is a sequence of placements up to the one that starts a chain or is the last one allowed,
with the field that it leaves.
-/

namespace PuyoChain

/-- a sequence of placements and what comes of it -/
structure Plan where
  /-- the field after the last placement and its chain -/
  field : Field
  decisions : List Decision
  /-- the chain of the last placement -/
  result : ChainResult
  /-- the number of placements whose piece splits -/
  splits : Nat
  /-- the frames of all placements but the last -/
  framesToInitiate : Nat
  /-- the frames of the last placement -/
  lastDropFrames : Nat
  deriving DecidableEq

namespace Plan

def firstDecision? (p : Plan) : Option Decision := p.decisions.head?

def placingFrames (p : Plan) : Nat := p.framesToInitiate + p.lastDropFrames

/-- the frames of all placements and of the chain -/
def totalFrames (p : Plan) : Nat := p.placingFrames + p.result.frames

/-- the last placement starts a chain -/
def hasChain (p : Plan) : Bool := 0 < p.result.chains

/-- the placements, joined with hyphens -/
def pathText (p : Plan) : String := Decision.pathText p.decisions

end Plan

end PuyoChain
