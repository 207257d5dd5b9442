import PuyoChain.Additions.Text
import PuyoChain.ChainResult
import PuyoChain.EraseTrack
import PuyoChain.Field.Basic

/-!
# Chains that a search finds

* `FiredChain`      what is left after the chain, its outcome, and the additions that make it;
* `PossibleChain`   the outcome and the additions alone;
* `TrackedChain`    also the step in which each cell of the starting field vanished;
* `FeasibleChain`   a chain of the known pieces, and how long it takes to start it.
-/

namespace PuyoChain

/-- a chain and the field that it leaves -/
structure FiredChain where
  field : Field
  result : ChainResult
  additions : Additions

/-- a chain that a field could have after some additions -/
structure PossibleChain where
  result : ChainResult
  additions : Additions
  deriving DecidableEq, Repr

/-- a possible chain with the step that erased each cell -/
structure TrackedChain where
  field : Field
  result : ChainResult
  additions : Additions
  track : EraseTrack

/-- a chain that the known pieces can make -/
structure FeasibleChain where
  result : ChainResult
  initiatingFrames : Nat
  deriving DecidableEq, Repr

def PossibleChain.text (c : PossibleChain) : String := c.result.text ++ " by " ++ c.additions.text

def FiredChain.toPossible (c : FiredChain) : PossibleChain := ⟨c.result, c.additions⟩

def FeasibleChain.totalFrames (c : FeasibleChain) : Nat := c.initiatingFrames + c.result.frames

end PuyoChain
