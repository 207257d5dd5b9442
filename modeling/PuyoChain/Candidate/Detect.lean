import PuyoChain.Candidate.Drop
import PuyoChain.Candidate.Extend
import PuyoChain.Candidate.Float

/-!
# Detection: all candidates of one strategy

* `candidates`   the candidates of a strategy, repeated fields included;
* `detect`       shows them to a visitor, each field once.
-/

namespace PuyoChain

/-- the candidates of a strategy, with repeated fields -/
def candidates (f : Field) (s : Strategy) (prohibited : ColumnMask) (purpose : Purpose) :
    List Candidate :=
  match s.mode with
  | .drop => (dropSeeds prohibited).flatMap (dropCandidates f s purpose)
  | .float => (floatSeeds f s prohibited).flatMap (floatCandidates f s purpose)
  | .extend => (extendSeeds f).flatMap (extendCandidates f s prohibited purpose)

section
variable {σ : Type}

/-- shows the candidates of a strategy outside the prohibited columns to a visitor, each field once;
once the visitor stops, no further run is worked out -/
def detect (f : Field) (s : Strategy) (prohibited : ColumnMask) (purpose : Purpose)
    (visit : Visitor σ Candidate) (state : σ) : Flow σ σ :=
  match s.mode with
  | .drop => showEach (dropCandidates f s purpose) (dropSeeds prohibited) visit state
  | .float => showEach (floatCandidates f s purpose) (floatSeeds f s prohibited) visit state
  | .extend =>
    showEach (extendCandidates f s prohibited purpose) (extendSeeds f) visit state

theorem detect_eq_each (f : Field) (s : Strategy) (prohibited : ColumnMask) (purpose : Purpose)
    (visit : Visitor σ Candidate) (state : σ) :
    detect f s prohibited purpose visit state =
      (each (showNew visit) (candidates f s prohibited purpose) ⟨[], state⟩).map Seen.state := by
  unfold detect candidates
  cases s.mode <;> exact showEach_eq_flatMap ..

end

/-- all candidates of a strategy, each field once -/
def detected (f : Field) (s : Strategy) (prohibited : ColumnMask) (purpose : Purpose) :
    List Candidate :=
  gather (detect f s prohibited purpose)

end PuyoChain
