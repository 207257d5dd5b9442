import PuyoChain.Field.Group
import PuyoChain.Field.Stack
import PuyoChain.Field.Zobrist
import PuyoChain.Search.Flow
import PuyoChain.Strategy

/-!
# Candidates

A candidate is a field with additions made and not yet simulated.  Candidates come in runs that grow
one puyo at a time; a run ends with its first candidate that fires.

* `Candidate`          the field and the additions;
* `Candidate.shown`    what a run shows of one candidate that does not fire;
* `showEach`           shows the candidates of several runs to a visitor, and those whose field has
                       the hash of one shown before not again.
-/

namespace PuyoChain

/-- a field with additions made to it -/
structure Candidate where
  /-- the field with the additions, before any chain -/
  field : Field
  additions : Additions
  deriving DecidableEq

/-- a candidate that does not fire is shown only as a key -/
def Candidate.shown (purpose : Purpose) (c : Candidate) : List Candidate :=
  match purpose with
  | .fire => []
  | .key => [c]

/-- the state of a search that shows every field once -/
structure Seen (σ : Type) where
  /-- the hashes of the fields that were shown -/
  hashes : List UInt64
  state : σ

section
variable {σ α : Type}

/-- shows a candidate, unless the hash of its field was seen before -/
def showNew (visit : Visitor σ Candidate) (seen : Seen σ) (c : Candidate) : Flow σ (Seen σ) :=
  let hash := c.field.zobristHash
  if hash ∈ seen.hashes then .proceed seen
  else (visit seen.state c).map fun s => ⟨hash :: seen.hashes, s⟩

/-- shows the candidates of a run for every element of a list, each field once -/
def showEach (run : α → List Candidate) (seeds : List α) (visit : Visitor σ Candidate) (s : σ) :
    Flow σ σ :=
  (each (fun seen a => each (showNew visit) (run a) seen) seeds ⟨[], s⟩).map Seen.state

/-- the runs make up one list of candidates -/
theorem showEach_eq_flatMap (run : α → List Candidate) (seeds : List α)
    (visit : Visitor σ Candidate) (s : σ) :
    showEach run seeds visit s =
      (each (showNew visit) (seeds.flatMap run) ⟨[], s⟩).map Seen.state := by
  rw [showEach, each_flatMap]

end

end PuyoChain
