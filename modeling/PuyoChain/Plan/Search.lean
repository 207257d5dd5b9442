import PuyoChain.Placement
import PuyoChain.Field.Cascade
import PuyoChain.Field.Lock
import PuyoChain.Plan.Basic
import PuyoChain.Search.Flow

/-!
# The search for plans

From a field every reachable placement of the next piece is tried, of a known piece or else of every
kind of piece.  A branch ends with a chain or at the last depth; a placement that leaves the neck
occupied ends without a plan.

* `PlanSearch.explore`    the search below a node.  The placements of a node share one working field:
                          each takes its two cells off again when it is done with; after a chain,
                          which cannot be taken back, the working field is the node's field anew;
* `visitPlans`            the search from a field;
* `collectPlans`          all its plans;
* `collectPlansByRoot`    the plans of the first placements, each searched on a field of its own.

Memory is taken to suffice.  A search that begins by reserving room for as many placements as its
depth allows ends there if so much cannot be reserved, as for a depth of 2 to the 62nd or more; that
end is left out.
-/

namespace PuyoChain

namespace PlanSearch

/-- what has been placed on the way to a node -/
structure Branch where
  /-- the placements, first one first -/
  decisions : List Decision
  splits : Nat
  frames : Nat

def Branch.start : Branch := ⟨[], 0, 0⟩

/-- the state between two placements of a node -/
structure Work (σ : Type) where
  field : Field
  /-- a chain has changed the working field for good -/
  stale : Bool
  state : σ

/-- the kinds of piece to try at a depth: the known piece, or else every kind -/
def kindsAt (queue : PieceQueue) (depth : Nat) : List Piece :=
  match queue.get? depth with
  | some p => [p]
  | none => Piece.kinds

def choices (queue : PieceQueue) (depth : Nat) (f : Field) : List (Piece × Decision) :=
  let reachable := DecisionSet.reachable f
  (kindsAt queue depth).flatMap fun p =>
    ((Decision.forPiece p).filter reachable.contains).map fun d => (p, d)

section
variable {σ : Type}

/-- the field after the chain of a locked piece, and the outcome; the chain is worked out only where
one of the two new cells belongs to a vanishing group -/
def resolve (locked : Field) (d : Decision) : Field × ChainResult :=
  if locked.firesAfter d then locked.simulate else (locked, .zero)

/-- one placement on the working field; `below` searches on from the field it leaves, unless the
depth is the last one -/
def tryChoice (visit : Visitor σ Plan) (below : Field → Branch → σ → Flow σ σ) (last : Bool)
    (branch : Branch) (work : Field) (choice : Piece × Decision) (s : σ) : Flow σ (Work σ) :=
  let d := choice.2
  match work.lock? d choice.1 with
  | none => .proceed ⟨work, false, s⟩
  | some locked =>
    let (after, result) := resolve locked d
    let fired : Bool := 0 < result.chains
    let back : Field := if fired then after else after.unlock d
    if !after.isEmpty Cell.neck.x Cell.neck.y then .proceed ⟨back, fired, s⟩
    else
      let decisions := branch.decisions ++ [d]
      let splits := branch.splits + (work.splits d).toNat
      let frames := work.placementFrames d
      let flow :=
        if last || fired then visit s ⟨after, decisions, result, splits, branch.frames, frames⟩
        else below after ⟨decisions, splits, branch.frames + frames⟩ s
      flow.map fun s => ⟨back, fired, s⟩

/-- the search below a node at a depth, over at most `rest` further placements -/
def explore (visit : Visitor σ Plan) (queue : PieceQueue) :
    (rest : Nat) → (depth : Nat) → Field → Branch → σ → Flow σ σ
  | 0, _, _, _, s => .proceed s
  | rest + 1, depth, f, branch, s =>
    let part := fun (w : Work σ) choice =>
      tryChoice visit (explore visit queue rest (depth + 1)) (rest == 0) branch
        (if w.stale then f else w.field) choice w.state
    (each part (choices queue depth f) ⟨f, false, s⟩).map Work.state

end

end PlanSearch

section
variable {σ : Type}

/-- shows every plan of at most `maxDepth` placements to a visitor, for every depth: that the room
for so many placements cannot be reserved is left out -/
def visitPlans (f : Field) (queue : PieceQueue) (maxDepth : Nat) (visit : Visitor σ Plan) (s : σ) :
    Flow σ σ :=
  PlanSearch.explore visit queue maxDepth 0 f .start s

end

/-- all plans of at most `maxDepth` placements; that the room for them, or for the placements of one,
cannot be reserved is left out -/
def collectPlans (f : Field) (queue : PieceQueue) (maxDepth : Nat) : List Plan :=
  gather (visitPlans f queue maxDepth)

/-- the plans that begin with one placement, searched on a field of its own -/
def plansFrom (f : Field) (queue : PieceQueue) (rest : Nat) (choice : Piece × Decision) :
    List Plan :=
  gather fun visit s =>
    (PlanSearch.tryChoice visit (PlanSearch.explore visit queue rest 1) (rest == 0) .start f choice
      s).map PlanSearch.Work.state

/-- all plans of at most `maxDepth` placements, searched apart for each first placement -/
def collectPlansByRoot (f : Field) (queue : PieceQueue) : (maxDepth : Nat) → List Plan
  | 0 => []
  | rest + 1 => (PlanSearch.choices queue 0 f).flatMap (plansFrom f queue rest)

end PuyoChain
