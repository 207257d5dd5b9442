import PuyoChain.Candidate.Key
import PuyoChain.Candidate.Layered
import PuyoChain.Field.Tracking
import PuyoChain.Found.Basic
import PuyoChain.Plan.Search

/-!
# The searches for chains

* `visitPossible`      chains of candidates on the field with key additions;
* `visitSideChains`    chains of candidates beside a column that gets one or two keys of a color in
                       it;
* `visitTracked`       chains of layered candidates, with tracks;
* `findPossible`, `findTracked`, `findFeasible`   lists of all of them, and of the chains of plans.
-/

namespace PuyoChain

section
variable {σ : Type}

/-- shows the chains of the candidates on a field with key additions `keys` already made -/
def visitFired (keyed : Field) (keys : Additions) (s : Strategy) (prohibited : ColumnMask)
    (visit : Visitor σ FiredChain) (state : σ) : Flow σ σ :=
  detect keyed s prohibited .fire (fun state c =>
    match keys.merge c.additions with
    | none => .proceed state
    | some l =>
      let (after, result) := c.field.simulate
      if result.chains = 0 then .proceed state else visit state ⟨after, result, l⟩) state

/-- shows the chains of candidates after at most `maxKeys` key additions -/
def visitPossible (f : Field) (maxKeys : Nat) (s : Strategy) (visit : Visitor σ FiredChain)
    (state : σ) : Flow σ σ :=
  visitKeysUpTo f s .empty maxKeys maxKeys maxKeys
    (fun state keyed => visitFired keyed.field keyed.additions s .empty visit state) state

/-- the normal colors of the visible puyos of column `x`, in ascending order -/
def columnColors (f : Field) (x : Nat) : List Color :=
  Color.normals.filter fun a => (f.columnCells visibleHeight x).any fun p => f.colorAt p == a

/-- shows the chains with up to `n` more keys of a color on column `x` and the trigger elsewhere,
until the keys fire by themselves -/
def visitSideKeys (s : Strategy) (visit : Visitor σ FiredChain) (x : Nat) (a : Color) :
    Nat → Field → Additions → σ → Flow σ σ
  | 0, _, _, state => .proceed state
  | n + 1, f, keys, state =>
    if s.ceiling ≤ f.height x then .proceed state
    else
      match f.stack? x a, keys.add x a with
      | some g, some m =>
        if g.inVanishing ⟨x, g.height x⟩ then .proceed state
        else
          (visitFired g m s (.only x) visit state).andThen fun state =>
            visitSideKeys s visit x a n g m state
      | _, _ => .proceed state

/-- shows the chains with one or two keys on a column, of a color that the column has, and the
trigger elsewhere -/
def visitSideChains (f : Field) (s : Strategy) (visit : Visitor σ FiredChain) (state : σ) :
    Flow σ σ :=
  each (fun state x =>
    each (fun state a => visitSideKeys s visit x a 2 f .empty state) (columnColors f x) state)
    fieldColumns state

/-- shows the chains of layered candidates of at most `maxLayers` layers, with tracks -/
def visitTracked (f : Field) (maxLayers : Nat) (s : Strategy) (visit : Visitor σ TrackedChain)
    (state : σ) : Flow σ σ :=
  visitLayered f s maxLayers (fun state c =>
    let (after, result, track) := c.field.simulateTracked .empty
    (visit state ⟨after, result, c.additions, track⟩).map fun state => (state, result.chains)) state

end

/-- all chains of candidates after at most `maxKeys` key additions -/
def findPossible (f : Field) (maxKeys : Nat) (s : Strategy) : List PossibleChain :=
  (gather (visitPossible f maxKeys s)).map FiredChain.toPossible

/-- all chains of layered candidates of at most `maxLayers` layers -/
def findTracked (f : Field) (maxLayers : Nat) (s : Strategy) : List TrackedChain :=
  gather (visitTracked f maxLayers s)

/-- all chains that the known pieces can make within `maxDepth` placements -/
def findFeasible (f : Field) (queue : PieceQueue) (maxDepth : Nat) : List FeasibleChain :=
  ((collectPlans f queue maxDepth).filter Plan.hasChain).map fun p => ⟨p.result, p.placingFrames⟩

end PuyoChain
