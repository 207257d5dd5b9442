import PuyoChain.Candidate.Detect
import PuyoChain.Field.Cascade

/-!
# Layered detection

A layer looks for candidates in the field that the chain of the layer below leaves, and makes their
additions to the untouched field, on top of those of the layers below.  Additions always land on
top, so they end up where the layer looked for them, after the chain below.

* `ChainVisitor`   a visitor that answers how many steps the chain of a candidate has;
* `compose?`       a candidate's additions made to the untouched field;
* `visitLayered`   shows the composed candidates of all layers, each field once.  A layer is built
                   upon only where the answer is more than the answer for the layer below.
-/

namespace PuyoChain

/-- a visitor that answers how many steps the chain of a candidate has -/
abbrev ChainVisitor (σ : Type) := σ → Candidate → Flow σ (σ × Nat)

/-- the additions `l` after the additions `base`, made to a field -/
def compose? (f : Field) (base l : Additions) : Option Candidate :=
  (base.merge l).bind fun m => (f.stackAll? m).map fun g => ⟨g, m⟩

/-- the additions that a layer finds on a field -/
def layerAdditions (current : Field) (s : Strategy) : List Additions :=
  (detected current s .empty .fire).map Candidate.additions

section
variable {σ : Type}

/-- at most `rest` layers above the additions `base`, whose chain has `previous` steps and leaves the
field `current` -/
def visitLayers (f : Field) (s : Strategy) (visit : ChainVisitor σ) :
    (rest : Nat) → (current : Field) → (base : Additions) → (previous : Nat) → Seen σ →
      Flow σ (Seen σ)
  | 0, _, _, _, seen => .proceed seen
  | rest + 1, current, base, previous, seen =>
    each (fun seen l =>
      match compose? f base l with
      | none => .proceed seen
      | some c =>
        let hash := c.field.zobristHash
        if hash ∈ seen.hashes then .proceed seen
        else
          (visit seen.state c).andThen fun (state, chains) =>
            let seen := ⟨hash :: seen.hashes, state⟩
            if previous < chains then
              visitLayers f s visit rest c.field.simulate.1 c.additions chains seen
            else .proceed seen)
    (layerAdditions current s) seen

/-- shows the composed candidates of at most `maxLayers` layers to a visitor -/
def visitLayered (f : Field) (s : Strategy) (maxLayers : Nat) (visit : ChainVisitor σ) (state : σ) :
    Flow σ σ :=
  (visitLayers f s visit maxLayers f .empty 0 ⟨[], state⟩).map Seen.state

end

end PuyoChain
