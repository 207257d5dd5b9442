import PuyoChain.Proofs.Field.Firing
import PuyoChain.Proofs.Field.Resting

/-!
# The check right after a piece was locked

* `mem_newCells_iff`           the cells that `firesAfter` looks at are those that the piece has
                               filled, found again from the new heights;
* `firesAfter_predicts_chain`  on a settled field without vanishing groups the look at these two
                               cells answers what a scan of the field and the chain itself answer.
-/

namespace PuyoChain

namespace Field

variable {f g : Field} {d : Decision} {p : Piece}

theorem height_of_lock? (h : f.lock? d p = some g) (x : Nat) :
    g.height x = f.height x + (if d.axisX = x then 1 else 0) + (if d.childX = x then 1 else 0) := by
  obtain ⟨_, hfit, rfl⟩ := (lock?_eq_some_iff f _ d p).mp h
  rw [height_placeAll hfit.column]
  simp only [Piece.additions, List.countP_cons, List.countP_nil, beq_iff_eq]
  omega

/-- the cells on top of the columns of a decision are those that the piece has just filled -/
theorem mem_newCells_iff (h : f.lock? d p = some g) (q : Cell) :
    q ∈ g.newCells d ↔ q = f.axisRest d ∨ q = f.childRest d := by
  have hv := ((lock?_eq_some_iff f g d p).mp h).1
  have haxis := height_of_lock? h d.axisX
  have hchild := height_of_lock? h d.childX
  unfold newCells axisRest childRest
  by_cases hd : d.r = 0 ∨ d.r = 2
  · rw [d.childX_of_vertical hd, if_pos rfl] at haxis
    rw [if_pos (d.isVertical_iff.mpr hd), d.childX_of_vertical hd, haxis]
    rcases hd with hd | hd
    · simp [hd, or_comm]
    · simp [hd]
  · have hne := Decision.childX_ne_axisX hv hd
    rw [if_pos rfl, if_neg hne] at haxis
    rw [if_pos rfl, if_neg (Ne.symm hne)] at hchild
    rw [not_or] at hd
    rw [if_neg fun e => (not_or.mpr hd) (d.isVertical_iff.mp e), haxis, hchild, if_neg hd.1,
      if_neg hd.2]
    simp

theorem isNormal_of_mem_newCells (hp : p.Normal) (h : f.lock? d p = some g) {q : Cell}
    (hq : q ∈ g.newCells d) : (g.colorAt q).isNormal = true := by
  obtain ⟨haxis, hchild⟩ := colorAt_rests h
  rcases (mem_newCells_iff h q).mp hq with rfl | rfl
  · rw [haxis]
    exact hp.1
  · rw [hchild]
    exact hp.2

/-- **The look at two cells predicts the chain.**  On a settled field with exact heights in which no
group vanishes, whatever piece of normal colors locks wherever it can: the check of the two cells
that it has filled, the scan of the whole field and the chain itself agree. -/
theorem firesAfter_predicts_chain (hf : f.Exact) (hs : f.Settled)
    (hn : ∀ q, (f.colorAt q).isNormal = true → f.groupSize q < 4) (hp : p.Normal)
    (h : f.lock? d p = some g) :
    g.firesAfter d = g.fires ∧ (g.fires = true ↔ 1 ≤ g.simulate.2.chains) := by
  have hg : g.Exact := hf.lock? hp.solid h
  have hsettled : g.drop.1 = g := hg.drop_of_settled (hf.settled_lock? hs hp.solid h)
  constructor
  · rw [Bool.eq_iff_iff]
    constructor
    · intro ha
      obtain ⟨q, hq, h4⟩ := (g.firesAfter_iff d).mp ha
      exact (fires_iff hg.covered).mpr ⟨q, isNormal_of_mem_newCells hp h hq, h4⟩
    · intro hfires
      refine (fires_of_lock? hf.covered h hfires).resolve_left fun hbefore => ?_
      obtain ⟨q, hq, h4⟩ := (fires_iff hf.covered).mp hbefore
      have := hn q hq
      omega
  · have hchains := g.chains_simulate_pos_iff_fires
    rw [hsettled] at hchains
    exact hchains.symm

/-- three red puyos on the floor with a gap between them -/
def redGap : Field := Field.empty.placeAll [⟨1, .red⟩, ⟨2, .red⟩, ⟨4, .red⟩]

/-- the axis of a piece that splits closes the gap -/
theorem firesAfter_predicts_chain_redGap :
    redGap.Exact ∧ redGap.Settled ∧
      (∀ q, (redGap.colorAt q).isNormal = true → redGap.groupSize q < 4) ∧
      (⟨.red, .blue⟩ : Piece).Normal ∧
      ∃ g, redGap.lock? ⟨3, 1⟩ ⟨.red, .blue⟩ = some g ∧ g.firesAfter ⟨3, 1⟩ = true ∧
        g.fires = true ∧ 1 ≤ g.simulate.2.chains := by
  have hf : redGap.Exact := by decide +kernel
  have hs : redGap.Settled := by decide +kernel
  have hquiet : redGap.fires = false := by decide +kernel
  have hn : ∀ q, (redGap.colorAt q).isNormal = true → redGap.groupSize q < 4 := by
    intro q hq
    by_contra h4
    have hfires := (fires_iff hf.covered).mpr ⟨q, hq, by omega⟩
    rw [hquiet] at hfires
    cases hfires
  have hp : (⟨.red, .blue⟩ : Piece).Normal := by decide
  have hlock : ((redGap.lock? ⟨3, 1⟩ ⟨.red, .blue⟩).any fun g => g.firesAfter ⟨3, 1⟩) = true := by
    decide +kernel
  obtain ⟨g, hg, hfires⟩ := (Option.any_eq_true ..).mp hlock
  obtain ⟨hscan, hchain⟩ := firesAfter_predicts_chain hf hs hn hp hg
  rw [hscan] at hfires
  exact ⟨hf, hs, hn, hp, g, hg, hscan.trans hfires, hfires, hchain.mp hfires⟩

end Field

end PuyoChain
