import PuyoChain.Proofs.Field.Neck
import PuyoChain.Proofs.Plan.Sharing

/-!
# A placement on a field and on the fallen field

* `Yields`        a placement on a field leaves the neck free;
* `yields_drop`   it does so on the fallen field too, where that has no vanishing group.

If the placement does not close the neck of the fallen field, no chain does (`neckOpen_simulate`).
If it does, it closes the neck of the field itself, so a chain there has opened it again.  Below row
14 both placements come to rest alike and the chain is the same one (`drop_eq_placeAll`).  With a
puyo in row 14 the other one is in the neck and vanishes first on either field
(`neck_vanishes_of_row14`).
-/

namespace PuyoChain

namespace PlanSearch

/-- the placement leaves the neck free -/
def Yields (f : Field) (c : Piece × Decision) : Prop :=
  ∃ g, f.lock? c.2 c.1 = some g ∧
    (resolve g c.2).1.isEmpty Cell.neck.x Cell.neck.y = true

theorem neck_isEmpty_iff (f : Field) :
    f.isEmpty Cell.neck.x Cell.neck.y = true ↔ f.color 3 12 = .empty := beq_iff_eq

theorem neckOpen_resolve {g : Field} (h : g.NeckOpen) (d : Decision) : (resolve g d).1.NeckOpen := by
  unfold resolve
  split
  · exact Field.neckOpen_simulate h
  · exact h

/-! ## the locked piece on the fallen field -/

section
variable {f g : Field} (hf : f.Exact) (hopen : f.NeckOpen) {d : Decision} {p : Piece}
  (hp : p.Solid) (hl : f.lock? d p = some g)
include hf hp hl

include hopen in
/-- both placements leave the same column under the neck -/
theorem column?_neck_eq :
    (f.drop.1.placeAll (p.additions d)).column? 3 = g.drop.1.column? 3 := by
  obtain ⟨hx, hr, _, hr', rfl⟩ := Field.lock?_inv hl
  obtain ⟨hlower, hupper⟩ := hp.colors d
  have hfirst : (f.place d.axisX (p.lower d)).drop.1.column? 3 =
      (f.drop.1.place d.axisX (p.lower d)).column? 3 := by
    refine Field.column?_drop_place hf.covered hlower fun e => ?_
    rw [← e] at hr ⊢
    have := hopen.height_lt hf hr
    omega
  rw [Field.placeAll_additions, Field.placeAll_additions,
    Field.column?_drop_place (hf.place hr hlower).covered hupper fun e => ?_,
    Field.column?_place _ d.childX, Field.column?_place _ d.childX, hfirst]
  rw [← e, Field.height_place f hx] at hr' ⊢
  by_cases e' : 3 = d.axisX
  · rw [if_pos e'] at hr' ⊢
    have := hopen.height_lt hf (by omega)
    omega
  · rw [if_neg e'] at hr' ⊢
    have := hopen.height_lt hf hr'
    omega

/-- below row 14 both placements come to rest alike -/
theorem drop_eq_placeAll (h : f.height d.axisX < 13)
    (h' : (f.place d.axisX (p.lower d)).height d.childX < 13) :
    g.drop.1 = f.drop.1.placeAll (p.additions d) := by
  obtain ⟨_, hr, _, _, rfl⟩ := Field.lock?_inv hl
  obtain ⟨hlower, hupper⟩ := hp.colors d
  rw [Field.placeAll_additions, Field.placeAll_additions,
    Field.drop_place (hf.place hr hlower).covered h' hupper, Field.drop_place hf.covered h hlower]

end

/-! ## a puyo in row 14 -/

section
variable {f : Field} (hf : f.Exact) {x : Nat} (hx : 1 ≤ x ∧ x ≤ 6) (hx3 : x ≠ 3)
  (h13 : f.height x = 13) (h3 : f.height 3 < 12) {a a' : Color}
include hf hx3 h13 h3

include hx in
/-- the pair on the fallen field -/
theorem color_pair (z y : Nat) :
    ((f.drop.1.place 3 a).place x a').color z y =
      if z = x ∧ y = f.drop.1.height x + 1 then a'
      else if z = 3 ∧ y = f.drop.1.height 3 + 1 then a else f.drop.1.color z y := by
  have hle3 := hf.covered.height_drop_le 3
  have hlex := hf.covered.height_drop_le x
  have hh : (f.drop.1.place 3 a).height x = f.drop.1.height x := by
    rw [Field.height_place _ (by omega), if_neg hx3]
  rw [Field.color_place _ hx (by omega), Field.color_place _ (by omega) (by omega), hh]

/-- the pair after it has fallen together with the field -/
theorem color_drop_pair (ha : a ≠ .empty) (z y : Nat) (hy : 1 ≤ y) (hy' : y ≤ 13) :
    ((f.place 3 a).place x a').drop.1.color z y =
      if z = 3 ∧ y = f.drop.1.height 3 + 1 then a else f.drop.1.color z y := by
  have hle3 := hf.covered.height_drop_le 3
  have hh : (f.place 3 a).height x = 13 := by
    rw [Field.height_place _ (by omega), if_neg hx3, h13]
  rw [Field.color_drop_place_of_height_eq hh a' z y hy hy',
    Field.drop_place hf.covered (by omega) ha, Field.color_place _ (by omega) (by omega)]

include hx in
theorem keptIn_pair (ha : a ≠ .empty) :
    ((f.place 3 a).place x a').drop.1.KeptIn ((f.drop.1.place 3 a).place x a') := by
  have hlex := hf.covered.height_drop_le x
  intro q hq hne
  rw [Cell.isVisible_iff] at hq
  unfold Field.colorAt at hne ⊢
  rw [color_drop_pair hf hx3 h13 h3 ha q.x q.y hq.2.1 (by omega)] at hne ⊢
  rw [color_pair hf hx hx3 h13 h3, if_neg]
  rintro ⟨e, e'⟩
  rw [if_neg (fun e3 => hx3 (e.symm.trans e3.1)), e, e'] at hne
  exact hne (f.exact_drop.covered.color_eq_empty hx (by omega) (by omega))

include hx in
/-- with one puyo of a pair in row 14 and the other one in the neck, a chain of the fallen pair
takes the neck first, also where the puyo in row 14 has fallen too -/
theorem neck_vanishes_of_row14 (hopen : f.NeckOpen) (hn : f.drop.1.fires = false)
    (ha : a ≠ .empty) (hfires : ((f.place 3 a).place x a').drop.1.fires = true)
    (hneck : ((f.drop.1.place 3 a).place x a').color 3 12 ≠ .empty) :
    ((((f.drop.1.place 3 a).place x a').colorAt Cell.neck).isNormal = true ∧
      4 ≤ ((f.drop.1.place 3 a).place x a').groupSize Cell.neck) ∧
      ((f.drop.1.place 3 a).place x a').color 3 13 = .empty := by
  obtain ⟨h12', h13'⟩ := Field.neckOpen_drop hopen
  have hk : f.drop.1.height 3 + 1 = 12 := by
    by_contra hne
    rw [color_pair hf hx hx3 h13 h3, if_neg (fun e => hx3 e.1.symm), if_neg (by omega)] at hneck
    exact hneck h12'
  have same : ∀ q : Cell, q.isVisible = true → q ∉ [Cell.neck] →
      f.drop.1.colorAt q = ((f.place 3 a).place x a').drop.1.colorAt q := by
    intro q hq hqn
    rw [Cell.isVisible_iff] at hq
    unfold Field.colorAt
    rw [color_drop_pair hf hx3 h13 h3 ha q.x q.y hq.2.1 (by omega), hk, if_neg]
    rintro ⟨e, e'⟩
    refine hqn (List.mem_singleton.mpr ?_)
    obtain ⟨qx, qy⟩ := q
    exact (Cell.mk.injEq qx qy 3 12).mpr ⟨e, e'⟩
  rcases Field.fires_of_agree f.exact_drop.covered same hfires with h | ⟨q, hq, hnormal, h4⟩
  · rw [hn] at h
    cases h
  · rw [List.mem_singleton] at hq
    subst hq
    have hkept : ((f.place 3 a).place x a').drop.1.KeptIn ((f.drop.1.place 3 a).place x a') :=
      keptIn_pair hf hx hx3 h13 h3 ha
    have hne : ((f.place 3 a).place x a').drop.1.colorAt Cell.neck ≠ .empty := by
      intro e
      rw [e] at hnormal
      cases hnormal
    refine ⟨⟨?_, Nat.le_trans h4 (hkept.groupSize_le _)⟩, ?_⟩
    · rw [hkept Cell.neck (by decide) hne]
      exact hnormal
    · rw [color_pair hf hx hx3 h13 h3, if_neg (fun e => hx3 e.1.symm), if_neg (by omega), h13']

end

/-! ## a placement that leaves the neck free -/

theorem color_neck_of_not_over {f : Field} {d : Decision} {p : Piece} (h : d.axisX ≠ 3)
    (h' : d.childX ≠ 3) : (f.placeAll (p.additions d)).color 3 12 = f.color 3 12 := by
  refine Field.color_congr_column? ?_ 12
  rw [Field.placeAll_additions, Field.column?_place, if_neg (Ne.symm h'), Field.column?_place,
    if_neg (Ne.symm h)]

/-- where a locked piece reaches row 14 and closes the neck of the fallen field, a chain takes the
neck first -/
theorem neck_vanishes_of_lock? {f g : Field} (hf : f.Exact) (hopen : f.NeckOpen)
    (hn : f.drop.1.fires = false) {d : Decision} {p : Piece} (hp : p.Solid)
    (hl : f.lock? d p = some g) (hfires : g.drop.1.fires = true)
    (h14 : ¬ (f.height d.axisX < 13 ∧ (f.place d.axisX (p.lower d)).height d.childX < 13))
    (hneck : (f.drop.1.placeAll (p.additions d)).color 3 12 ≠ .empty) :
    (((f.drop.1.placeAll (p.additions d)).colorAt Cell.neck).isNormal = true ∧
      4 ≤ (f.drop.1.placeAll (p.additions d)).groupSize Cell.neck) ∧
      (f.drop.1.placeAll (p.additions d)).color 3 13 = .empty := by
  obtain ⟨hx, hr, hx', hr', rfl⟩ := Field.lock?_inv hl
  obtain ⟨hlower, hupper⟩ := hp.colors d
  have hover : ¬ (d.axisX ≠ 3 ∧ d.childX ≠ 3) := by
    rintro ⟨h, h'⟩
    rw [color_neck_of_not_over h h'] at hneck
    exact hneck (Field.neckOpen_drop hopen).1
  have hlow := fun h => hopen.height_lt hf h
  rw [Field.height_place f hx] at hr' h14
  rw [Field.placeAll_additions] at hfires hneck ⊢
  by_cases e : d.childX = d.axisX
  · rw [if_pos e, e] at hr' h14
    have h3 : d.axisX = 3 := by
      by_contra h
      exact hover ⟨h, e ▸ h⟩
    rw [h3] at hr hr' h14
    have := hlow hr
    omega
  · rw [if_neg e] at hr' h14
    by_cases h3 : d.axisX = 3
    · have hlt := hlow (h3 ▸ hr)
      rw [h3] at hfires hneck e h14 ⊢
      exact neck_vanishes_of_row14 hf hx' e (by omega) hlt hopen hn hlower hfires hneck
    · have h3' : d.childX = 3 := by
        by_contra h
        exact hover ⟨h3, h⟩
      have hlt := hlow (h3' ▸ hr')
      rw [h3'] at hfires hneck e h14 ⊢
      rw [Field.place_comm _ h3] at hfires hneck ⊢
      exact neck_vanishes_of_row14 hf hx h3 (by omega) hlt hopen hn hupper hfires hneck

/-- a placement without a chain that leaves the neck free leaves it free after falling -/
theorem neck_drop_of_chains_eq_zero {f g : Field} (hf : f.Exact) (hopen : f.NeckOpen)
    {d : Decision} {p : Piece} (hp : p.Solid) (hl : f.lock? d p = some g)
    (h0 : (resolve g d).2.chains = 0) (hneck : (resolve g d).1.color 3 12 = .empty) :
    g.drop.1.color 3 12 = .empty := by
  rw [resolve_of_chains_eq_zero h0] at hneck
  by_cases e : g.firesAfter d = true
  · rwa [if_pos e] at hneck
  · rw [if_neg e] at hneck
    exact (Field.neckOpen_drop (Field.neckOpen_of_neck_eq_empty hf hopen hp hl hneck)).1

/-- a placement that leaves the neck free does so on the fallen field too -/
theorem yields_drop {f : Field} (hf : f.Exact) (hopen : f.NeckOpen) (hn : f.drop.1.fires = false)
    {c : Piece × Decision} (hp : c.1.Solid) (h : Yields f c) : Yields f.drop.1 c := by
  obtain ⟨g, hl, hneck⟩ := h
  rw [neck_isEmpty_iff] at hneck
  have hl' := Field.lock?_drop hf.covered hl
  have hG := f.exact_drop.lock? hp hl'
  have hGs := f.exact_drop.settled_lock? f.settled_drop hp hl'
  have hcol := Field.color_congr_column? (column?_neck_eq hf hopen hp hl) 12
  refine ⟨_, hl', (neck_isEmpty_iff _).mpr ?_⟩
  by_cases h12 : (f.drop.1.placeAll (c.1.additions c.2)).color 3 12 = .empty
  · exact (neckOpen_resolve (hGs.neckOpen h12) c.2).1
  · -- a chain on the field has opened the neck again
    have hpos : 0 < (resolve g c.2).2.chains := by
      by_contra h0
      rw [hcol] at h12
      exact h12 (neck_drop_of_chains_eq_zero hf hopen hp hl (by omega) hneck)
    obtain ⟨hsim, hfires⟩ := resolve_of_chains_pos hpos
    by_cases h14 : f.height c.2.axisX < 13 ∧
        (f.place c.2.axisX (c.1.lower c.2)).height c.2.childX < 13
    · have heq := drop_eq_placeAll hf hp hl h14.1 h14.2
      have hsame : (f.drop.1.placeAll (c.1.additions c.2)).simulate = g.simulate := by
        rw [Field.simulate_eq, Field.simulate_eq, hG.drop_of_settled hGs, heq]
      rw [heq] at hfires
      rw [resolve_eq_simulate_of_fires f.exact_drop.covered hn hl' hfires, hsame, ← hsim]
      exact hneck
    · obtain ⟨⟨hnormal, h4⟩, h13⟩ := neck_vanishes_of_lock? hf hopen hn hp hl hfires h14 h12
      have hGf := (Field.fires_iff hG.covered).mpr ⟨Cell.neck, hnormal, h4⟩
      rw [resolve_eq_simulate_of_fires f.exact_drop.covered hn hl' hGf]
      exact (Field.neckOpen_simulate_of_vanishing hG hGs h13 hnormal h4).1

end PlanSearch

end PuyoChain
