import PuyoChain.Proofs.Field.Falling
import PuyoChain.Proofs.Placement

/-!
# The neck

* `Field.NeckOpen`         the neck and the cell above it are empty;
* `neckOpen_simulate`      no chain closes an open neck;
* `neckOpen_of_contains`   a piece has somewhere to go only where the neck is open;
* `neckOpen_of_neck_eq_empty`   a piece that closes an open neck occupies the neck itself.
-/

namespace PuyoChain

namespace Field

/-- the neck and the cell above it are empty -/
def NeckOpen (f : Field) : Prop := f.color 3 12 = .empty ∧ f.color 3 13 = .empty

theorem Covered.neckOpen {f : Field} (hf : f.Covered) (h : f.height 3 < 12) : f.NeckOpen :=
  ⟨hf.color_eq_empty (by omega) h (by omega), hf.color_eq_empty (by omega) (by omega) (by omega)⟩

theorem Settled.neckOpen {f : Field} (hs : f.Settled) (h : f.color 3 12 = .empty) :
    f.NeckOpen := by
  obtain ⟨c, hc⟩ := f.exists_column? (x := 3) (by omega)
  unfold NeckOpen
  rw [color_of_column? hc] at h ⊢
  rw [color_of_column? hc]
  exact ⟨h, hs 3 c hc 12 (by omega) (by omega) h⟩

/-- an open neck bounds the height of its column, unless a puyo hangs in row 14 -/
theorem NeckOpen.height_lt {f : Field} (h : f.NeckOpen) (hf : f.Exact) (h14 : f.height 3 < 14) :
    f.height 3 < 12 := by
  obtain ⟨c, hc⟩ := f.exists_column? (x := 3) (by omega)
  obtain ⟨h12, h13⟩ := h
  have hne := (hf 3 c hc).color_ne_empty
  rw [height_of_column? hc] at h14 ⊢
  rw [color_of_column? hc] at h12 h13
  by_contra hn
  have hcases : c.height = 12 ∨ c.height = 13 := by omega
  rcases hcases with e | e
  · rw [e, h12] at hne
    exact hne (by omega) rfl
  · rw [e, h13] at hne
    exact hne (by omega) rfl

/-! ## an open neck stays open -/

theorem neckOpen_drop {f : Field} (h : f.NeckOpen) : f.drop.1.NeckOpen := by
  obtain ⟨c, hc⟩ := f.exists_column? (x := 3) (by omega)
  have hd := f.column?_drop 3
  rw [hc, Option.map_some] at hd
  obtain ⟨h12, h13⟩ := h
  rw [color_of_column? hc] at h12 h13
  have above : ∀ y, 11 < y → y ≤ 13 → c.color y = .empty := by
    intro y hy hy'
    have hcases : y = 12 ∨ y = 13 := by omega
    rcases hcases with rfl | rfl
    · exact h12
    · exact h13
  unfold NeckOpen
  rw [color_of_column? hd, color_of_column? hd]
  exact ⟨Column.color_drop_of_empty_above above 12 (by omega) (by omega),
    Column.color_drop_of_empty_above above 13 (by omega) (by omega)⟩

theorem neckOpen_clear {f : Field} (h : f.NeckOpen) (doomed : List Cell) :
    (f.clear doomed).NeckOpen := by
  unfold NeckOpen
  rw [color_clear f doomed 3 12 (by omega) (by omega), color_clear f doomed 3 13 (by omega)
    (by omega), h.1, h.2, ite_self, ite_self]
  exact ⟨rfl, rfl⟩

theorem neckOpen_cascade {f : Field} (h : f.NeckOpen) (fuel : Nat) (r : ChainResult) :
    (cascade fuel f r).1.NeckOpen :=
  cascade_induction (fun _ doomed hg => neckOpen_drop (neckOpen_clear hg doomed)) fuel h r

/-- no chain closes an open neck -/
theorem neckOpen_simulate {f : Field} (h : f.NeckOpen) : f.simulate.1.NeckOpen := by
  rw [simulate_eq]
  exact neckOpen_cascade (neckOpen_drop h) stepBound .zero

/-- a chain that takes the neck with its first step leaves it open, if nothing lies above -/
theorem neckOpen_simulate_of_vanishing {f : Field} (hf : f.Exact) (hs : f.Settled)
    (h13 : f.color 3 13 = .empty) (hn : (f.colorAt Cell.neck).isNormal = true)
    (hv : 4 ≤ f.groupSize Cell.neck) : f.simulate.1.NeckOpen := by
  have hdrop := hf.drop_of_settled hs
  cases h : f.drop.1.vanish? 1 with
  | none =>
    rw [hdrop, vanish?_eq_none_iff, Bool.eq_false_iff] at h
    exact absurd ((fires_iff hf.covered).mpr ⟨Cell.neck, hn, hv⟩) h
  | some v =>
    rw [simulate_of_vanish?_eq_some h]
    have hfield := field_of_vanish? h
    rw [hdrop] at h hfield
    have hneck : ⟨3, 12⟩ ∈ v.doomed := mem_doomed hf.covered hn hv h
    refine neckOpen_cascade (neckOpen_drop ?_) 83 _
    rw [hfield]
    unfold NeckOpen
    rw [color_clear f v.doomed 3 12 (by omega) (by omega), if_pos hneck,
      color_clear f v.doomed 3 13 (by omega) (by omega), h13, ite_self]
    exact ⟨rfl, rfl⟩

/-! ## the neck and a falling piece -/

/-- a piece has somewhere to go only where the neck is open -/
theorem neckOpen_of_contains {f : Field} (hf : f.Covered) {d : Decision}
    (h : (DecisionSet.reachable f).contains d = true) : f.NeckOpen := by
  have hv := DecisionSet.isValid_of_contains h
  unfold DecisionSet.reachable at h
  by_cases hlow : (fieldColumns.all fun x => decide (f.height x < 12)) = true
  · exact hf.neckOpen (of_decide_eq_true (List.all_eq_true.mp hlow 3 (by decide)))
  · rw [if_neg hlow, DecisionSet.contains_ofList_iff (fun e he => ?_) hv] at h
    · obtain ⟨p, hp, _⟩ := List.mem_map.mp h
      have hfits := spawn_fits_of_mem_placements hp
      simp only [Pose.fits, Pose.isFree, Pose.spawn, Pose.child, Bool.and_eq_true, isEmpty,
        beq_iff_eq] at hfits
      exact ⟨hfits.1.2, hfits.2.2⟩
    · obtain ⟨p, hp, rfl⟩ := List.mem_map.mp he
      exact lt_of_mem_columnDecisions (decision_mem_of_mem_placements hp)

theorem color_of_place_eq_empty {f : Field} {x : Nat} (hx : 1 ≤ x ∧ x ≤ 6) (h : f.height x < 14)
    {a : Color} (ha : a ≠ .empty) {z y : Nat} (he : (f.place x a).color z y = .empty) :
    f.color z y = .empty := by
  rw [color_place f hx h] at he
  split at he
  · exact absurd he ha
  · exact he

/-- a puyo that lands above the neck lies on one in the neck -/
theorem neckOpen_place {f : Field} (hf : f.Exact) (h13 : f.color 3 13 = .empty) {x : Nat}
    (hx : 1 ≤ x ∧ x ≤ 6) (h : f.height x < 14) {a : Color} (ha : a ≠ .empty)
    (he : (f.place x a).color 3 12 = .empty) : (f.place x a).NeckOpen := by
  refine ⟨he, ?_⟩
  have h12 := color_of_place_eq_empty hx h ha he
  rw [color_place f hx h, if_neg, h13]
  rintro ⟨rfl, e⟩
  have hlt := NeckOpen.height_lt ⟨h12, h13⟩ hf h
  omega

/-- a piece that closes an open neck occupies the neck itself -/
theorem neckOpen_of_neck_eq_empty {f g : Field} (hf : f.Exact) (hopen : f.NeckOpen) {d : Decision}
    {p : Piece} (hp : p.Solid) (h : f.lock? d p = some g) (he : g.color 3 12 = .empty) :
    g.NeckOpen := by
  obtain ⟨hx, hr, hx', hr', rfl⟩ := lock?_inv h
  obtain ⟨hlower, hupper⟩ := hp.colors d
  have he' := color_of_place_eq_empty hx' hr' hupper he
  have hfirst := neckOpen_place hf hopen.2 hx hr hlower he'
  exact neckOpen_place (hf.place hr hlower) hfirst.2 hx' hr' hupper he

end Field

end PuyoChain
