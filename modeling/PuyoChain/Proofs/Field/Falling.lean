import PuyoChain.Proofs.Field.Firing

/-!
# What falls

* `drop_place`           a puyo placed below row 14 comes to rest on top of the fallen column;
* `height_simulate_le`   no column becomes higher in a chain;
* `keptIn_drop_lock?`    a locked piece does not move what falls;
* `lock?_drop`           where a piece locks, it locks after everything has fallen.
-/

namespace PuyoChain

namespace Field

/-! ## one puyo -/

theorem Covered.height_drop_le {f : Field} (hf : f.Covered) (x : Nat) :
    f.drop.1.height x ≤ f.height x := by
  by_cases hx : 1 ≤ x ∧ x ≤ 6
  · obtain ⟨c, hc⟩ := f.exists_column? hx
    have hd := f.column?_drop x
    have h14 := f.exact_drop.covered.height_le x
    rw [hc, Option.map_some] at hd
    rw [height_of_column? hd] at h14 ⊢
    rw [height_of_column? hc]
    by_cases h : c.height < 14
    · exact Column.height_drop_le (hf x c hc) h
    · omega
  · rw [height_of_not_column hx]
    exact Nat.zero_le _

theorem column?_drop_place {f : Field} (hf : f.Covered) {x : Nat} {a : Color} (ha : a ≠ .empty)
    {z : Nat} (h : z = x → f.height x < 13) :
    (f.place x a).drop.1.column? z = (f.drop.1.place x a).column? z := by
  rw [column?_drop, column?_place, column?_place, column?_drop]
  by_cases e : z = x
  · rw [if_pos e, if_pos e]
    cases hc : f.column? z with
    | none => rfl
    | some c =>
      have hh := h e
      rw [← e, height_of_column? hc] at hh
      exact congrArg some (Column.drop_stack (hf z c hc) hh ha)
  · rw [if_neg e, if_neg e]

theorem drop_place {f : Field} (hf : f.Covered) {x : Nat} (h : f.height x < 13) {a : Color}
    (ha : a ≠ .empty) : (f.place x a).drop.1 = f.drop.1.place x a :=
  ext_column? fun _ => column?_drop_place hf ha fun _ => h

/-- a puyo placed in row 14 changes nothing below -/
theorem color_drop_place_of_height_eq {f : Field} {x : Nat} (h : f.height x = 13) (a : Color)
    (z y : Nat) (hy : 1 ≤ y) (hy' : y ≤ 13) :
    (f.place x a).drop.1.color z y = f.drop.1.color z y := by
  have hd := f.column?_drop z
  have hp := (f.place x a).column?_drop z
  rw [column?_place] at hp
  by_cases e : z = x
  · rw [if_pos e] at hp
    cases hc : f.column? z with
    | none =>
      rw [hc] at hd hp
      exact color_congr_column? (hp.trans hd.symm) y
    | some c =>
      rw [hc] at hd hp
      rw [← e, height_of_column? hc] at h
      rw [color_of_column? hd, color_of_column? hp]
      exact Column.color_drop_stack_of_height_eq h a y hy hy'
  · rw [if_neg e, ← hd] at hp
    exact color_congr_column? hp y

/-- a placed puyo does not move what falls -/
theorem keptIn_drop_place {f : Field} (hf : f.Covered) {x : Nat} (h : f.height x < 14) {a : Color}
    (ha : a ≠ .empty) : f.drop.1.KeptIn (f.place x a).drop.1 := by
  intro p hv hne
  rw [Cell.isVisible_iff] at hv
  obtain ⟨c, hc⟩ := f.exists_column? hv.1
  have hd := f.column?_drop p.x
  have hp := (f.place x a).column?_drop p.x
  rw [column?_place] at hp
  by_cases e : p.x = x
  · rw [if_pos e, hc] at hp
    rw [hc] at hd
    rw [← e, height_of_column? hc] at h
    unfold colorAt at hne ⊢
    rw [color_of_column? hd] at hne ⊢
    rw [color_of_column? hp]
    exact Column.color_drop_stack (hf p.x c hc) h ha p.y hv.2.1 (by omega) hne
  · rw [if_neg e, ← hd] at hp
    exact color_congr_column? hp p.y

/-! ## no column becomes higher -/

/-- a height that is exact is no more than any row above which all is empty -/
theorem Exact.height_le_of_empty_above {f : Field} (hf : f.Exact) {x h : Nat}
    (habove : ∀ y, h < y → y ≤ 14 → f.color x y = .empty) : f.height x ≤ h := by
  by_cases hx : 1 ≤ x ∧ x ≤ 6
  · obtain ⟨c, hc⟩ := f.exists_column? hx
    have h14 := hf.covered.height_le x
    by_contra hn
    have hempty := habove (f.height x) (by omega) h14
    rw [height_of_column? hc] at hn hempty
    rw [color_of_column? hc] at hempty
    exact (hf x c hc).color_ne_empty (by omega) hempty
  · rw [height_of_not_column hx]
    exact Nat.zero_le h

theorem height_clear_le {f : Field} (hf : f.Covered) (doomed : List Cell) (x : Nat) :
    (f.clear doomed).height x ≤ f.height x := by
  by_cases hx : 1 ≤ x ∧ x ≤ 6
  · refine (f.exact_clear doomed).height_le_of_empty_above fun y hy hy' => ?_
    rw [color_clear f doomed x y hx (by omega), hf.color_eq_empty hx hy hy', ite_self]
  · rw [height_of_not_column hx]
    exact Nat.zero_le _

/-- no column becomes higher in a step -/
theorem height_drop_clear_le {f : Field} (hf : f.Covered) (doomed : List Cell) (x : Nat) :
    (f.clear doomed).drop.1.height x ≤ f.height x :=
  Nat.le_trans ((f.exact_clear doomed).covered.height_drop_le x) (height_clear_le hf doomed x)

theorem height_simulate_le {f : Field} (hf : f.Covered) (x : Nat) :
    f.simulate.1.height x ≤ f.height x := by
  have hkept : f.simulate.1.Covered ∧ f.simulate.1.height x ≤ f.height x := by
    rw [simulate_eq]
    refine cascade_induction (P := fun g => g.Covered ∧ g.height x ≤ f.height x)
      (fun g doomed hg => ?_) stepBound ⟨f.exact_drop.covered, hf.height_drop_le x⟩ .zero
    exact ⟨(g.clear doomed).exact_drop.covered,
      Nat.le_trans (height_drop_clear_le hg.1 doomed x) hg.2⟩
  exact hkept.2

/-! ## a piece -/

theorem keptIn_drop_lock? {f g : Field} (hf : f.Covered) {d : Decision} {p : Piece} (hp : p.Solid)
    (h : f.lock? d p = some g) : f.drop.1.KeptIn g.drop.1 := by
  obtain ⟨_, hr, _, hr', rfl⟩ := lock?_inv h
  obtain ⟨hlower, hupper⟩ := hp.colors d
  exact (keptIn_drop_place hf hr hlower).trans (keptIn_drop_place (hf.place hr _) hr' hupper)

/-- additions that fit a field fit one with lower columns -/
theorem Fits.of_height_le {f g : Field} {as : List Addition}
    (hle : ∀ a ∈ as, g.height a.x ≤ f.height a.x) (h : f.Fits as) : g.Fits as := by
  induction as generalizing f g with
  | nil => trivial
  | cons a as ih =>
    obtain ⟨hx, hr, hfit⟩ := h
    have ha := hle a List.mem_cons_self
    refine ⟨hx, by omega, ih (fun b hb => ?_) hfit⟩
    have hb' := hle b (List.mem_cons_of_mem a hb)
    rw [height_place g hx, height_place f hx]
    split <;> omega

/-- where a piece locks, it locks after everything has fallen -/
theorem lock?_drop {f g : Field} (hf : f.Covered) {d : Decision} {p : Piece}
    (h : f.lock? d p = some g) :
    f.drop.1.lock? d p = some (f.drop.1.placeAll (p.additions d)) := by
  obtain ⟨hv, hfit, _⟩ := (lock?_eq_some_iff f g d p).mp h
  exact (lock?_eq_some_iff _ _ d p).mpr
    ⟨hv, hfit.of_height_le fun a _ => hf.height_drop_le a.x, rfl⟩

end Field

end PuyoChain
