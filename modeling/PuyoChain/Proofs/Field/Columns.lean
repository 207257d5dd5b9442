import PuyoChain.Field.Gravity
import PuyoChain.Field.Stack
import PuyoChain.Field.Vanish
import PuyoChain.Proofs.Column.Settling

/-!
# The field, column by column

* `Field.Every P`     every column has the property `P`;
* `Field.Covered`, `Field.Exact`, `Field.Settled`   the properties of `Column` for all columns.

Each operation is described by what it does to `column? z` (`column?_place`, `column?_removeTop`,
`column?_clear`, …), and fields with equal columns are equal (`ext_column?`).
-/

namespace PuyoChain

namespace Field

/-- every column has the property -/
def Every (P : Column → Prop) (f : Field) : Prop := ∀ x c, f.column? x = some c → P c

theorem every_iff (P : Column → Prop) (f : Field) :
    f.Every P ↔ ∀ i : Fin 6, P (f.columns.get i) := by
  constructor
  · intro h i
    exact h (i + 1) _ (dif_pos ⟨by omega, by omega⟩)
  · intro h x c hc
    unfold column? at hc
    split at hc
    · rw [← Option.some.inj hc]
      exact h ⟨x - 1, by omega⟩
    · cases hc

instance (P : Column → Prop) [DecidablePred P] (f : Field) : Decidable (f.Every P) :=
  decidable_of_iff _ (every_iff P f).symm

/-- no believed height hides a puyo -/
def Covered (f : Field) : Prop := f.Every Column.Covered

/-- every believed height is the row of the topmost cell that is not empty -/
def Exact (f : Field) : Prop := f.Every Column.Exact

instance (f : Field) : Decidable f.Exact := inferInstanceAs (Decidable (f.Every Column.Exact))

/-- no puyo of the rows 1 to 13 stands above an empty cell -/
def Settled (f : Field) : Prop := f.Every Column.Settled

instance (f : Field) : Decidable f.Settled := inferInstanceAs (Decidable (f.Every Column.Settled))

/-! ## columns and cells -/

theorem exists_column? (f : Field) {x : Nat} (h : 1 ≤ x ∧ x ≤ 6) : ∃ c, f.column? x = some c :=
  Option.isSome_iff_exists.mp ((f.column?_isSome_iff x).mpr h)

theorem column_of_column? {f : Field} {x : Nat} {c : Column} (h : f.column? x = some c) :
    1 ≤ x ∧ x ≤ 6 := by
  rw [← f.column?_isSome_iff, h]
  rfl

theorem column?_of_not_column {f : Field} {x : Nat} (h : ¬ (1 ≤ x ∧ x ≤ 6)) :
    f.column? x = none := dif_neg h

theorem ext_column? {f g : Field} (h : ∀ x, f.column? x = g.column? x) : f = g := by
  refine ext_color (fun x y h1 h6 _ _ => ?_) fun x h1 h6 => ?_
  · obtain ⟨c, hc⟩ := f.exists_column? ⟨h1, h6⟩
    rw [color_of_column? hc, color_of_column? ((h x).symm.trans hc)]
  · obtain ⟨c, hc⟩ := f.exists_column? ⟨h1, h6⟩
    rw [height_of_column? hc, height_of_column? ((h x).symm.trans hc)]

theorem color_congr_column? {f g : Field} {x : Nat} (h : f.column? x = g.column? x) (y : Nat) :
    f.color x y = g.color x y := by
  by_cases hx : 1 ≤ x ∧ x ≤ 6
  · obtain ⟨c, hc⟩ := f.exists_column? hx
    rw [color_of_column? hc, color_of_column? (h.symm.trans hc)]
  · rw [color_of_not_column hx, color_of_not_column hx]

theorem height_congr_column? {f g : Field} {x : Nat} (h : f.column? x = g.column? x) :
    f.height x = g.height x := by
  by_cases hx : 1 ≤ x ∧ x ≤ 6
  · obtain ⟨c, hc⟩ := f.exists_column? hx
    rw [height_of_column? hc, height_of_column? (h.symm.trans hc)]
  · rw [height_of_not_column hx, height_of_not_column hx]

/-! ## what the operations do to a column -/

theorem column?_modify (f : Field) (x : Nat) (g : Column → Column) (z : Nat) :
    (f.modify x g).column? z = if z = x then (f.column? z).map g else f.column? z := by
  by_cases hx : 1 ≤ x ∧ x ≤ 6
  · unfold column? modify
    rw [dif_pos hx]
    by_cases hz : 1 ≤ z ∧ z ≤ 6
    · rw [dif_pos hz, dif_pos hz]
      by_cases e : z = x
      · subst e
        simp
      · rw [if_neg e, Vector.getElem_set_ne]
        omega
    · rw [dif_neg hz, dif_neg hz, if_neg]
      rintro rfl
      exact hz hx
  · rw [modify_of_not_column hx]
    split
    · rename_i e
      rw [e, column?_of_not_column hx]
      rfl
    · rfl

theorem column?_set (f : Field) (x y : Nat) (a : Color) (z : Nat) :
    (f.set x y a).column? z = if z = x then (f.column? z).map fun c => c.set y a else f.column? z :=
  f.column?_modify x _ z

theorem column?_place (f : Field) (x : Nat) (a : Color) (z : Nat) :
    (f.place x a).column? z = if z = x then (f.column? z).map fun c => c.stack a else f.column? z :=
  f.column?_modify x _ z

theorem column?_removeTop (f : Field) (x z : Nat) :
    (f.removeTop x).column? z = if z = x then (f.column? z).map Column.pop else f.column? z := by
  unfold removeTop unstack?
  cases hc : f.column? x with
  | none =>
    show f.column? z = _
    split
    · rename_i e
      rw [e, hc]
      rfl
    · rfl
  | some c =>
    rw [Option.bind_some]
    cases hu : c.unstack with
    | none =>
      show f.column? z = _
      split
      · rename_i e
        rw [e, hc]
        simp [Column.pop, hu]
      · rfl
    | some u =>
      show (f.modify x fun _ => u.2).column? z = _
      rw [column?_modify]
      split
      · rename_i e
        rw [e, hc]
        simp [Column.pop, hu]
      · rfl

theorem column?_clear (f : Field) (doomed : List Cell) (z : Nat) :
    (f.clear doomed).column? z =
      (f.column? z).map fun c => c.clear fun y => decide (⟨z, y⟩ ∈ doomed) := by
  unfold column?
  split
  · rename_i h
    have e : z - 1 + 1 = z := by omega
    simp [clear, get_eq_getElem, e]
  · rfl

theorem column?_empty {x : Nat} (h : 1 ≤ x ∧ x ≤ 6) : empty.column? x = some .empty := by
  unfold column?
  rw [dif_pos h]
  exact congrArg some (Vector.getElem_replicate ..)

/-! ## properties of every column -/

theorem Every.mono {P Q : Column → Prop} {f : Field} (hf : f.Every P) (h : ∀ c, P c → Q c) :
    f.Every Q :=
  fun x c hc => h c (hf x c hc)

theorem Every.of_map {P Q : Column → Prop} {f g : Field} {step : Nat → Column → Column}
    (hf : f.Every P) (hg : ∀ z, g.column? z = (f.column? z).map (step z))
    (h : ∀ z c, P c → Q (step z c)) : g.Every Q := by
  intro z c hc
  rw [hg, Option.map_eq_some_iff] at hc
  obtain ⟨c', hc', rfl⟩ := hc
  exact h z c' (hf z c' hc')

theorem Every.of_update {P : Column → Prop} {f g : Field} {x : Nat} {step : Column → Column}
    (hf : f.Every P)
    (hg : ∀ z, g.column? z = if z = x then (f.column? z).map step else f.column? z)
    (h : ∀ c, f.column? x = some c → P c → P (step c)) : g.Every P := by
  intro z c hc
  rw [hg] at hc
  split at hc
  · rename_i e
    rw [e, Option.map_eq_some_iff] at hc
    obtain ⟨c', hc', rfl⟩ := hc
    exact h c' hc' (hf x c' hc')
  · exact hf z c hc

theorem Exact.covered {f : Field} (h : f.Exact) : f.Covered := h.mono fun _ => Column.Exact.covered

/-- fields of the same colors are equal once both are exact -/
theorem Exact.ext_color {f g : Field} (hf : f.Exact) (hg : g.Exact)
    (h : ∀ x y, 1 ≤ x → x ≤ 6 → 1 ≤ y → y ≤ 14 → f.color x y = g.color x y) : f = g := by
  refine ext_column? fun x => ?_
  by_cases hx : 1 ≤ x ∧ x ≤ 6
  · obtain ⟨c, hc⟩ := f.exists_column? hx
    obtain ⟨d, hd⟩ := g.exists_column? hx
    rw [hc, hd]
    refine congrArg some ((hf x c hc).ext (hg x d hd) fun y hy hy' => ?_)
    have hcolor := h x y hx.1 hx.2 hy hy'
    rwa [color_of_column? hc, color_of_column? hd] at hcolor
  · rw [column?_of_not_column hx, column?_of_not_column hx]

theorem exact_empty : empty.Exact := by
  intro x c hc
  rw [column?_empty (column_of_column? hc)] at hc
  rw [← Option.some.inj hc]
  exact Column.exact_empty

theorem Covered.height_le {f : Field} (h : f.Covered) (x : Nat) : f.height x ≤ 14 := by
  by_cases hx : 1 ≤ x ∧ x ≤ 6
  · obtain ⟨c, hc⟩ := f.exists_column? hx
    rw [height_of_column? hc]
    exact (h x c hc).1
  · rw [height_of_not_column hx]
    omega

theorem Covered.color_eq_empty {f : Field} (h : f.Covered) {x y : Nat} (hx : 1 ≤ x ∧ x ≤ 6)
    (hy : f.height x < y) (hy' : y ≤ 14) : f.color x y = .empty := by
  obtain ⟨c, hc⟩ := f.exists_column? hx
  rw [height_of_column? hc] at hy
  rw [color_of_column? hc]
  exact (h x c hc).2 y hy hy'

/-- the cell where the next puyo comes to rest is free -/
theorem Covered.color_above_height {f : Field} (h : f.Covered) {x : Nat} (hx : 1 ≤ x ∧ x ≤ 6)
    (hroom : f.height x < 14) : f.color x (f.height x + 1) = .empty :=
  h.color_eq_empty hx (Nat.lt_succ_self _) hroom

theorem Covered.le_height {f : Field} (h : f.Covered) {x y : Nat} (hx : 1 ≤ x ∧ x ≤ 6)
    (hy : y ≤ 14) (he : f.color x y ≠ .empty) : y ≤ f.height x := by
  by_contra hn
  exact he (h.color_eq_empty hx (by omega) hy)

theorem exact_drop (f : Field) : f.drop.1.Exact :=
  Every.of_map (P := fun _ => True) (fun _ _ _ => trivial) f.column?_drop
    fun _ c _ => Column.exact_drop c

theorem settled_drop (f : Field) : f.drop.1.Settled :=
  Every.of_map (P := fun _ => True) (fun _ _ _ => trivial) f.column?_drop
    fun _ c _ => Column.settled_drop c

theorem fall_drop_le (f : Field) : f.drop.2 ≤ 12 := by
  refine (foldl_max_le_iff _ 0 12).mpr ⟨Nat.zero_le _, fun n hn => ?_⟩
  obtain ⟨d, hd, rfl⟩ := List.mem_map.mp hn
  obtain ⟨i, hi, rfl⟩ := List.getElem_of_mem hd
  have hcol : f.settledColumns.toList[i] = (f.columns.get ⟨i, by simpa using hi⟩).drop := by
    simp [settledColumns]
  rw [hcol]
  exact Column.fall_drop_le _

theorem exact_clear (f : Field) (doomed : List Cell) : (f.clear doomed).Exact :=
  Every.of_map (P := fun _ => True) (fun _ _ _ => trivial) (f.column?_clear doomed)
    fun _ c _ => Column.exact_clear c _

theorem Exact.drop_of_settled {f : Field} (hf : f.Exact) (hs : f.Settled) : f.drop.1 = f := by
  refine ext_column? fun z => ?_
  rw [column?_drop]
  cases hc : f.column? z with
  | none => rfl
  | some c => exact congrArg some ((hf z c hc).drop_of_settled (hs z c hc))

/-! ## one puyo more or less -/

theorem height_place (f : Field) {x : Nat} (hx : 1 ≤ x ∧ x ≤ 6) (a : Color) (z : Nat) :
    (f.place x a).height z = if z = x then f.height z + 1 else f.height z := by
  by_cases e : z = x
  · obtain ⟨c, hc⟩ := f.exists_column? hx
    have h := f.column?_place x a z
    rw [if_pos e, e, hc] at h
    rw [if_pos e, e, height_of_column? hc, height_of_column? h]
    rfl
  · rw [if_neg e]
    exact height_congr_column? ((f.column?_place x a z).trans (if_neg e))

theorem color_place (f : Field) {x : Nat} (hx : 1 ≤ x ∧ x ≤ 6) (h : f.height x < 14) (a : Color)
    (z y : Nat) :
    (f.place x a).color z y = if z = x ∧ y = f.height x + 1 then a else f.color z y := by
  by_cases e : z = x
  · obtain ⟨c, hc⟩ := f.exists_column? hx
    have hp := f.column?_place x a z
    rw [if_pos e, e, hc] at hp
    rw [height_of_column? hc] at h ⊢
    rw [e, color_of_column? hc, color_of_column? hp, Column.color_stack h]
    simp only [true_and]
  · rw [if_neg fun h' => e h'.1]
    exact color_congr_column? ((f.column?_place x a z).trans (if_neg e)) y

theorem place_comm (f : Field) {x x' : Nat} (h : x ≠ x') (a a' : Color) :
    (f.place x a).place x' a' = (f.place x' a').place x a := by
  refine ext_column? fun z => ?_
  simp only [column?_place]
  by_cases e : z = x
  · rw [if_pos e, if_pos e, if_neg (by omega), if_neg (by omega)]
  · rw [if_neg e, if_neg e]

theorem Covered.place {f : Field} (hf : f.Covered) {x : Nat} (h : f.height x < 14) (a : Color) :
    (f.place x a).Covered := by
  refine Every.of_update hf (f.column?_place x a) fun c hc hcov => ?_
  rw [height_of_column? hc] at h
  exact hcov.stack h a

theorem Exact.place {f : Field} (hf : f.Exact) {x : Nat} (h : f.height x < 14) {a : Color}
    (ha : a ≠ .empty) : (f.place x a).Exact := by
  refine Every.of_update hf (f.column?_place x a) fun c hc hex => ?_
  rw [height_of_column? hc] at h
  exact hex.stack h ha

theorem Exact.settled_place {f : Field} (hf : f.Exact) (hs : f.Settled) {x : Nat}
    (h : f.height x < 14) (a : Color) : (f.place x a).Settled := by
  refine Every.of_update hs (f.column?_place x a) fun c hc hset => ?_
  rw [height_of_column? hc] at h
  exact (hf x c hc).settled_stack hset h a

theorem Covered.removeTop {f : Field} (hf : f.Covered) (x : Nat) : (f.removeTop x).Covered :=
  Every.of_update hf (f.column?_removeTop x) fun _ _ h => h.pop

theorem Exact.removeTop {f : Field} (hf : f.Exact) (x : Nat) : (f.removeTop x).Exact :=
  Every.of_update hf (f.column?_removeTop x) fun _ _ h => h.pop

end Field

end PuyoChain
