import Mathlib.Algebra.Group.End
import Mathlib.Logic.Function.Basic
import Mathlib.Tactic.SplitIfs
import PuyoChain.Field.Tracking
import PuyoChain.Proofs.Field.Columns

/-!
# Exchanging colors, and the mirror image

* `Field.recolor`, `Field.mirror`, `EraseTrack.mirror`   a field with exchanged normal colors, and
                       mirror images;
* `Symmetry`           an exchange of the normal colors, with or without a reflection of the map;
* `Symmetry.cell`      where a cell goes; the way back is the same (`cell_involutive`);
* `Symmetry.onField`, `Symmetry.onStarts`, `Symmetry.onTrack`   what a symmetry does to a field, to
                       start rows and to a track, cell by cell (`colorAt_onField`, `get_onStarts`,
                       `erasedAt_onTrack`).

Exchanging colors and reflecting are symmetries (`onField_recoloring`, `onField_mirroring`), so that
what is proved of every symmetry holds for both.
-/

namespace PuyoChain

/-- the normal colors -/
abbrev NormalColor := {a : Color // a.isNormal = true}

/-- the column with each color replaced by another, and its height as it is -/
def Column.recolor (φ : Color → Color) (c : Column) : Column := ⟨c.cells.map φ, c.height⟩

theorem Column.color_recolor {φ : Color → Color} (hφ : φ .wall = .wall) (c : Column) (y : Nat) :
    (c.recolor φ).color y = φ (c.color y) := by
  unfold Column.color Column.recolor
  split
  · simp
  · exact hφ.symm

/-- the field with the normal colors exchanged in all cells -/
def Field.recolor (p : Equiv.Perm NormalColor) (f : Field) : Field :=
  ⟨f.columns.map (Column.recolor (Equiv.Perm.ofSubtype p))⟩

/-- the mirror image of a field, with column `7 - x` in the place of column `x` -/
def Field.mirror (f : Field) : Field := ⟨f.columns.reverse⟩

/-- the mirror image of a track -/
def EraseTrack.mirror (t : EraseTrack) : EraseTrack := ⟨t.steps.reverse⟩

/-- an exchange of the normal colors, with or without a reflection of the map -/
structure Symmetry where
  colors : Equiv.Perm Color
  fixed : ∀ a, a.isNormal = false → colors a = a
  mirrored : Bool

namespace Symmetry

def recoloring (p : Equiv.Perm NormalColor) : Symmetry where
  colors := Equiv.Perm.ofSubtype p
  fixed a ha := Equiv.Perm.ofSubtype_apply_of_not_mem p (by rw [ha]; exact Bool.false_ne_true)
  mirrored := false

def mirroring : Symmetry where
  colors := 1
  fixed _ _ := rfl
  mirrored := true

variable (σ : Symmetry)

/-- what stands side by side, from the left -/
def across {α : Type} {n : Nat} (v : Vector α n) : Vector α n :=
  if σ.mirrored = true then v.reverse else v

/-- where a column of the map goes; beside the map nothing moves -/
def column (x : Nat) : Nat := if σ.mirrored = true ∧ x ≤ 7 then 7 - x else x

def cell (p : Cell) : Cell := ⟨σ.column p.x, p.y⟩

def onField (f : Field) : Field := ⟨(σ.across f.columns).map (Column.recolor σ.colors)⟩

def onStarts (o : StartRows) : StartRows := ⟨σ.across o.rows⟩

def onTrack (t : EraseTrack) : EraseTrack := ⟨σ.across t.steps⟩

/-! ## colors -/

theorem colors_eq_iff {b : Color} (hb : b.isNormal = false) (a : Color) :
    σ.colors a = b ↔ a = b := by
  conv_lhs => rw [← σ.fixed b hb]
  exact σ.colors.injective.eq_iff

theorem isNormal_colors (a : Color) : (σ.colors a).isNormal = a.isNormal := by
  cases ha : a.isNormal with
  | false => rw [σ.fixed a ha, ha]
  | true =>
    by_contra hn
    rw [Bool.not_eq_true] at hn
    have e : a = σ.colors a := (σ.colors_eq_iff hn a).mp rfl
    rw [← e, ha] at hn
    cases hn

/-! ## columns and cells -/

theorem column_of_le {x : Nat} (h : x ≤ 7) :
    σ.column x = if σ.mirrored = true then 7 - x else x := by
  simp only [column, h, and_true]

theorem column_involutive : Function.Involutive σ.column := by
  intro x
  cases h : σ.mirrored <;> simp only [column, h, true_and, Bool.false_eq_true, false_and]
  · rfl
  · split_ifs <;> omega

theorem column_mem_iff (x : Nat) : (1 ≤ σ.column x ∧ σ.column x ≤ 6) ↔ 1 ≤ x ∧ x ≤ 6 := by
  unfold column
  split_ifs <;> omega

theorem column_lt_iff (x : Nat) : σ.column x < 8 ↔ x < 8 := by
  unfold column
  split_ifs <;> omega

/-- columns of the field are as far apart as before -/
theorem column_beside_iff {x z : Nat} (hx : 1 ≤ x ∧ x ≤ 6) (hz : 1 ≤ z ∧ z ≤ 6) :
    (σ.column x + 1 = σ.column z ∨ σ.column z + 1 = σ.column x) ↔ (x + 1 = z ∨ z + 1 = x) := by
  cases h : σ.mirrored <;> simp only [column, h, true_and, Bool.false_eq_true, false_and]
  · rfl
  · split_ifs <;> omega

theorem cell_involutive : Function.Involutive σ.cell := fun p =>
  congrArg (Cell.mk · p.y) (σ.column_involutive p.x)

/-- where the cells go, as a permutation -/
def cells : Equiv.Perm Cell := σ.cell_involutive.toPerm

theorem isVisible_cell (p : Cell) : (σ.cell p).isVisible = true ↔ p.isVisible = true := by
  rw [Cell.isVisible_iff, Cell.isVisible_iff]
  exact and_congr_left' (σ.column_mem_iff p.x)

theorem inField_cell (p : Cell) : (σ.cell p).inField = true ↔ p.inField = true := by
  rw [Cell.inField_iff, Cell.inField_iff]
  exact and_congr_left' (σ.column_mem_iff p.x)

/-! ## what a symmetry does, cell by cell -/

theorem getElem_across {α : Type} {n i j : Nat} (v : Vector α n) (hi : i < n) (hj : j < n)
    (h : i = if σ.mirrored = true then n - 1 - j else j) : (σ.across v)[i] = v[j] := by
  by_cases e : σ.mirrored = true
  · rw [if_pos e] at h
    have hback : n - 1 - i = j := by omega
    simp [across, e, hback]
  · rw [if_neg e] at h
    simp [across, e, h]

theorem column?_onField (f : Field) (x : Nat) :
    (σ.onField f).column? (σ.column x) = (f.column? x).map (Column.recolor σ.colors) := by
  by_cases hx : 1 ≤ x ∧ x ≤ 6
  · have hx' := (σ.column_mem_iff x).mpr hx
    have hcolumn : (σ.across f.columns)[σ.column x - 1] = f.columns[x - 1] := by
      refine σ.getElem_across f.columns (by omega) (by omega) ?_
      rw [σ.column_of_le (by omega)]
      split_ifs <;> omega
    unfold Field.column?
    rw [dif_pos hx, dif_pos hx', Option.map_some, ← hcolumn]
    exact congrArg some (Vector.getElem_map ..)
  · rw [Field.column?_of_not_column hx,
      Field.column?_of_not_column (mt (σ.column_mem_iff x).mp hx)]
    rfl

theorem color_onField (f : Field) (x y : Nat) :
    (σ.onField f).color (σ.column x) y = σ.colors (f.color x y) := by
  by_cases hx : 1 ≤ x ∧ x ≤ 6
  · obtain ⟨c, hc⟩ := f.exists_column? hx
    have hd := σ.column?_onField f x
    rw [hc] at hd
    rw [Field.color_of_column? hc, Field.color_of_column? hd]
    exact Column.color_recolor (σ.fixed _ rfl) c y
  · rw [Field.color_of_not_column hx, σ.fixed _ rfl,
      Field.color_of_not_column (mt (σ.column_mem_iff x).mp hx)]

theorem colorAt_onField (f : Field) (p : Cell) :
    (σ.onField f).colorAt (σ.cell p) = σ.colors (f.colorAt p) := σ.color_onField f p.x p.y

theorem get_onStarts (o : StartRows) (p : Cell) : (σ.onStarts o).get (σ.cell p) = o.get p := by
  unfold StartRows.get
  by_cases hp : (1 ≤ p.x ∧ p.x ≤ 6) ∧ 1 ≤ p.y ∧ p.y ≤ 14
  · have hx' := (σ.column_mem_iff p.x).mpr hp.1
    have hrows : (σ.across o.rows)[σ.column p.x - 1] = o.rows[p.x - 1] := by
      refine σ.getElem_across o.rows (by omega) (by omega) ?_
      rw [σ.column_of_le (by omega)]
      split_ifs <;> omega
    rw [dif_pos hp, dif_pos ⟨hx', hp.2⟩, ← hrows]
    rfl
  · rw [dif_neg hp, dif_neg]
    rintro ⟨hx, hy⟩
    exact hp ⟨(σ.column_mem_iff p.x).mp hx, hy⟩

theorem erasedAt_onTrack (t : EraseTrack) (x y : Nat) :
    (σ.onTrack t).erasedAt (σ.column x) y = t.erasedAt x y := by
  unfold EraseTrack.erasedAt
  by_cases h : x < 8 ∧ y < 16
  · have hx' := (σ.column_lt_iff x).mpr h.1
    have hsteps : (σ.across t.steps)[σ.column x] = t.steps[x] := by
      refine σ.getElem_across t.steps hx' h.1 ?_
      rw [σ.column_of_le (by omega)]
    rw [dif_pos h, dif_pos ⟨hx', h.2⟩, ← hsteps]
    rfl
  · rw [dif_neg h, dif_neg]
    rintro ⟨hx, hy⟩
    exact h ⟨(σ.column_lt_iff x).mp hx, hy⟩

/-! ## exchanges of colors, and the mirror image -/

theorem onField_recoloring (p : Equiv.Perm NormalColor) (f : Field) :
    (recoloring p).onField f = f.recolor p := rfl

theorem onTrack_recoloring (p : Equiv.Perm NormalColor) (t : EraseTrack) :
    (recoloring p).onTrack t = t := rfl

theorem onField_mirroring (f : Field) : mirroring.onField f = f.mirror := by
  have hsame : Column.recolor (1 : Equiv.Perm Color) = id := by
    funext c
    simp [Column.recolor]
  show (⟨f.columns.reverse.map (Column.recolor (1 : Equiv.Perm Color))⟩ : Field) = _
  rw [hsame, Vector.map_id]
  rfl

theorem onTrack_mirroring (t : EraseTrack) : mirroring.onTrack t = t.mirror := rfl

end Symmetry

end PuyoChain
