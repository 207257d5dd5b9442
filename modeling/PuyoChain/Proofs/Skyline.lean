import PuyoChain.Proofs.Field.Resting
import PuyoChain.Proofs.Moves

/-!
# Placements over a skyline

* `Column.Gapless`, `Field.Gapless`   no puyo stands above an empty cell, in any of the 14 rows;
* `Field.restRow`           the row in which the axis of a piece comes to rest before any split;
* `fits_iff_restRow_le`     a pose fits from that row up to the ceiling, and nowhere else;
* `isSome_lock?_iff_restRow_le`   there is room to lock a piece where these rows are;
* `landingRow_eq_restRow`   so this is the row of a placement, however the piece got there;
* `placementFrames_eq`      the timing counts the rows above it;
* `placements_lock`         a placement can be locked, and rests and takes as long as the heights
                            say.

Without gaps the heights tell which cells are empty (`color_eq_empty_iff`).
-/

namespace PuyoChain

namespace Column

variable {c : Column}

/-- no puyo stands above an empty cell -/
def Gapless (c : Column) : Prop :=
  ∀ y, 1 ≤ y → y < 14 → c.color y = .empty → c.color (y + 1) = .empty

instance (c : Column) : Decidable c.Gapless :=
  decidable_of_iff (∀ y ∈ rowsUpTo 13, c.color y = .empty → c.color (y + 1) = .empty)
    ⟨fun h y h1 h14 => h y ((mem_rowsUpTo_iff 13 y).mpr ⟨h1, by omega⟩), fun h y hy => by
      rw [mem_rowsUpTo_iff] at hy
      exact h y hy.1 (by omega)⟩

theorem Gapless.color_of_le (hg : c.Gapless) {y z : Nat} (hy : 1 ≤ y) (hyz : y ≤ z) (hz : z ≤ 14)
    (he : c.color y = .empty) : c.color z = .empty := by
  induction hyz with
  | refl => exact he
  | @step z hyz ih => exact hg z (Nat.le_trans hy hyz) hz (ih (Nat.le_of_succ_le hz))

theorem Exact.color_eq_empty_iff (hc : c.Exact) (hg : c.Gapless) {y : Nat} (hy : 1 ≤ y)
    (hy' : y ≤ 14) : c.color y = .empty ↔ c.height < y := by
  constructor
  · intro he
    by_contra hn
    have h14 := hc.covered.1
    apply hc.color_ne_empty (by omega)
    exact hg.color_of_le hy (by omega) h14 he
  · intro hlt
    exact hc.covered.2 y hlt hy'

end Column

/-- the highest row for the axis of a piece -/
def Decision.topRow (d : Decision) : Nat := if d.r = 0 then 13 else 14

namespace Field

variable {f : Field} {d : Decision}

/-- no puyo stands above an empty cell -/
def Gapless (f : Field) : Prop := f.Every Column.Gapless

instance (f : Field) : Decidable f.Gapless := inferInstanceAs (Decidable (f.Every Column.Gapless))

/-- the row in which the axis of a piece comes to rest before any split -/
def restRow (f : Field) (d : Decision) : Nat :=
  if d.r = 2 then f.height d.axisX + 2 else max (f.height d.axisX) (f.height d.childX) + 1

theorem restRow_above (h : d.r = 0) : f.restRow d = f.height d.axisX + 1 := by
  rw [restRow, if_neg (by omega), d.childX_of_vertical (Or.inl h), Nat.max_self]

theorem restRow_below (h : d.r = 2) : f.restRow d = f.height d.axisX + 2 := if_pos h

theorem restRow_beside (h : d.r ≠ 2) :
    f.restRow d = max (f.height d.axisX) (f.height d.childX) + 1 := if_neg h

section
variable (hf : f.Exact) (hg : f.Gapless)
include hf hg

theorem color_eq_empty_iff (x y : Nat) :
    f.color x y = .empty ↔ (1 ≤ x ∧ x ≤ 6) ∧ f.height x < y ∧ y ≤ 14 := by
  by_cases hin : (1 ≤ x ∧ x ≤ 6) ∧ 1 ≤ y ∧ y ≤ 14
  · obtain ⟨hx, hy, hy'⟩ := hin
    obtain ⟨c, hc⟩ := f.exists_column? hx
    rw [color_of_column? hc, height_of_column? hc,
      (hf x c hc).color_eq_empty_iff (hg x c hc) hy hy']
    exact ⟨fun h => ⟨hx, h, hy'⟩, fun h => h.2.1⟩
  · refine iff_of_false (fun he => hin ?_) (by omega)
    have hwall : f.colorAt ⟨x, y⟩ ≠ .wall := by
      rw [colorAt, he]
      decide
    exact (Cell.inField_iff _).mp (inField_of_color_ne_wall hwall)

theorem isFree_iff (x : Nat) (y : Int) :
    Pose.isFree f x y = true ↔ (1 ≤ x ∧ x ≤ 6) ∧ (f.height x : Int) < y ∧ y ≤ 14 := by
  by_cases hy : 0 ≤ y
  · obtain ⟨n, rfl⟩ := Int.eq_ofNat_of_zero_le hy
    rw [Pose.isFree_ofNat_iff, color_eq_empty_iff hf hg]
    omega
  · refine iff_of_false (fun h => ?_) (by omega)
    have := (Pose.inField_of_isFree h).2
    omega

end

/-! ## the row of rest -/

/-- the row of the second cell of a pose -/
theorem child_row {d : Decision} (hr : d.r ≤ 3) (y : Int) :
    (Pose.child ⟨d.x, y, d.r⟩).2 = if d.r = 0 then y + 1 else if d.r = 2 then y - 1 else y := by
  have hcases : d.r = 0 ∨ d.r = 1 ∨ d.r = 2 ∨ d.r = 3 := by omega
  unfold Pose.child
  rcases hcases with h | h | h | h <;> rw [h] <;> rfl

/-- a pose fits in the rows from the row of rest up to the ceiling -/
theorem fits_iff_restRow_le (hf : f.Exact) (hg : f.Gapless) (hv : d.isValid = true) (y : Int) :
    Pose.fits f ⟨d.x, y, d.r⟩ = true ↔ (f.restRow d : Int) ≤ y ∧ y ≤ d.topRow := by
  obtain ⟨hx, hr, hc⟩ := (Decision.isValid_iff d).mp hv
  rw [Pose.fits_iff, ← cast_childX hx.1 hr y, child_row hr y]
  show Pose.isFree f d.axisX y = true ∧ Pose.isFree f d.childX _ = true ↔ _
  rw [isFree_iff hf hg, isFree_iff hf hg]
  unfold Decision.topRow
  have hx' : 1 ≤ d.axisX ∧ d.axisX ≤ 6 := hx
  by_cases h0 : d.r = 0
  · rw [restRow_above h0, if_pos h0, if_pos h0, d.childX_of_vertical (Or.inl h0)]
    omega
  · by_cases h2 : d.r = 2
    · rw [restRow_below h2, if_neg h0, if_neg h0, if_pos h2, d.childX_of_vertical (Or.inr h2)]
      omega
    · rw [restRow_beside h2, if_neg h0, if_neg h0, if_neg h2]
      omega

/-- there is room for a piece where the row of rest is not above the ceiling -/
theorem isSome_lock?_iff_restRow_le (hv : d.isValid = true) (p : Piece) :
    (f.lock? d p).isSome = true ↔ f.restRow d ≤ d.topRow := by
  obtain ⟨_, hr, _⟩ := (Decision.isValid_iff d).mp hv
  rw [isSome_lock?_iff, and_iff_right hv, Decision.topRow]
  by_cases h0 : d.r = 0
  · rw [restRow_above h0, if_pos h0]
    omega
  · by_cases h2 : d.r = 2
    · rw [restRow_below h2, if_neg h0]
      omega
    · rw [restRow_beside h2, if_neg h0]
      omega

end Field

/-! ## where pieces land -/

namespace Pose

variable {f : Field}

theorem landing_eq_restRow (hf : f.Exact) (hg : f.Gapless) {d : Decision} {y : Int}
    (h : Stands f ⟨d.x, y, d.r⟩) :
    landing f ⟨d.x, y, d.r⟩ = ⟨d.x, f.restRow d, d.r⟩ := by
  have hv := isValid_of_stands h
  have hland := h.landing
  have hblocked := fall?_landing f ⟨d.x, y, d.r⟩
  obtain ⟨z, hz⟩ : ∃ z, landing f ⟨d.x, y, d.r⟩ = ⟨d.x, z, d.r⟩ := by
    obtain ⟨n, _, hn⟩ := exists_falls_landFrom f _ ⟨d.x, y, d.r⟩
    exact ⟨_, hn⟩
  rw [hz] at hland hblocked ⊢
  have hin := (Field.fits_iff_restRow_le hf hg hv z).mp hland.1
  have hout : ¬ fits f ⟨d.x, z - 1, d.r⟩ = true := by
    intro hfit
    have : fall? f ⟨d.x, z, d.r⟩ = some ⟨d.x, z - 1, d.r⟩ := ifFits_of_fits hfit
    rw [hblocked] at this
    cases this
  rw [Field.fits_iff_restRow_le hf hg hv] at hout
  obtain rfl : z = f.restRow d := by omega
  rfl

end Pose

theorem landingRow_eq_restRow {f : Field} (hf : f.Exact) (hg : f.Gapless) {q : Placement}
    (hq : q ∈ placements f) : q.landingRow = f.restRow q.decision := by
  obtain ⟨y, hy, hrow⟩ := landingRow_eq hq
  rw [Pose.landing_eq_restRow hf hg hy.1.stands] at hrow
  exact Int.ofNat_inj.mp hrow

/-- there is room for a piece that can be brought to a placement -/
theorem restRow_le_of_mem_placements {f : Field} (hf : f.Exact) (hg : f.Gapless) {q : Placement}
    (hq : q ∈ placements f) : f.restRow q.decision ≤ q.decision.topRow := by
  obtain ⟨y, hy⟩ := (exists_placement_iff f q.decision).mp ⟨q, hq, rfl⟩
  have hstands := Pose.stands_of_mem_reached hy
  have hin := (Field.fits_iff_restRow_le hf hg (isValid_of_stands hstands) y).mp hstands.1
  omega

/-! ## timing -/

theorem distance_eq_natAbs (a b : Nat) : distance a b = ((a : Int) - b).natAbs := by
  unfold distance
  omega

/-- the time for a placement counts the rows above the row of rest, and a split by the difference of
the heights -/
theorem placementFrames_eq (f : Field) (d : Decision) :
    f.placementFrames d = 2 * ((d.x : Int) - 3).natAbs + framesToSoftDrop (12 - f.restRow d) + 10 +
      if f.splits d then
        framesToFall ((f.height d.axisX : Int) - f.height d.childX).natAbs + 10
      else 0 := by
  unfold Field.placementFrames Field.splits shiftFrames groundingFrames spawnColumn
  simp only [distance_eq_natAbs]
  by_cases hd : d.r = 0 ∨ d.r = 2
  · have hvert := d.isVertical_iff.mpr hd
    rw [hvert]
    simp only [Bool.not_true, Bool.false_and, Bool.false_eq_true, if_false, if_true]
    rcases hd with hd | hd
    · rw [if_pos hd, Field.restRow_above hd]
      rfl
    · -- the axis starts and comes to rest one row above the child
      have hrow : 11 - (f.height d.axisX + 1) = 12 - (f.height d.axisX + 2) := by omega
      rw [if_neg (by omega), Field.restRow_below hd, hrow]
      rfl
  · have hvert : d.isVertical = false := Bool.eq_false_iff.mpr fun h => hd (d.isVertical_iff.mp h)
    rw [hvert, Field.restRow_beside (by omega)]
    by_cases he : f.height d.axisX = f.height d.childX
    · simp [he, Nat.add_assoc]
      rfl
    · simp [he, Nat.add_assoc]
      rfl

/-- **What can be reached can be locked, and rests and takes as long as the heights say.**  On a
field with exact heights and no gaps, columns up to the ceiling included, a piece locks wherever the
search finds a placement, and is two puyos more.  The row of the placement, in which the search lets
the piece come to rest, is the one that the heights give and from which the timing counts. -/
theorem placements_lock {f : Field} (hf : f.Exact) (hg : f.Gapless) {q : Placement}
    (hq : q ∈ placements f) {p : Piece} (hp : p.Solid) :
    (∃ g, f.lock? q.decision p = some g ∧ g.countPuyos = f.countPuyos + 2) ∧
    q.decision.isValid = true ∧
    (q.decision.r = 0 → q.landingRow = f.height q.decision.axisX + 1) ∧
    (q.decision.r = 2 → q.landingRow = f.height q.decision.axisX + 2) ∧
    (q.decision.r = 1 ∨ q.decision.r = 3 → q.landingRow =
      max (f.height q.decision.axisX) (f.height q.decision.childX) + 1) ∧
    f.placementFrames q.decision =
      2 * ((q.decision.x : Int) - 3).natAbs + framesToSoftDrop (12 - q.landingRow) + 10 +
        if f.splits q.decision then
          framesToFall ((f.height q.decision.axisX : Int) - f.height q.decision.childX).natAbs + 10
        else 0 := by
  have hrow := landingRow_eq_restRow hf hg hq
  have hv := isValid_of_exists_placement ⟨q, hq, rfl⟩
  have hroom := restRow_le_of_mem_placements hf hg hq
  have hsome := (Field.isSome_lock?_iff_restRow_le hv p).mpr hroom
  obtain ⟨g, hlock⟩ := Option.isSome_iff_exists.mp hsome
  rw [hrow]
  refine ⟨⟨g, hlock, Field.countPuyos_lock? hf.covered hp hlock⟩, hv, fun h0 => ?_, fun h2 => ?_,
    fun h13 => ?_, placementFrames_eq f q.decision⟩
  · exact Field.restRow_above h0
  · exact Field.restRow_below h2
  · exact Field.restRow_beside (by omega)

/-- a shaft of two columns, one of them full up to the row in which a piece appears, between walls
up to the ceiling -/
def shaftOfTwo : Field :=
  Field.empty.placeAll (List.replicate 14 ⟨1, .garbage⟩ ++ List.replicate 14 ⟨2, .garbage⟩ ++
    List.replicate 11 ⟨3, .garbage⟩ ++ List.replicate 12 ⟨4, .garbage⟩ ++
    List.replicate 14 ⟨5, .garbage⟩ ++ List.replicate 14 ⟨6, .garbage⟩)

/-- the piece is lifted into row 13 to get over column 4, and splits there -/
theorem placements_lock_shaftOfTwo :
    shaftOfTwo.Exact ∧ shaftOfTwo.Gapless ∧ ⟨⟨4, 3⟩, 13⟩ ∈ placements shaftOfTwo ∧
      (⟨.red, .blue⟩ : Piece).Solid ∧
      (∃ g, shaftOfTwo.lock? ⟨4, 3⟩ ⟨.red, .blue⟩ = some g ∧
        g.countPuyos = shaftOfTwo.countPuyos + 2) ∧
      13 = max (shaftOfTwo.height 4) (shaftOfTwo.height 3) + 1 ∧
      shaftOfTwo.placementFrames ⟨4, 3⟩ = 2 * 1 + 0 + 10 + (19 + 10) := by
  have hf : shaftOfTwo.Exact := by decide +kernel
  have hg : shaftOfTwo.Gapless := by decide +kernel
  have hq : ⟨⟨4, 3⟩, 13⟩ ∈ placements shaftOfTwo := by decide +kernel
  have hp : (⟨.red, .blue⟩ : Piece).Solid := by decide
  obtain ⟨hlock, _, _, _, hrow, hframes⟩ := placements_lock hf hg hq hp
  refine ⟨hf, hg, hq, hp, hlock, hrow (Or.inr rfl), hframes.trans ?_⟩
  decide +kernel

end PuyoChain
