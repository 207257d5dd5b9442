import PuyoChain.Proofs.Skyline
import PuyoChain.Proofs.Twins

/-!
# Climbing over tall columns

Without gaps a piece gains height in two steps only, each in a column that is just high enough.

* `Field.ground`          the height of a column, where the walls beside the field reach the ceiling;
* `Step.rise`             when a move gains a row;
* `Field.WayBelow`        all columns from where a piece appears to a column are lower than a row;
* `Field.FirstStep`, `Field.SecondStep`   what it takes to bring the axis to row 13, and on to
                          row 14;
* `Field.Kept`            what every pose that is reached keeps of them (`Kept.step`);
* `isReachable_iff_climbs`   a decision behind or over a column of 13 rows is reached just by the two
                          steps, and so it can be (`isReachable_risingStairs`).
-/

namespace PuyoChain

/-! ## the ground -/

namespace Field

variable {f : Field}

/-- the height of a column; the walls beside the field are as high as the field -/
def ground (f : Field) (x : Int) : Int := if 1 ≤ x ∧ x ≤ 6 then f.height x.toNat else 14

/-- all columns from the one in which a piece appears to column `x` are lower than row `n` -/
def WayBelow (f : Field) (n x : Int) : Prop := ∀ z, min 3 x ≤ z → z ≤ max 3 x → f.ground z < n

/-- the free cells are those above the ground -/
def FreeAbove (f : Field) : Prop := ∀ x y, Pose.isFree f x y = true ↔ f.ground x < y ∧ y ≤ 14

theorem ground_natCast {x : Nat} (hx : 1 ≤ x ∧ x ≤ 6) : f.ground x = f.height x := by
  rw [ground, if_pos (by omega), Int.toNat_natCast]

theorem ground_spawn (f : Field) : f.ground 3 = f.height spawnColumn :=
  ground_natCast (x := 3) (by decide)

theorem Exact.freeAbove (hf : f.Exact) (hg : f.Gapless) : f.FreeAbove := by
  intro x y
  by_cases hx : 1 ≤ x ∧ x ≤ 6
  · obtain ⟨n, rfl⟩ := Int.eq_ofNat_of_zero_le (a := x) (by omega)
    rw [isFree_iff hf hg, ground_natCast (by omega)]
    omega
  · rw [ground, if_neg hx]
    refine iff_of_false (fun h => hx (Pose.inField_of_isFree h).1) (by omega)

namespace WayBelow

variable {m n x z : Int}

theorem mono (h : f.WayBelow m x) (hmn : m ≤ n) : f.WayBelow n x := fun z hz hz' =>
  Int.lt_of_lt_of_le (h z hz hz') hmn

theorem ground_lt (h : f.WayBelow n x) : f.ground x < n := h x (by omega) (by omega)

/-- one column further -/
theorem next (h : f.WayBelow n x) (hz : z = x - 1 ∨ z = x ∨ z = x + 1) (hlow : f.ground z < n) :
    f.WayBelow n z := by
  intro w hw hw'
  by_cases e : w = z
  · rw [e]
    exact hlow
  · exact h w (by omega) (by omega)

/-- between two columns to which the ways are low, all columns are -/
theorem between (h : f.WayBelow n x) (h' : f.WayBelow n z) {w : Int} (hw : min x z ≤ w)
    (hw' : w ≤ max x z) : f.ground w < n := by
  by_cases hx : min 3 x ≤ w ∧ w ≤ max 3 x
  · exact h w hx.1 hx.2
  · exact h' w (by omega) (by omega)

/-- only where a piece appears can both columns beside be high -/
theorem blocked_at_spawn (h : f.WayBelow n x) (hl : n ≤ f.ground (x - 1))
    (hr : n ≤ f.ground (x + 1)) : n ≤ f.ground 2 ∧ n ≤ f.ground 4 := by
  obtain rfl : x = 3 := by
    by_contra hx
    by_cases hlt : x < 3
    · have := h (x + 1) (by omega) (by omega)
      omega
    · have := h (x - 1) (by omega) (by omega)
      omega
  exact ⟨hl, hr⟩

end WayBelow

end Field

namespace Pose

section
variable {f : Field} (hs : f.FreeAbove) (x y : Int)
include hs

theorem fits_zero_iff : fits f ⟨x, y, 0⟩ = true ↔ f.ground x < y ∧ y ≤ 13 := by
  rw [fits_iff, hs, hs]
  show (f.ground x < y ∧ y ≤ 14) ∧ f.ground x < y + 1 ∧ y + 1 ≤ 14 ↔ _
  omega

theorem fits_one_iff :
    fits f ⟨x, y, 1⟩ = true ↔ f.ground x < y ∧ f.ground (x + 1) < y ∧ y ≤ 14 := by
  rw [fits_iff, hs, hs]
  show (f.ground x < y ∧ y ≤ 14) ∧ f.ground (x + 1) < y ∧ y ≤ 14 ↔ _
  omega

theorem fits_two_iff : fits f ⟨x, y, 2⟩ = true ↔ f.ground x < y - 1 ∧ y ≤ 14 := by
  rw [fits_iff, hs, hs]
  show (f.ground x < y ∧ y ≤ 14) ∧ f.ground x < y - 1 ∧ y - 1 ≤ 14 ↔ _
  omega

theorem fits_three_iff :
    fits f ⟨x, y, 3⟩ = true ↔ f.ground x < y ∧ f.ground (x - 1) < y ∧ y ≤ 14 := by
  rw [fits_iff, hs, hs]
  show (f.ground x < y ∧ y ≤ 14) ∧ f.ground (x - 1) < y ∧ y ≤ 14 ↔ _
  omega

omit x y in
theorem fits_spawn_iff : spawn.fits f = true ↔ f.height spawnColumn < 12 := by
  show fits f ⟨3, 12, 0⟩ = true ↔ _
  rw [fits_zero_iff hs, f.ground_spawn]
  omega

end

/-! ## what a move does to the height of the axis -/

namespace Step

variable {f : Field} {p q : Pose}

theorem column (h : p.Step f q) : q.x = p.x - 1 ∨ q.x = p.x ∨ q.x = p.x + 1 := by
  cases h with
  | shift dx hdx =>
    dsimp only
    omega
  | kick dx r hdx _ =>
    dsimp only
    omega
  | fall | turn | lift | flipUp | flipDown => exact Or.inr (Or.inl rfl)

/-- the axis gains a row in a column as high as the row below it, or between blocked sides -/
theorem rise (hs : f.FreeAbove) (hp : p.fits f = true) (h : p.Step f q) (hy : p.y < q.y) :
    q.x = p.x ∧ q.y = p.y + 1 ∧ (f.ground p.x = p.y - 1 ∨
      p.r = 0 ∧ p.y ≤ f.ground (p.x - 1) ∧ p.y ≤ f.ground (p.x + 1)) := by
  have haxis := (hs p.x p.y).mp ((fits_iff f p).mp hp).1
  cases h with
  | shift | turn | kick => exact absurd hy (Int.lt_irrefl _)
  | fall | flipDown =>
    dsimp only at hy
    omega
  | lift _ hbelow =>
    rw [fits_two_iff hs] at hbelow
    exact ⟨rfl, rfl, Or.inl (by omega)⟩
  | flipUp hr hright hleft =>
    rw [fits_one_iff hs] at hright
    rw [fits_three_iff hs] at hleft
    exact ⟨rfl, rfl, Or.inr ⟨hr, by omega, by omega⟩⟩

end Step

end Pose

/-! ## what all poses that are reached keep -/

namespace Field

variable {f : Field} {p q : Pose}

/-- the axis gets to row 13: by a half turn between blocked sides, or by a lift from a column of 11
rows -/
def FirstStep (f : Field) : Prop :=
  12 ≤ f.ground 2 ∧ 12 ≤ f.ground 4 ∨ ∃ x, f.WayBelow 12 x ∧ f.ground x = 11

/-- from there it gets to row 14: by a lift from a column of 12 rows -/
def SecondStep (f : Field) : Prop := f.FirstStep ∧ ∃ x, f.WayBelow 13 x ∧ f.ground x = 12

/-- the axis is not above row `n`, and the way to it is lower -/
def Within (f : Field) (n : Int) (p : Pose) : Prop := p.y ≤ n ∧ f.WayBelow n p.x

/-- what every pose keeps that is reached -/
structure Kept (f : Field) (p : Pose) : Prop where
  stands : p.Stands f
  level : f.Within 12 p ∨ f.FirstStep ∧ f.Within 13 p ∨ f.SecondStep ∧ f.Within 14 p
  /-- high up, a piece stands upright only where it has come from a side -/
  beside : p.r = 0 → p.y ≤ 12 ∨ f.ground (p.x - 1) ≤ 12 ∨ f.ground (p.x + 1) ≤ 12

/-- in row 14 one of the sides is open -/
theorem Kept.open_beside (hspawn : f.ground 3 < 12) (h : f.Kept p) (hy : p.y = 14) :
    f.ground (p.x - 1) < 14 ∨ f.ground (p.x + 1) < 14 := by
  by_contra hn
  rcases h.level with ⟨hrow, _⟩ | ⟨_, hrow, _⟩ | ⟨⟨_, w, hw, hground⟩, _, hway⟩
  · omega
  · omega
  · have hblocked := hway.blocked_at_spawn (by omega) (by omega)
    -- the column of 12 rows is not the one in which a piece appears
    have hne : w ≠ 3 := by
      rintro rfl
      omega
    by_cases hlt : w < 3
    · have := hw 2 (by omega) (by omega)
      omega
    · have := hw 4 (by omega) (by omega)
      omega

section
variable (hs : f.FreeAbove)
include hs

theorem Within.step {n : Int} (h : f.Within n p) (hstep : p.Step f q) (hq : q.fits f = true)
    (hy : q.y ≤ n) : f.Within n q := by
  have haxis := (hs q.x q.y).mp ((Pose.fits_iff f q).mp hq).1
  exact ⟨hy, h.2.next hstep.column (by omega)⟩

theorem Kept.level_step (h : f.Kept p) (hstep : p.Step f q) (hq : q.fits f = true) :
    f.Within 12 q ∨ f.FirstStep ∧ f.Within 13 q ∨ f.SecondStep ∧ f.Within 14 q := by
  have haxis := (hs q.x q.y).mp ((Pose.fits_iff f q).mp hq).1
  rcases h.level with hin | ⟨hfirst, hin⟩ | ⟨hsecond, hin⟩
  · by_cases hy : q.y ≤ 12
    · exact Or.inl (hin.step hs hstep hq hy)
    · obtain ⟨hrow, hway⟩ := hin
      obtain ⟨hx, hy', hrise⟩ := hstep.rise hs h.stands.1 (by omega)
      refine Or.inr (Or.inl ⟨?_, by omega, by rw [hx]; exact hway.mono (by omega)⟩)
      rcases hrise with hground | ⟨_, hl, hr⟩
      · exact Or.inr ⟨p.x, hway, by omega⟩
      · exact Or.inl (hway.blocked_at_spawn (by omega) (by omega))
  · by_cases hy : q.y ≤ 13
    · exact Or.inr (Or.inl ⟨hfirst, hin.step hs hstep hq hy⟩)
    · obtain ⟨hrow, hway⟩ := hin
      obtain ⟨hx, hy', hrise⟩ := hstep.rise hs h.stands.1 (by omega)
      refine Or.inr (Or.inr ⟨⟨hfirst, ?_⟩, by omega, by rw [hx]; exact hway.mono (by omega)⟩)
      rcases hrise with hground | ⟨h0, hl, hr⟩
      · exact ⟨p.x, hway, by omega⟩
      · have hside := h.beside h0
        omega
  · exact Or.inr (Or.inr ⟨hsecond, hin.step hs hstep hq haxis.2⟩)

theorem Kept.beside_step (hspawn : f.ground 3 < 12) (h : f.Kept p) (hstep : p.Step f q)
    (hq : q.fits f = true) (h0 : q.r = 0) :
    q.y ≤ 12 ∨ f.ground (q.x - 1) ≤ 12 ∨ f.ground (q.x + 1) ≤ 12 := by
  have hrow := (Pose.fits_iff f q).mp hq
  obtain ⟨hfits, hr3⟩ := h.stands
  obtain ⟨px, py, pr⟩ := p
  cases hstep with
  | shift dx hdx =>
    obtain rfl : pr = 0 := h0
    have hp := (Pose.fits_zero_iff hs _ _).mp hfits
    dsimp only
    rcases hdx with rfl | rfl
    · right; right
      rw [Int.neg_add_cancel_right]
      omega
    · right; left
      rw [Int.add_sub_cancel]
      omega
  | fall =>
    obtain rfl : pr = 0 := h0
    have hp := (Pose.fits_zero_iff hs _ _).mp hfits
    dsimp only
    omega
  | turn r hr =>
    obtain rfl : r = 0 := h0
    have hq := (Pose.fits_zero_iff hs _ _).mp hq
    dsimp only at hr hr3 hq ⊢
    have hside : pr = 1 ∨ pr = 3 := by omega
    rcases hside with rfl | rfl
    · have hp := (Pose.fits_one_iff hs _ _).mp hfits
      omega
    · have hp := (Pose.fits_three_iff hs _ _).mp hfits
      omega
  | kick dx r _ hr =>
    dsimp only at h0
    omega
  | lift => cases h0
  | flipUp => cases h0
  | flipDown hr hright hleft =>
    obtain rfl : pr = 2 := hr
    have hp := (Pose.fits_two_iff hs _ _).mp hfits
    rw [Pose.fits_one_iff hs] at hright
    rw [Pose.fits_three_iff hs] at hleft
    by_cases hy : py = 14
    · have := h.open_beside hspawn hy
      dsimp only at this hright hleft
      omega
    · dsimp only
      omega

theorem Kept.step (hspawn : f.ground 3 < 12) (h : f.Kept p) (hq : q ∈ p.moves f) : f.Kept q := by
  have hstands := Pose.stands_of_mem_moves h.stands.2 hq
  have hstep := Pose.step_of_mem_moves hq
  exact ⟨hstands, h.level_step hs hstep hstands.1, h.beside_step hs hspawn hstep hstands.1⟩

theorem kept_of_mem_reached (h : p ∈ Pose.reached f) : f.Kept p := by
  by_cases hfits : Pose.spawn.fits f = true
  · have hspawn := (Pose.fits_zero_iff hs 3 12).mp hfits
    rw [Pose.mem_reached_iff hfits] at h
    refine h.hand_on (P := f.Kept) (fun a b ha hb => ha.step hs hspawn.1 hb) ?_
    refine ⟨⟨hfits, Nat.zero_le 3⟩, Or.inl ⟨Int.le_refl 12, fun z hz hz' => ?_⟩, fun _ => ?_⟩
    · obtain rfl : z = 3 := Int.le_antisymm hz' hz
      exact hspawn.1
    · exact Or.inl (Int.le_refl 12)
  · rw [Pose.reached_of_not_fits hfits] at h
    cases h

end

end Field

/-! ## ways up -/

namespace Pose

variable {f : Field} {x y : Int}

section
variable (hs : f.FreeAbove)
include hs

/-- where the ground is low up to another column, the side towards it is open -/
theorem exists_side {x' : Int} (hne : x ≠ x') (hy : y ≤ 14)
    (h : ∀ z, min x x' ≤ z → z ≤ max x x' → f.ground z < y) :
    ∃ r, (r = 1 ∨ r = 3) ∧ fits f ⟨x, y, r⟩ = true := by
  have hx := h x (by omega) (by omega)
  by_cases hlt : x < x'
  · have hnext := h (x + 1) (by omega) (by omega)
    exact ⟨1, Or.inl rfl, (fits_one_iff hs x y).mpr ⟨hx, hnext, hy⟩⟩
  · have hnext := h (x - 1) (by omega) (by omega)
    exact ⟨3, Or.inr rfl, (fits_three_iff hs x y).mpr ⟨hx, hnext, hy⟩⟩

/-- the first step: a lift, or a half turn where both sides are blocked -/
theorem exists_leads_first (hspawn : f.ground 3 < 12) (h : f.FirstStep) :
    ∃ x, f.WayBelow 12 x ∧ Leads (moves f) spawn ⟨x, 13, 2⟩ := by
  have hspawn' : f.WayBelow 12 3 := fun z hz hz' => by
    obtain rfl : z = 3 := Int.le_antisymm hz' hz
    exact hspawn
  obtain ⟨x, hway, hhigh⟩ : ∃ x, f.WayBelow 12 x ∧
      (f.ground x = 11 ∨ 12 ≤ f.ground (x - 1) ∧ 12 ≤ f.ground (x + 1)) := by
    rcases h with h | ⟨x, hway, hx⟩
    · exact ⟨3, hspawn', Or.inr h⟩
    · exact ⟨x, hway, Or.inl hx⟩
  have hx := hway.ground_lt
  have hup : fits f ⟨x, 12, 0⟩ = true := (fits_zero_iff hs x 12).mpr ⟨hx, by decide⟩
  have hlifted : fits f ⟨x, 12 + 1, 2⟩ = true := (fits_two_iff hs x _).mpr ⟨hx, by decide⟩
  have hway' : Leads (moves f) spawn ⟨x, 12, 0⟩ :=
    leads_along fun z hz hz' => (fits_zero_iff hs z 12).mpr ⟨hway z hz hz', by decide⟩
  refine ⟨x, hway, hway'.trans ?_⟩
  by_cases hr : fits f ⟨x, 12, 1⟩ = true
  · have hside := (fits_one_iff hs x 12).mp hr
    have hbelow : ¬ fits f ⟨x, 12, 2⟩ = true := by
      rw [fits_two_iff hs]
      omega
    exact ((leads_refl _ _).tail (turn_mem_moves (by decide) hr)).tail
      (lift_mem_moves (Or.inl rfl) hbelow hlifted)
  · by_cases hl : fits f ⟨x, 12, 3⟩ = true
    · have hside := (fits_three_iff hs x 12).mp hl
      have hbelow : ¬ fits f ⟨x, 12, 2⟩ = true := by
        rw [fits_two_iff hs]
        omega
      exact ((leads_refl _ _).tail (turn_mem_moves (by decide) hl)).tail
        (lift_mem_moves (Or.inr rfl) hbelow hlifted)
    · exact (leads_refl _ _).tail (flip_below hup hr hl)

/-- the second step: upright along row 13, and a lift -/
theorem exists_leads_second (hspawn : f.ground 3 < 12) (h : f.SecondStep) :
    ∃ w, f.WayBelow 13 w ∧ f.ground w = 12 ∧ Leads (moves f) spawn ⟨w, 14, 2⟩ := by
  obtain ⟨hfirst, w, hw, hground⟩ := h
  obtain ⟨x, hx, hleads⟩ := exists_leads_first hs hspawn hfirst
  have hne : x ≠ w := by
    rintro rfl
    have := hx.ground_lt
    omega
  have hlow : ∀ z, min x w ≤ z → z ≤ max x w → f.ground z < 13 := fun z =>
    (hx.mono (by decide)).between hw
  have hup : ∀ z, min x w ≤ z → z ≤ max x w → fits f ⟨z, 13, 0⟩ = true := fun z hz hz' =>
    (fits_zero_iff hs z 13).mpr ⟨hlow z hz hz', Int.le_refl 13⟩
  have hstart : Leads (moves f) ⟨x, 13, 2⟩ ⟨x, 13, 0⟩ := by
    obtain ⟨r, hr, hside⟩ := exists_side hs hne (by decide) hlow
    exact ((leads_refl _ _).tail (turn_mem_moves (by omega) hside)).tail
      (turn_mem_moves (by omega) (hup x (by omega) (by omega)))
  have hend : Leads (moves f) ⟨w, 13, 0⟩ ⟨w, 13 + 1, 2⟩ := by
    obtain ⟨r, hr, hside⟩ := exists_side hs hne.symm (y := 13) (by decide)
      fun z hz hz' => hlow z (by omega) (by omega)
    have hbelow : ¬ fits f ⟨w, 13, 2⟩ = true := by
      rw [fits_two_iff hs]
      omega
    have hlifted : fits f ⟨w, 13 + 1, 2⟩ = true :=
      (fits_two_iff hs w _).mpr ⟨hw.ground_lt, by decide⟩
    exact ((leads_refl _ _).tail (turn_mem_moves (by omega) hside)).tail
      (lift_mem_moves hr hbelow hlifted)
  exact ⟨w, hw, hground, ((hleads.trans hstart).trans (leads_along hup)).trans hend⟩

section
variable (hspawn : f.ground 3 < 12) (hsecond : f.SecondStep)
include hspawn hsecond

theorem leads_row14_right (hx : f.WayBelow 14 x) (hx' : f.WayBelow 14 (x + 1)) :
    Leads (moves f) spawn ⟨x, 14, 1⟩ := by
  obtain ⟨w, hw, hground, hleads⟩ := exists_leads_second hs hspawn hsecond
  have hw := hw.mono (n := 14) (by decide)
  have hlow : ∀ z, min w x ≤ z → z ≤ max w (x + 1) → f.ground z < 14 := by
    intro z hz hz'
    by_cases hzx : z ≤ max w x
    · exact hw.between hx hz hzx
    · exact hw.between hx' (by omega) hz'
  have heven : 2 % 2 = 0 := rfl
  refine hleads.trans ?_
  by_cases hr : f.ground (w + 1) < 14
  · have hside : fits f ⟨w, 14, 1⟩ = true :=
      (fits_one_iff hs w 14).mpr ⟨hw.ground_lt, hr, Int.le_refl 14⟩
    refine (leads_right_side (p := ⟨w, 14, 2⟩) heven hside).1.trans (leads_along fun z hz hz' => ?_)
    dsimp only at hz hz'
    refine (fits_one_iff hs z 14).mpr ⟨hlow z (by omega) (by omega), ?_, Int.le_refl 14⟩
    by_cases e : z = w
    · rwa [e]
    · exact hlow (z + 1) (by omega) (by omega)
  · -- the way leads to the left, and so does a kick
    have hxw : x + 1 ≤ w := by
      by_contra hn
      exact hr (hlow (w + 1) (by omega) (by omega))
    have hl := hlow (w - 1) (by omega) (by omega)
    have hside : fits f ⟨w, 14, 3⟩ = true :=
      (fits_three_iff hs w 14).mpr ⟨hw.ground_lt, hl, Int.le_refl 14⟩
    refine (leads_left_side (p := ⟨w, 14, 2⟩) heven hside).2.trans (leads_along fun z hz hz' => ?_)
    dsimp only at hz hz'
    exact (fits_one_iff hs z 14).mpr ⟨hlow z (by omega) (by omega),
      hlow (z + 1) (by omega) (by omega), Int.le_refl 14⟩

theorem leads_row14_left (hx : f.WayBelow 14 x) (hx' : f.WayBelow 14 (x - 1)) :
    Leads (moves f) spawn ⟨x, 14, 3⟩ := by
  have hright : Leads (moves f) spawn ⟨x - 1, 14, 1⟩ :=
    leads_row14_right hs hspawn hsecond hx' (by rwa [Int.sub_add_cancel])
  have h := leads_exchanged hright (Or.inl rfl)
  rwa [exchanged_right, Int.sub_add_cancel] at h

theorem leads_row14_below (hx : f.WayBelow 14 x) (hne : x ≠ 3) (hlow : f.ground x ≤ 12) :
    Leads (moves f) spawn ⟨x, 14, 2⟩ := by
  have hfits : fits f ⟨x, 14, 2⟩ = true := (fits_two_iff hs x 14).mpr ⟨by omega, Int.le_refl 14⟩
  by_cases hlt : x < 3
  · have hnext := hx.next (z := x + 1) (by omega) (hx (x + 1) (by omega) (by omega))
    exact (leads_row14_right hs hspawn hsecond hx hnext).tail (turn_mem_moves (by decide) hfits)
  · have hnext := hx.next (z := x - 1) (by omega) (hx (x - 1) (by omega) (by omega))
    exact (leads_row14_left hs hspawn hsecond hx hnext).tail (turn_mem_moves (by decide) hfits)

theorem exists_leads_above (hx : f.WayBelow 14 x) (hne : x ≠ 3) (hlow : f.ground x ≤ 12)
    (hside : f.ground x ≤ 11 ∨ f.ground (x - 1) ≤ 12 ∨ f.ground (x + 1) ≤ 12) :
    ∃ y, Leads (moves f) spawn ⟨x, y, 0⟩ := by
  have hup : fits f ⟨x, 14 - 1, 0⟩ = true := (fits_zero_iff hs x _).mpr ⟨by omega, by decide⟩
  by_cases hl : f.ground (x - 1) ≤ 12
  · have hnext := hx.next (z := x - 1) (by omega) (by omega)
    have hfall : fits f ⟨x, 14 - 1, 3⟩ = true :=
      (fits_three_iff hs x _).mpr ⟨by omega, by omega, by decide⟩
    exact ⟨_, ((leads_row14_left hs hspawn hsecond hx hnext).tail (fall_mem_moves hfall)).tail
      (turn_mem_moves (by decide) hup)⟩
  · by_cases hr : f.ground (x + 1) ≤ 12
    · have hnext := hx.next (z := x + 1) (by omega) (by omega)
      have hfall : fits f ⟨x, 14 - 1, 1⟩ = true :=
        (fits_one_iff hs x _).mpr ⟨by omega, by omega, by decide⟩
      exact ⟨_, ((leads_row14_right hs hspawn hsecond hx hnext).tail (fall_mem_moves hfall)).tail
        (turn_mem_moves (by decide) hup)⟩
    · -- between two blocked sides the piece falls by a row and flips
      have hfall : fits f ⟨x, 14 - 1, 2⟩ = true :=
        (fits_two_iff hs x _).mpr ⟨by omega, by decide⟩
      have hflip : fits f ⟨x, 14 - 1 - 1, 0⟩ = true :=
        (fits_zero_iff hs x _).mpr ⟨by omega, by decide⟩
      have hr' : ¬ fits f ⟨x, 14 - 1, 1⟩ = true := by
        rw [fits_one_iff hs]
        omega
      have hl' : ¬ fits f ⟨x, 14 - 1, 3⟩ = true := by
        rw [fits_three_iff hs]
        omega
      exact ⟨_, ((leads_row14_below hs hspawn hsecond hx hne hlow).tail (fall_mem_moves hfall)).tail
        (flip_above hflip hr' hl')⟩

end

end

end Pose

/-! ## decisions over and behind a tall column -/

namespace Field

variable {f : Field} {d : Decision}

/-- the ways to both cells of a decision make up all columns on its way -/
theorem forall_height_lt_iff (f : Field) (hv : d.isValid = true) (n : Nat) :
    (∀ x, min spawnColumn (min d.axisX d.childX) ≤ x →
      x ≤ max spawnColumn (max d.axisX d.childX) → f.height x < n) ↔
    f.WayBelow n d.axisX ∧ f.WayBelow n d.childX := by
  obtain ⟨hx, _, hc⟩ := (Decision.isValid_iff d).mp hv
  have haxis : d.axisX = d.x := rfl
  unfold spawnColumn
  constructor
  · intro h
    have hway : ∀ z : Int, min 3 (min d.axisX d.childX : Int) ≤ z →
        z ≤ max 3 (max d.axisX d.childX : Int) → f.ground z < n := by
      intro z hz hz'
      obtain ⟨k, rfl⟩ := Int.eq_ofNat_of_zero_le (a := z) (by omega)
      rw [ground_natCast (by omega)]
      exact Int.ofNat_lt.mpr (h k (by omega) (by omega))
    exact ⟨fun z hz hz' => hway z (by omega) (by omega),
      fun z hz hz' => hway z (by omega) (by omega)⟩
  · rintro ⟨ha, hb⟩ x hlo hhi
    refine Int.ofNat_lt.mp ?_
    rw [← ground_natCast (by omega)]
    by_cases hin : min 3 d.axisX ≤ x ∧ x ≤ max 3 d.axisX
    · exact ha x (by omega) (by omega)
    · exact hb x (by omega) (by omega)

theorem Within.child (hs : f.FreeAbove) {n : Int} {p : Pose} (h : f.Within n p)
    (hp : p.Stands f) : f.WayBelow n p.child.1 := by
  obtain ⟨px, py, pr⟩ := p
  obtain ⟨hfits, hr⟩ := hp
  obtain ⟨hrow, hway⟩ := h
  have hcases : pr = 0 ∨ pr = 1 ∨ pr = 2 ∨ pr = 3 := by
    dsimp only at hr
    omega
  dsimp only at hrow hway
  rcases hcases with rfl | rfl | rfl | rfl
  · exact hway
  · have hside := (Pose.fits_one_iff hs _ _).mp hfits
    exact hway.next (z := px + 1) (by omega) (by omega)
  · exact hway
  · have hside := (Pose.fits_three_iff hs _ _).mp hfits
    exact hway.next (z := px - 1) (by omega) (by omega)

/-- what it takes to bring a piece to a decision over or behind a column of 13 rows -/
structure Climbs (f : Field) (d : Decision) : Prop where
  appears : f.height spawnColumn < 12
  steps : f.SecondStep
  /-- at least row 14 is free on the way -/
  low : ∀ x, min spawnColumn (min d.axisX d.childX) ≤ x →
    x ≤ max spawnColumn (max d.axisX d.childX) → f.height x ≤ 13
  /-- below row 14 there is room for a second cell -/
  vertical : d.isVertical = true → f.height d.x ≤ 12
  /-- the child comes on top below row 14, or beside a column that lets the piece in from a side -/
  above : d.r = 0 → f.height d.x ≤ 11 ∨ f.ground (d.x - 1) ≤ 12 ∨ f.ground (d.x + 1) ≤ 12

section
variable (hs : f.FreeAbove) (hv : d.isValid = true)
  (htall : ∃ x, min spawnColumn (min d.axisX d.childX) ≤ x ∧
    x ≤ max spawnColumn (max d.axisX d.childX) ∧ 13 ≤ f.height x)
include hs hv htall

theorem climbs_of_mem_reached {y : Int} (h : ⟨d.x, y, d.r⟩ ∈ Pose.reached f) : f.Climbs d := by
  obtain ⟨hx, hr, _⟩ := (Decision.isValid_iff d).mp hv
  have hground : f.ground d.x = f.height d.x := ground_natCast hx
  have hkept := kept_of_mem_reached hs h
  obtain ⟨hfits, _⟩ := hkept.stands
  have hspawn : Pose.spawn.fits f = true := by
    by_contra hn
    rw [Pose.reached_of_not_fits hn] at h
    cases h
  have hways : ∀ n : Nat, f.Within n ⟨d.x, y, d.r⟩ →
      f.WayBelow n d.axisX ∧ f.WayBelow n d.childX := by
    intro n hin
    have hchild := hin.child hs hkept.stands
    rw [← cast_childX hx.1 hr y] at hchild
    exact ⟨hin.2, hchild⟩
  have hhigh : ¬ f.Within 13 ⟨d.x, y, d.r⟩ := by
    intro hin
    obtain ⟨x, hlo, hhi, h13⟩ := htall
    have := (forall_height_lt_iff f hv 13).mpr (hways 13 hin) x hlo hhi
    omega
  obtain ⟨hsecond, hin⟩ : f.SecondStep ∧ f.Within 14 ⟨d.x, y, d.r⟩ := by
    rcases hkept.level with hin | ⟨_, hin⟩ | h14
    · exact absurd ⟨Int.le_trans hin.1 (by decide), hin.2.mono (by decide)⟩ hhigh
    · exact absurd hin hhigh
    · exact h14
  refine ⟨?_, hsecond, fun x hlo hhi => ?_, fun hvert => ?_, fun h0 => ?_⟩
  · exact (Pose.fits_spawn_iff hs).mp hspawn
  · exact Nat.le_of_lt_succ ((forall_height_lt_iff f hv 14).mpr (hways 14 hin) x hlo hhi)
  · rcases (Decision.isVertical_iff d).mp hvert with h0 | h2
    · rw [h0] at hfits
      have := (Pose.fits_zero_iff hs _ _).mp hfits
      omega
    · rw [h2] at hfits
      have := (Pose.fits_two_iff hs _ _).mp hfits
      omega
  · have hside := hkept.beside h0
    rw [h0] at hfits
    have := (Pose.fits_zero_iff hs _ _).mp hfits
    dsimp only at hside
    omega

theorem exists_leads_of_climbs (h : f.Climbs d) :
    ∃ y, Leads (Pose.moves f) .spawn ⟨d.x, y, d.r⟩ := by
  obtain ⟨hx, hr, hc⟩ := (Decision.isValid_iff d).mp hv
  have hground : f.ground d.x = f.height d.x := ground_natCast hx
  have hspawn : f.ground 3 < 12 := by
    rw [ground_spawn]
    exact Int.ofNat_lt.mpr h.appears
  obtain ⟨haxis, hchild⟩ := (forall_height_lt_iff f hv 14).mp fun x hlo hhi =>
    Nat.lt_succ_of_le (h.low x hlo hhi)
  -- the way of a vertical piece in the column of its appearance is that low column alone
  have hne : d.isVertical = true → (d.x : Int) ≠ 3 := by
    intro hvert hx3
    obtain ⟨x, hlo, hhi, h13⟩ := htall
    have happ := h.appears
    have hx3' : d.axisX = 3 := Int.ofNat_inj.mp hx3
    rw [d.childX_of_vertical ((Decision.isVertical_iff d).mp hvert), hx3'] at hlo hhi
    unfold spawnColumn at hlo hhi happ
    obtain rfl : x = 3 := by omega
    omega
  have hcases : d.r = 0 ∨ d.r = 1 ∨ d.r = 2 ∨ d.r = 3 := by omega
  rcases hcases with h0 | h1 | h2 | h3
  · have hvert := (Decision.isVertical_iff d).mpr (Or.inl h0)
    have hlow := h.vertical hvert
    have hside := h.above h0
    rw [h0]
    exact Pose.exists_leads_above hs hspawn h.steps haxis (hne hvert) (by omega) (by omega)
  · rw [Decision.childX, if_pos h1] at hchild
    rw [h1]
    exact ⟨14, Pose.leads_row14_right hs hspawn h.steps haxis hchild⟩
  · have hvert := (Decision.isVertical_iff d).mpr (Or.inr h2)
    have hlow := h.vertical hvert
    rw [h2]
    exact ⟨14, Pose.leads_row14_below hs hspawn h.steps haxis (hne hvert) (by omega)⟩
  · rw [Decision.childX, if_neg (by omega), if_pos h3] at hchild hc
    have e : ((d.x - 1 : Nat) : Int) = (d.x : Int) - 1 := by omega
    rw [e] at hchild
    rw [h3]
    exact ⟨14, Pose.leads_row14_left hs hspawn h.steps haxis hchild⟩

end

end Field

/-- **A column of 13 rows is climbed by two steps.**  On a field with true heights and no gap, a
decision with a column of 13 rows or more on its way can be reached just if the piece gets to row 13
by the first step and to row 14 by the second, row 14 is free on all of the way, and the column of
the decision has room for what comes to stand in it. -/
theorem isReachable_iff_climbs {f : Field} (hf : f.Exact) (hg : f.Gapless) {d : Decision}
    (hv : d.isValid = true)
    (htall : ∃ x, min spawnColumn (min d.axisX d.childX) ≤ x ∧
      x ≤ max spawnColumn (max d.axisX d.childX) ∧ 13 ≤ f.height x) :
    isReachable f d = true ↔ f.Climbs d := by
  have hs := hf.freeAbove hg
  rw [isReachable_iff hf.covered, exists_placement_iff]
  constructor
  · rintro ⟨y, hy⟩
    exact Field.climbs_of_mem_reached hs hv htall hy
  · intro h
    have hspawn := (Pose.fits_spawn_iff hs).mpr h.appears
    obtain ⟨y, hy⟩ := Field.exists_leads_of_climbs hs hv htall h
    exact ⟨y, (Pose.mem_reached_iff hspawn _).mpr hy⟩

/-- stairs of 11, 12 and 13 rows that lead away from where a piece appears -/
def risingStairs : Field :=
  Field.empty.run (List.replicate 11 (.stack 3 .garbage) ++ List.replicate 12 (.stack 4 .garbage) ++
    List.replicate 13 (.stack 5 .garbage))

/-- over the stairs the piece gets to the floor behind them -/
theorem isReachable_iff_climbs_risingStairs :
    risingStairs.Exact ∧ risingStairs.Gapless ∧ (⟨6, 0⟩ : Decision).isValid = true ∧
      (3 ≤ 5 ∧ 5 ≤ 6 ∧ 13 ≤ risingStairs.height 5) ∧ isReachable risingStairs ⟨6, 0⟩ = true := by
  have hf : risingStairs.Exact := by decide +kernel
  have hg : risingStairs.Gapless := by decide +kernel
  have htall : 3 ≤ 5 ∧ 5 ≤ 6 ∧ 13 ≤ risingStairs.height 5 := by decide +kernel
  have hground : risingStairs.ground 3 = 11 ∧ risingStairs.ground 4 = 12 := by decide +kernel
  have hway3 : risingStairs.WayBelow 12 3 := by
    intro z hz hz'
    obtain rfl : z = 3 := Int.le_antisymm hz' hz
    rw [hground.1]
    decide
  have hway4 : risingStairs.WayBelow 13 4 :=
    (hway3.mono (by decide)).next (by decide) (by rw [hground.2]; decide)
  have hlow : ∀ x ∈ fieldColumns, risingStairs.height x ≤ 13 := by decide +kernel
  refine ⟨hf, hg, rfl, htall, (isReachable_iff_climbs (d := ⟨6, 0⟩) hf hg rfl ⟨5, htall⟩).mpr ?_⟩
  refine ⟨by decide +kernel, ⟨Or.inr ⟨3, hway3, hground.1⟩, 4, hway4, hground.2⟩,
    fun x hlo hhi => hlow x ((mem_fieldColumns_iff x).mpr ?_), fun _ => by decide +kernel,
    fun _ => by decide +kernel⟩
  exact ⟨Nat.le_trans (by decide) hlo, hhi⟩

/-- the moves up the stairs to a place with the child on the column of 13 rows -/
theorem isReachable_risingStairs :
    risingStairs.Exact ∧ risingStairs.Gapless ∧ (⟨4, 1⟩ : Decision).isValid = true ∧
      Decision.childX ⟨4, 1⟩ = 5 ∧ risingStairs.height 5 = 13 ∧
      isReachable risingStairs ⟨4, 1⟩ = true := by
  have hf : risingStairs.Exact := by decide +kernel
  refine ⟨hf, by decide +kernel, rfl, rfl, by decide +kernel, ?_⟩
  rw [isReachable_iff hf.covered, exists_placement_iff]
  refine ⟨14, (Pose.mem_reached_iff_isReached _ _).mpr ⟨by decide +kernel, ?_⟩⟩
  exact ⟨[.counterclockwise, .counterclockwise, .clockwise, .right, .counterclockwise,
    .counterclockwise], by decide +kernel⟩

end PuyoChain
