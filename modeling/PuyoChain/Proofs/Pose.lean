import Mathlib.Tactic.ByContra
import PuyoChain.Placement
import PuyoChain.Proofs.Field.Columns
import PuyoChain.Proofs.Search.Reach

/-!
# Where moves lead a falling piece

* `Pose.Stands`        both cells are free, and the rotation is one of the four;
* `Pose.exchanged`     the pose with its two cells exchanged, which fits just if the pose does;
* `Pose.fieldPoses`    the poses whose axis is in the field;
* `mem_reached_iff`    `Pose.reached` lists the poses that moves lead to from where a piece appears;
* `Field.TopOpen`      in some column the two cells are empty that an upright piece fills in the row
                       in which it appears;
* `Pose.Step`          what one move can do (`step_of_mem_moves`).

A piece moves along columns in all of which it fits (`leads_along`), so upright where they have an
open top (`leads_upright`).  In such a column it turns its child to a side that is open
(`turn_right`, `turn_left`), and it can always bring it below the axis, there or in any other row
(`leads_below`).
-/

namespace PuyoChain

namespace Pose

def ofNats (x y r : Nat) : Pose := ⟨x, y, r⟩

/-- both cells are on empty cells of the field, and the rotation is one of the four -/
def Stands (f : Field) (p : Pose) : Prop := p.fits f = true ∧ p.r ≤ 3

/-- the poses with the axis in the field and one of the four rotations -/
def fieldPoses : List Pose :=
  fieldColumns.flatMap fun x => (rowsUpTo 14).flatMap fun y => [0, 1, 2, 3].map (ofNats x y)

theorem length_fieldPoses : fieldPoses.length = 336 := by decide +kernel

theorem isFree_ofNat_iff (f : Field) (x y : Nat) :
    isFree f x y = true ↔ f.color x y = .empty := by
  constructor
  · intro h
    simp only [isFree, Bool.and_eq_true, Field.isEmpty, beq_iff_eq, Int.toNat_natCast] at h
    exact h.2
  · intro h
    have hin := Field.inField_of_color_ne_wall (f := f) (p := ⟨x, y⟩)
      (by rw [Field.colorAt, h]; decide)
    rw [Cell.inField_iff] at hin
    simp only [isFree, Bool.and_eq_true, Field.isEmpty, beq_iff_eq, Int.toNat_natCast, h, and_true,
      decide_eq_true_eq]
    dsimp only at hin
    omega

theorem fits_iff (f : Field) (p : Pose) :
    p.fits f = true ↔ isFree f p.x p.y = true ∧ isFree f p.child.1 p.child.2 = true := by
  rw [fits, Bool.and_eq_true]

/-- the pose with the axis in the cell of the child, and the child in that of the axis -/
def exchanged (p : Pose) : Pose := ⟨p.child.1, p.child.2, (p.r + 2) % 4⟩

theorem child_exchanged (p : Pose) : p.exchanged.child = (p.x, p.y) := by
  have hcases : p.r % 4 = 0 ∨ p.r % 4 = 1 ∨ p.r % 4 = 2 ∨ p.r % 4 = 3 := by omega
  rcases hcases with h | h | h | h
  · have h' : (p.r + 2) % 4 = 2 := by omega
    simp [exchanged, child, h, h']
  · have h' : (p.r + 2) % 4 = 3 := by omega
    simp [exchanged, child, h, h']
  · have h' : (p.r + 2) % 4 = 0 := by omega
    simp [exchanged, child, h, h']
  · have h' : (p.r + 2) % 4 = 1 := by omega
    simp [exchanged, child, h, h']

theorem fits_exchanged (f : Field) (p : Pose) : p.exchanged.fits f = p.fits f := by
  rw [fits, child_exchanged, Bool.and_comm]
  rfl

theorem exchanged_above (x y : Int) : exchanged ⟨x, y, 0⟩ = ⟨x, y + 1, 2⟩ := rfl

theorem exchanged_right (x y : Int) : exchanged ⟨x, y, 1⟩ = ⟨x + 1, y, 3⟩ := rfl

theorem exchanged_left (x y : Int) : exchanged ⟨x, y, 3⟩ = ⟨x - 1, y, 1⟩ := by
  simp [exchanged, child]

theorem mem_fieldPoses_of_stands {f : Field} {p : Pose} (h : p.Stands f) : p ∈ fieldPoses := by
  obtain ⟨hfits, hr⟩ := h
  obtain ⟨hx, hy⟩ := inField_of_isFree ((fits_iff f p).mp hfits).1
  simp only [fieldPoses, List.mem_flatMap, List.mem_map, mem_fieldColumns_iff, mem_rowsUpTo_iff]
  refine ⟨p.x.toNat, by omega, p.y.toNat, by omega, p.r, ?_, ?_⟩
  · simp only [List.mem_cons, List.not_mem_nil, or_false]
    omega
  · have ex : ((p.x.toNat : Nat) : Int) = p.x := Int.toNat_of_nonneg (by omega)
    have ey : ((p.y.toNat : Nat) : Int) = p.y := Int.toNat_of_nonneg (by omega)
    rw [ofNats, ex, ey]

/-! ## moves -/

theorem mem_moves_iff (f : Field) (p q : Pose) :
    q ∈ p.moves f ↔ p.shift? f (-1) = some q ∨ p.shift? f 1 = some q ∨ p.turn? f true = some q ∨
      p.turn? f false = some q ∨ p.fall? f = some q := by
  simp [moves, List.mem_filterMap, @eq_comm _ (some q)]

theorem stands_of_shift? {f : Field} {p q : Pose} {dx : Int} (hp : p.r ≤ 3)
    (h : p.shift? f dx = some q) : q.Stands f := by
  unfold shift? at h
  rw [Option.ite_none_left_eq_some, ifFits_eq_some_iff] at h
  obtain ⟨_, rfl, hfits⟩ := h
  exact ⟨hfits, hp⟩

theorem stands_of_fall? {f : Field} {p q : Pose} (hp : p.r ≤ 3) (h : p.fall? f = some q) :
    q.Stands f := by
  unfold fall? at h
  obtain ⟨rfl, hfits⟩ := (ifFits_eq_some_iff f _ q).mp h
  exact ⟨hfits, hp⟩

theorem stands_of_flip? {f : Field} {p q : Pose} (h : p.flip? f = some q) : q.Stands f := by
  unfold flip? at h
  split at h
  · obtain ⟨rfl, hfits⟩ := (ifFits_eq_some_iff f _ q).mp h
    exact ⟨hfits, Nat.le_succ 2⟩
  · obtain ⟨rfl, hfits⟩ := (ifFits_eq_some_iff f _ q).mp h
    exact ⟨hfits, Nat.zero_le 3⟩
  · cases h

theorem stands_of_turnTo? {f : Field} {p q : Pose} {r : Nat} (hr : r ≤ 3)
    (h : p.turnTo? f r = some q) : q.Stands f := by
  have direct : ∀ x y, ifFits f ⟨x, y, r⟩ = some q → q.Stands f := by
    intro x y hq
    obtain ⟨rfl, hfits⟩ := (ifFits_eq_some_iff f _ q).mp hq
    exact ⟨hfits, hr⟩
  unfold turnTo? at h
  rcases Option.or_eq_some_iff.mp h with h | ⟨_, h⟩
  · exact direct _ _ h
  · split at h
    · rcases Option.or_eq_some_iff.mp h with h | ⟨_, h⟩
      · exact direct _ _ h
      · exact stands_of_flip? h
    · rcases Option.or_eq_some_iff.mp h with h | ⟨_, h⟩
      · exact direct _ _ h
      · exact stands_of_flip? h
    · exact direct _ _ h
    · cases h

theorem stands_of_mem_moves {f : Field} {p q : Pose} (hp : p.r ≤ 3) (h : q ∈ p.moves f) :
    q.Stands f := by
  rcases (mem_moves_iff f p q).mp h with h | h | h | h | h
  · exact stands_of_shift? hp h
  · exact stands_of_shift? hp h
  · exact stands_of_turnTo? (Nat.lt_succ_iff.mp (Nat.mod_lt _ (by decide))) h
  · exact stands_of_turnTo? (Nat.lt_succ_iff.mp (Nat.mod_lt _ (by decide))) h
  · exact stands_of_fall? hp h

theorem closedUnder_fieldPoses (f : Field) : ClosedUnder (moves f) fieldPoses := by
  intro p hp q hq
  simp only [fieldPoses, List.mem_flatMap, List.mem_map] at hp
  obtain ⟨x, _, y, _, r, hr, rfl⟩ := hp
  refine mem_fieldPoses_of_stands (stands_of_mem_moves ?_ hq)
  simp only [List.mem_cons, List.not_mem_nil, or_false] at hr
  show r ≤ 3
  omega

theorem reached_of_not_fits {f : Field} (h : ¬ spawn.fits f = true) : reached f = [] := if_neg h

theorem mem_reached_iff {f : Field} (h : spawn.fits f = true) (p : Pose) :
    p ∈ reached f ↔ Leads (moves f) spawn p := by
  unfold reached
  rw [if_pos h]
  refine mem_spread_iff (closedUnder_fieldPoses f) ?_ ?_ p
  · rw [length_fieldPoses]
    decide
  · exact mem_fieldPoses_of_stands ⟨h, Nat.zero_le 3⟩

theorem stands_of_mem_reached {f : Field} {p : Pose} (h : p ∈ reached f) : p.Stands f := by
  by_cases hs : spawn.fits f = true
  · rw [mem_reached_iff hs] at h
    exact h.hand_on (P := Stands f) (fun _ _ hp hq => stands_of_mem_moves hp.2 hq)
      ⟨hs, Nat.zero_le 3⟩
  · rw [reached_of_not_fits hs] at h
    cases h

/-! ## poses that fit, by rotation -/

section
variable (f : Field) (x y : Nat)

theorem fits_above_iff :
    (ofNats x y 0).fits f = true ↔ f.color x y = .empty ∧ f.color x (y + 1) = .empty := by
  rw [fits_iff, ← isFree_ofNat_iff, ← isFree_ofNat_iff]
  rfl

theorem fits_right_iff :
    (ofNats x y 1).fits f = true ↔ f.color x y = .empty ∧ f.color (x + 1) y = .empty := by
  rw [fits_iff, ← isFree_ofNat_iff, ← isFree_ofNat_iff]
  rfl

theorem fits_left_iff :
    (ofNats (x + 1) y 3).fits f = true ↔ f.color (x + 1) y = .empty ∧ f.color x y = .empty := by
  rw [fits_iff, ← isFree_ofNat_iff, ← isFree_ofNat_iff]
  have e : (ofNats (x + 1) y 3).child = ((x : Int), (y : Int)) :=
    Prod.ext (Int.add_sub_cancel (x : Int) 1) rfl
  rw [e]
  rfl

end

end Pose

/-- the cells are empty that an upright piece fills in the column, in the row in which it appears -/
def Field.TopOpen (f : Field) (x : Nat) : Prop :=
  f.color x 12 = .empty ∧ f.color x 13 = .empty

theorem Field.Covered.topOpen {f : Field} (hf : f.Covered) {x : Nat} (hx : 1 ≤ x ∧ x ≤ 6)
    (h : f.height x < 12) : f.TopOpen x :=
  ⟨hf.color_eq_empty hx h (by omega), hf.color_eq_empty hx (by omega) (by omega)⟩

namespace Pose

variable {f : Field} {x : Nat}

/-! ## single moves -/

theorem mem_moves_of_shift {p : Pose} {dx : Int} (hdx : dx = -1 ∨ dx = 1)
    (h : fits f { p with x := p.x + dx } = true) : { p with x := p.x + dx } ∈ p.moves f := by
  have hx : 1 ≤ p.x + dx ∧ p.x + dx ≤ 6 := (inField_of_isFree ((fits_iff f _).mp h).1).1
  have hs : p.shift? f dx = some { p with x := p.x + dx } := by
    unfold shift?
    rw [if_neg (by omega), (ifFits_eq_some_iff f _ _).mpr ⟨rfl, h⟩]
  rw [mem_moves_iff]
  rcases hdx with rfl | rfl
  · exact Or.inl hs
  · exact Or.inr (Or.inl hs)

theorem mem_moves_of_turnTo? {p q : Pose} {r : Nat} (h : p.turnTo? f r = some q)
    (hr : r = (p.r + 1) % 4 ∨ r = (p.r + 3) % 4) : q ∈ p.moves f := by
  rw [mem_moves_iff]
  rcases hr with rfl | rfl
  · exact Or.inr (Or.inr (Or.inl h))
  · exact Or.inr (Or.inr (Or.inr (Or.inl h)))

theorem turnTo?_of_fits {p : Pose} {r : Nat} (h : fits f ⟨p.x, p.y, r⟩ = true) :
    p.turnTo? f r = some ⟨p.x, p.y, r⟩ := by
  unfold turnTo?
  rw [(ifFits_eq_some_iff f _ _).mpr ⟨rfl, h⟩]
  rfl

theorem turn_mem_moves {x y : Int} {r s : Nat} (hs : s = (r + 1) % 4 ∨ s = (r + 3) % 4)
    (h : fits f ⟨x, y, s⟩ = true) : (⟨x, y, s⟩ : Pose) ∈ moves f ⟨x, y, r⟩ :=
  mem_moves_of_turnTo? (turnTo?_of_fits h) hs

theorem turn_right (h : f.color x 12 = .empty) (hr : f.color (x + 1) 12 = .empty) :
    ofNats x 12 1 ∈ (ofNats x 12 0).moves f :=
  turn_mem_moves (Or.inl rfl) ((fits_right_iff f x 12).mpr ⟨h, hr⟩)

theorem turn_left (h : f.color (x + 1) 12 = .empty) (hl : f.color x 12 = .empty) :
    ofNats (x + 1) 12 3 ∈ (ofNats (x + 1) 12 0).moves f :=
  turn_mem_moves (Or.inr rfl) ((fits_left_iff f x 12).mpr ⟨h, hl⟩)

theorem ifFits_of_fits {p : Pose} (h : p.fits f = true) : ifFits f p = some p := if_pos h

theorem ifFits_of_not_fits {p : Pose} (h : ¬ p.fits f = true) : ifFits f p = none := if_neg h

theorem fall_mem_moves {x y : Int} {r : Nat} (h : fits f ⟨x, y - 1, r⟩ = true) :
    (⟨x, y - 1, r⟩ : Pose) ∈ moves f ⟨x, y, r⟩ :=
  (mem_moves_iff f _ _).mpr (Or.inr (Or.inr (Or.inr (Or.inr (ifFits_of_fits h)))))

/-! ## bringing the child below the axis -/

theorem lift_mem_moves {x y : Int} {r : Nat} (hr : r = 1 ∨ r = 3)
    (hbelow : ¬ fits f ⟨x, y, 2⟩ = true) (h : fits f ⟨x, y + 1, 2⟩ = true) :
    (⟨x, y + 1, 2⟩ : Pose) ∈ moves f ⟨x, y, r⟩ := by
  refine mem_moves_of_turnTo? (r := 2) ?_ (by dsimp only; omega)
  show (ifFits f ⟨x, y, 2⟩).or (ifFits f ⟨x, y + 1, 2⟩) = _
  rw [ifFits_of_not_fits hbelow, ifFits_of_fits h]
  rfl

/-- a horizontal piece with an empty cell above its axis brings its child below, perhaps lifted by
a row -/
theorem exists_turn_below {x y : Int} {r : Nat} (h : fits f ⟨x, y, 0⟩ = true)
    (hr : r = 1 ∨ r = 3) : ∃ y', (⟨x, y', 2⟩ : Pose) ∈ moves f ⟨x, y, r⟩ := by
  by_cases hdown : fits f ⟨x, y, 2⟩ = true
  · exact ⟨y, turn_mem_moves (by omega) hdown⟩
  · refine ⟨y + 1, lift_mem_moves hr hdown ?_⟩
    rwa [← exchanged_above, fits_exchanged]

/-- between two blocked sides an upright piece flips -/
theorem flip_below {x y : Int} (h : fits f ⟨x, y, 0⟩ = true)
    (hr : ¬ fits f ⟨x, y, 1⟩ = true) (hl : ¬ fits f ⟨x, y, 3⟩ = true) :
    (⟨x, y + 1, 2⟩ : Pose) ∈ moves f ⟨x, y, 0⟩ := by
  have hkick : ¬ fits f ⟨x - 1, y, 1⟩ = true := by
    rwa [← exchanged_left, fits_exchanged]
  have hflip : fits f ⟨x, y + 1, 2⟩ = true := by
    rwa [← exchanged_above, fits_exchanged]
  refine mem_moves_of_turnTo? (r := 1) ?_ (Or.inl rfl)
  show (ifFits f ⟨x, y, 1⟩).or ((ifFits f ⟨x - 1, y, 1⟩).or (ifFits f ⟨x, y + 1, 2⟩)) = _
  rw [ifFits_of_not_fits hr, ifFits_of_not_fits hkick, ifFits_of_fits hflip]
  rfl

/-- and the same way back -/
theorem flip_above {x y : Int} (h : fits f ⟨x, y - 1, 0⟩ = true)
    (hr : ¬ fits f ⟨x, y, 1⟩ = true) (hl : ¬ fits f ⟨x, y, 3⟩ = true) :
    (⟨x, y - 1, 0⟩ : Pose) ∈ moves f ⟨x, y, 2⟩ := by
  have hkick : ¬ fits f ⟨x - 1, y, 1⟩ = true := by
    rwa [← exchanged_left, fits_exchanged]
  have hr1 : 1 = (2 + 3) % 4 := rfl
  refine mem_moves_of_turnTo? (r := 1) ?_ (Or.inr hr1)
  show (ifFits f ⟨x, y, 1⟩).or ((ifFits f ⟨x - 1, y, 1⟩).or (ifFits f ⟨x, y - 1, 0⟩)) = _
  rw [ifFits_of_not_fits hr, ifFits_of_not_fits hkick, ifFits_of_fits h]
  rfl

/-- from every row in which an upright piece stands, its child can be brought below the axis -/
theorem leads_below {x y : Int} (h : fits f ⟨x, y, 0⟩ = true) :
    ∃ y', Leads (moves f) ⟨x, y, 0⟩ ⟨x, y', 2⟩ := by
  by_cases hr : fits f ⟨x, y, 1⟩ = true
  · have hturn : (⟨x, y, 1⟩ : Pose) ∈ moves f ⟨x, y, 0⟩ :=
      turn_mem_moves (Or.inl rfl) hr
    obtain ⟨y', hy⟩ := exists_turn_below h (Or.inl rfl)
    exact ⟨y', ((leads_refl _ _).tail hturn).tail hy⟩
  · by_cases hl : fits f ⟨x, y, 3⟩ = true
    · have hturn : (⟨x, y, 3⟩ : Pose) ∈ moves f ⟨x, y, 0⟩ :=
        turn_mem_moves (Or.inr rfl) hl
      obtain ⟨y', hy⟩ := exists_turn_below h (Or.inr rfl)
      exact ⟨y', ((leads_refl _ _).tail hturn).tail hy⟩
    · exact ⟨y + 1, (leads_refl _ _).tail (flip_below h hr hl)⟩

/-! ## ways along columns -/

theorem leads_right {x y : Int} {r : Nat} (n : Nat)
    (h : ∀ z, x < z → z ≤ x + n → fits f ⟨z, y, r⟩ = true) :
    Leads (moves f) ⟨x, y, r⟩ ⟨x + n, y, r⟩ := by
  induction n with
  | zero =>
    rw [Int.natCast_zero, Int.add_zero]
    exact leads_refl _ _
  | succ n ih =>
    have ih' := ih fun z hz hz' => h z hz (by omega)
    have hfits := h (x + n + 1) (by omega) (by omega)
    rw [Int.natCast_succ, ← Int.add_assoc]
    exact ih'.tail (mem_moves_of_shift (p := ⟨x + n, y, r⟩) (Or.inr rfl) hfits)

theorem leads_left {x y : Int} {r : Nat} (n : Nat)
    (h : ∀ z, x - n ≤ z → z < x → fits f ⟨z, y, r⟩ = true) :
    Leads (moves f) ⟨x, y, r⟩ ⟨x - n, y, r⟩ := by
  induction n with
  | zero =>
    rw [Int.natCast_zero, Int.sub_zero]
    exact leads_refl _ _
  | succ n ih =>
    have ih' := ih fun z hz hz' => h z (by omega) hz'
    have hfits := h (x - n + -1) (by omega) (by omega)
    have e : x - ((n + 1 : Nat) : Int) = x - n + -1 := by omega
    rw [e]
    exact ih'.tail (mem_moves_of_shift (p := ⟨x - n, y, r⟩) (Or.inl rfl) hfits)

/-- a piece is shifted along columns in all of which it fits -/
theorem leads_along {x x' y : Int} {r : Nat}
    (h : ∀ z, min x x' ≤ z → z ≤ max x x' → fits f ⟨z, y, r⟩ = true) :
    Leads (moves f) ⟨x, y, r⟩ ⟨x', y, r⟩ := by
  by_cases hx : x ≤ x'
  · obtain ⟨n, rfl⟩ := Int.le.dest hx
    exact leads_right n fun z hz hz' => h z (by omega) (by omega)
  · obtain ⟨n, hn⟩ := Int.le.dest (show x' ≤ x by omega)
    obtain rfl : x' = x - n := by omega
    exact leads_left n fun z hz hz' => h z (by omega) (by omega)

/-- a piece moves upright along columns with an open top -/
theorem leads_upright (h : ∀ z, min 3 x ≤ z → z ≤ max 3 x → f.TopOpen z) :
    Leads (moves f) spawn (ofNats x 12 0) := by
  refine leads_along fun z hz hz' => ?_
  obtain ⟨n, rfl⟩ := Int.eq_ofNat_of_zero_le (a := z) (by omega)
  exact (fits_above_iff f n 12).mpr (h n (by omega) (by omega))

/-! ## what one move can do -/

variable {p q : Pose}

/-- what one move can do; a lift and a flip take place where plainer turns are blocked -/
inductive Step (f : Field) (p : Pose) : Pose → Prop where
  | shift (dx : Int) (hdx : dx = -1 ∨ dx = 1) : Step f p ⟨p.x + dx, p.y, p.r⟩
  | fall : Step f p ⟨p.x, p.y - 1, p.r⟩
  | turn (r : Nat) (hr : r % 2 ≠ p.r % 2) : Step f p ⟨p.x, p.y, r⟩
  | kick (dx : Int) (r : Nat) (hdx : dx = -1 ∨ dx = 1) (hr : r = 1 ∨ r = 3) :
    Step f p ⟨p.x + dx, p.y, r⟩
  | lift (hr : p.r % 2 = 1) (hbelow : ¬ fits f ⟨p.x, p.y, 2⟩ = true) : Step f p ⟨p.x, p.y + 1, 2⟩
  | flipUp (hr : p.r = 0) (hright : ¬ fits f ⟨p.x, p.y, 1⟩ = true)
    (hleft : ¬ fits f ⟨p.x, p.y, 3⟩ = true) : Step f p ⟨p.x, p.y + 1, 2⟩
  | flipDown (hr : p.r = 2) (hright : ¬ fits f ⟨p.x, p.y, 1⟩ = true)
    (hleft : ¬ fits f ⟨p.x, p.y, 3⟩ = true) : Step f p ⟨p.x, p.y - 1, 0⟩

theorem not_fits_of_ifFits_eq_none (h : ifFits f p = none) : ¬ p.fits f = true := by
  intro hfits
  rw [ifFits_of_fits hfits] at h
  cases h

theorem step_of_flip? (hright : ¬ fits f ⟨p.x, p.y, 1⟩ = true)
    (hleft : ¬ fits f ⟨p.x, p.y, 3⟩ = true) (h : p.flip? f = some q) : p.Step f q := by
  unfold flip? at h
  split at h
  · rename_i hr
    obtain ⟨rfl, _⟩ := (ifFits_eq_some_iff f _ q).mp h
    exact .flipUp hr hright hleft
  · rename_i hr
    obtain ⟨rfl, _⟩ := (ifFits_eq_some_iff f _ q).mp h
    exact .flipDown hr hright hleft
  · cases h

theorem step_of_turnTo? {r : Nat} (hr : r % 2 ≠ p.r % 2) (h : p.turnTo? f r = some q) :
    p.Step f q := by
  unfold turnTo? at h
  rcases Option.or_eq_some_iff.mp h with h | ⟨hdirect, h⟩
  · obtain ⟨rfl, _⟩ := (ifFits_eq_some_iff f _ q).mp h
    exact .turn r hr
  have hdirect := not_fits_of_ifFits_eq_none hdirect
  split at h
  · rcases Option.or_eq_some_iff.mp h with h | ⟨hkick, h⟩
    · obtain ⟨rfl, _⟩ := (ifFits_eq_some_iff f _ q).mp h
      exact .kick (-1) 1 (Or.inl rfl) (Or.inl rfl)
    · have hkick := not_fits_of_ifFits_eq_none hkick
      rw [← exchanged_left, fits_exchanged] at hkick
      exact step_of_flip? hdirect hkick h
  · rcases Option.or_eq_some_iff.mp h with h | ⟨hkick, h⟩
    · obtain ⟨rfl, _⟩ := (ifFits_eq_some_iff f _ q).mp h
      exact .kick 1 3 (Or.inr rfl) (Or.inr rfl)
    · have hkick := not_fits_of_ifFits_eq_none hkick
      rw [← exchanged_right, fits_exchanged] at hkick
      exact step_of_flip? hkick hdirect h
  · obtain ⟨rfl, _⟩ := (ifFits_eq_some_iff f _ q).mp h
    exact .lift (by omega) hdirect
  · cases h

theorem step_of_mem_moves (h : q ∈ p.moves f) : p.Step f q := by
  have hshift : ∀ dx, dx = -1 ∨ dx = 1 → p.shift? f dx = some q → p.Step f q := by
    intro dx hdx h
    unfold shift? at h
    rw [Option.ite_none_left_eq_some, ifFits_eq_some_iff] at h
    obtain ⟨_, rfl, _⟩ := h
    exact .shift dx hdx
  rcases (mem_moves_iff f p q).mp h with h | h | h | h | h
  · exact hshift (-1) (Or.inl rfl) h
  · exact hshift 1 (Or.inr rfl) h
  · exact step_of_turnTo? (r := (p.r + 1) % 4) (by omega) h
  · exact step_of_turnTo? (r := (p.r + 3) % 4) (by omega) h
  · obtain ⟨rfl, _⟩ := (ifFits_eq_some_iff f _ q).mp h
    exact .fall

end Pose

end PuyoChain
