import Mathlib.Order.Bounds.Defs
import PuyoChain.Proofs.Reachability

/-!
# Placements and sequences of moves

* `Move`, `Move.make?`   one move of a falling piece, and the pose after it;
* `Pose.follow?`          the pose after several moves;
* `Pose.IsReached`        a piece can appear, and some moves bring it to the pose;
* `placements_eq_closure`   `placements` lists a decision just if a pose for it is reached, in
                          ascending order, each with the rest below the highest such pose.

The search spreads over the poses in the field only, so there is fuel for all its layers
(`Pose.reached_eq`), and a piece falls at most the rows below it, so it falls until it is blocked
(`Pose.exists_falls_landFrom`, `Pose.fall?_landing`).
-/

namespace PuyoChain

/-- one move of a falling piece -/
inductive Move where
  | left
  | right
  | clockwise
  | counterclockwise
  | fall
  deriving DecidableEq, Repr

/-- the pose after a move, none where it is blocked -/
def Move.make? (f : Field) (p : Pose) : Move → Option Pose
  | .left => p.shift? f (-1)
  | .right => p.shift? f 1
  | .clockwise => p.turn? f true
  | .counterclockwise => p.turn? f false
  | .fall => p.fall? f

/-- the decision comes before the other: in an earlier column, or there with a lesser rotation -/
def Decision.Before (d e : Decision) : Prop := d.x < e.x ∨ d.x = e.x ∧ d.r < e.r

instance (d e : Decision) : Decidable (d.Before e) :=
  inferInstanceAs (Decidable (d.x < e.x ∨ d.x = e.x ∧ d.r < e.r))

namespace Pose

variable {f : Field} {p q : Pose}

/-- the pose after several moves, none where one of them is blocked -/
def follow? (f : Field) : Pose → List Move → Option Pose
  | p, [] => some p
  | p, m :: ms => (m.make? f p).bind fun q => follow? f q ms

/-- a piece can appear, and some moves bring it to the pose -/
def IsReached (f : Field) (p : Pose) : Prop :=
  spawn.fits f = true ∧ ∃ ms, spawn.follow? f ms = some p

/-! ## sequences of moves -/

theorem mem_moves_iff_exists (f : Field) (p q : Pose) :
    q ∈ p.moves f ↔ ∃ m, Move.make? f p m = some q := by
  rw [mem_moves_iff]
  constructor
  · rintro (h | h | h | h | h)
    · exact ⟨.left, h⟩
    · exact ⟨.right, h⟩
    · exact ⟨.clockwise, h⟩
    · exact ⟨.counterclockwise, h⟩
    · exact ⟨.fall, h⟩
  · rintro ⟨m, h⟩
    cases m with
    | left => exact Or.inl h
    | right => exact Or.inr (Or.inl h)
    | clockwise => exact Or.inr (Or.inr (Or.inl h))
    | counterclockwise => exact Or.inr (Or.inr (Or.inr (Or.inl h)))
    | fall => exact Or.inr (Or.inr (Or.inr (Or.inr h)))

theorem leads_of_follow? {ms : List Move} (h : p.follow? f ms = some q) :
    Leads (moves f) p q := by
  induction ms generalizing p with
  | nil =>
    rw [Option.some.inj h]
    exact leads_refl _ q
  | cons m ms ih =>
    obtain ⟨p', hm, hms⟩ := Option.bind_eq_some_iff.mp h
    exact Relation.ReflTransGen.head ((mem_moves_iff_exists f p p').mpr ⟨m, hm⟩) (ih hms)

theorem exists_follow?_of_leads (h : Leads (moves f) p q) : ∃ ms, p.follow? f ms = some q := by
  induction h using Relation.ReflTransGen.head_induction_on with
  | refl => exact ⟨[], rfl⟩
  | head hstep _ ih =>
    obtain ⟨m, hm⟩ := (mem_moves_iff_exists f _ _).mp hstep
    obtain ⟨ms, hms⟩ := ih
    exact ⟨m :: ms, Option.bind_eq_some_iff.mpr ⟨_, hm, hms⟩⟩

/-- the search lists the poses that sequences of moves reach -/
theorem mem_reached_iff_isReached (f : Field) (p : Pose) : p ∈ reached f ↔ p.IsReached f := by
  by_cases hs : spawn.fits f = true
  · rw [mem_reached_iff hs]
    refine ⟨fun h => ⟨hs, exists_follow?_of_leads h⟩, ?_⟩
    rintro ⟨_, ms, h⟩
    exact leads_of_follow? h
  · rw [reached_of_not_fits hs]
    exact ⟨nofun, fun h => absurd h.1 hs⟩

theorem IsReached.stands (h : p.IsReached f) : p.Stands f :=
  stands_of_mem_reached ((mem_reached_iff_isReached f p).mpr h)

theorem Stands.inField (h : p.Stands f) : (1 ≤ p.x ∧ p.x ≤ 6) ∧ 1 ≤ p.y ∧ p.y ≤ 14 :=
  inField_of_isFree ((fits_iff f p).mp h.1).1

/-- the search has fuel for all poses of the field -/
theorem reached_eq (f : Field) {fuel : Nat} (h : poseCount ≤ fuel) :
    reached f = if spawn.fits f then spread (moves f) fuel [] [spawn] else [] := by
  have hspawn : spawn ∈ fieldPoses := by decide +kernel
  have hall : spread (moves f) fuel [] [spawn] = spread (moves f) poseCount [] [spawn] := by
    refine spread_eq_of_le (closedUnder_fieldPoses f) (List.nodup_singleton _) (fun p hp => ?_) ?_ h
    · rwa [List.mem_singleton.mp hp]
    · rw [length_fieldPoses]
      decide
  rw [hall, reached]

/-! ## coming to rest -/

theorem row_of_fall? (h : p.fall? f = some q) : q.y = p.y - 1 ∧ 1 ≤ q.y := by
  obtain ⟨rfl, hfits⟩ := (ifFits_eq_some_iff f _ q).mp h
  exact ⟨rfl, (inField_of_isFree ((fits_iff f _).mp hfits).1).2.1⟩

theorem Stands.landFrom (h : p.Stands f) (fuel : Nat) : (landFrom f fuel p).Stands f := by
  induction fuel generalizing p with
  | zero => exact h
  | succ fuel ih =>
    unfold Pose.landFrom
    cases hf : p.fall? f with
    | none => exact h
    | some q => exact ih (stands_of_fall? h.2 hf)

/-- with fuel for every row below it, a piece falls until it is blocked -/
theorem fall?_landFrom {fuel : Nat} (h : p.y ≤ fuel) : (landFrom f fuel p).fall? f = none := by
  induction fuel generalizing p with
  | zero =>
    show p.fall? f = none
    refine Option.eq_none_iff_forall_ne_some.mpr fun q hq => ?_
    have := row_of_fall? hq
    omega
  | succ fuel ih =>
    unfold Pose.landFrom
    cases hf : p.fall? f with
    | none => exact hf
    | some q =>
      have := row_of_fall? hf
      exact ih (by omega)

/-- a piece comes down by falls alone, a row each -/
theorem exists_falls_landFrom (f : Field) (fuel : Nat) (p : Pose) :
    ∃ n : Nat, p.follow? f (List.replicate n .fall) = some (landFrom f fuel p) ∧
      landFrom f fuel p = ⟨p.x, p.y - n, p.r⟩ := by
  induction fuel generalizing p with
  | zero => exact ⟨0, rfl, by simp [landFrom]⟩
  | succ fuel ih =>
    unfold landFrom
    cases hf : p.fall? f with
    | none => exact ⟨0, rfl, by simp⟩
    | some q =>
      obtain ⟨n, hn, hq⟩ := ih q
      obtain ⟨rfl, _⟩ := (ifFits_eq_some_iff f _ q).mp hf
      refine ⟨n + 1, Option.bind_eq_some_iff.mpr ⟨_, hf, hn⟩, hq.trans ?_⟩
      congr 1
      push_cast
      omega

theorem fall?_landing (f : Field) (p : Pose) : (p.landing f).fall? f = none :=
  fall?_landFrom (Int.self_le_toNat p.y)

theorem Stands.landing (h : p.Stands f) : (p.landing f).Stands f := h.landFrom _

end Pose

/-! ## placements -/

theorem pairwise_columnDecisions : columnDecisions.Pairwise Decision.Before := by decide

theorem pairwise_placements (f : Field) :
    (placements f).Pairwise fun p q => p.decision.Before q.decision := by
  refine List.pairwise_filterMap.mpr (pairwise_columnDecisions.imp fun {d e} h p hp q hq => ?_)
  obtain ⟨_, rfl⟩ := (placementAmong_eq_some_iff f _ d p).mp hp
  obtain ⟨_, rfl⟩ := (placementAmong_eq_some_iff f _ e q).mp hq
  exact h

/-- the row of a placement is that in which a piece comes to rest from the highest pose reached -/
theorem landingRow_eq {f : Field} {p : Placement} (hp : p ∈ placements f) :
    ∃ y, IsGreatest {y : Int | Pose.IsReached f ⟨p.decision.x, y, p.decision.r⟩} y ∧
      (p.landingRow : Int) = (Pose.landing f ⟨p.decision.x, y, p.decision.r⟩).y := by
  have hd := ((mem_placements_iff f p).mp hp).2
  obtain ⟨hne, hp⟩ := (placementAmong_eq_some_iff f _ _ p).mp hd
  have hbest := isGreatest_bestRow hne
  simp only [Pose.mem_reached_iff_isReached] at hbest
  have hrow := (Pose.IsReached.stands hbest.1).landing.inField.2
  refine ⟨_, hbest, ?_⟩
  rw [congrArg Placement.landingRow hp]
  exact Int.toNat_of_nonneg (by omega)

/-- **The placements are the closure of the moves.**  The search has fuel for all poses, and none
that it meets lies outside the field.  It lists a decision once, in ascending order, just if some
sequence of moves reaches a pose with its column and rotation; the row is that in which the piece
comes to rest from the highest such pose, and it comes to rest by falling, row by row, until it is
blocked. -/
theorem placements_eq_closure (f : Field) :
    (∀ fuel, poseCount ≤ fuel → Pose.reached f =
      if Pose.spawn.fits f then spread (Pose.moves f) fuel [] [Pose.spawn] else []) ∧
    (∀ p, Pose.IsReached f p → (1 ≤ p.x ∧ p.x ≤ 6) ∧ (1 ≤ p.y ∧ p.y ≤ 14) ∧ p.r ≤ 3) ∧
    ((placements f).Pairwise fun p q => p.decision.Before q.decision) ∧
    (∀ d : Decision, (∃ p ∈ placements f, p.decision = d) ↔
      ∃ y, Pose.IsReached f ⟨d.x, y, d.r⟩) ∧
    (∀ p ∈ placements f, ∃ y,
      IsGreatest {y : Int | Pose.IsReached f ⟨p.decision.x, y, p.decision.r⟩} y ∧
      (p.landingRow : Int) = (Pose.landing f ⟨p.decision.x, y, p.decision.r⟩).y) ∧
    (∀ p, (∃ n : Nat, p.follow? f (List.replicate n .fall) = some (Pose.landing f p) ∧
        Pose.landing f p = ⟨p.x, p.y - n, p.r⟩) ∧
      (Pose.landing f p).fall? f = none) := by
  refine ⟨fun fuel => Pose.reached_eq f, fun p hp => ⟨hp.stands.inField.1, hp.stands.inField.2,
    hp.stands.2⟩, pairwise_placements f, fun d => ?_, fun p => landingRow_eq,
    fun p => ⟨Pose.exists_falls_landFrom f _ p, Pose.fall?_landing f p⟩⟩
  rw [exists_placement_iff]
  simp only [Pose.mem_reached_iff_isReached]

end PuyoChain
