import PuyoChain.Field.Lock
import PuyoChain.Proofs.Field.Columns

/-!
# Additions on top of a field

* `Field.placeAll`      the field with all additions of a list on top, one after the other;
* `Field.Fits`          each of them finds its column in the field, with room;
* `Piece.additions`     the two additions of a piece, in the order in which they are stacked.

`lock?`, `stack?` and `stackAll?` are `placeAll` of a list that fits (`lock?_eq_some_iff`,
`stack?_eq_some_iff`, `stackAll?_eq_some`).  Additions that fit keep a field covered, and exact
unless one of them is an empty cell (`Covered.placeAll`, `Exact.placeAll`).
-/

namespace PuyoChain

namespace Decision

theorem isVertical_iff (d : Decision) : d.isVertical = true ↔ d.r = 0 ∨ d.r = 2 := by
  unfold isVertical
  rw [Bool.or_eq_true, beq_iff_eq, beq_iff_eq]

theorem childX_of_vertical (d : Decision) (h : d.r = 0 ∨ d.r = 2) : d.childX = d.axisX := by
  unfold childX
  rw [if_neg (by omega), if_neg (by omega)]
  rfl

theorem childX_ne_axisX {d : Decision} (hv : d.isValid = true) (h : ¬ (d.r = 0 ∨ d.r = 2)) :
    d.childX ≠ d.axisX := by
  obtain ⟨hx, hr, hc⟩ := (isValid_iff d).mp hv
  unfold childX at hc ⊢
  show _ ≠ d.x
  by_cases h1 : d.r = 1
  · rw [if_pos h1]
    omega
  · rw [if_neg h1, if_pos (by omega)] at hc ⊢
    omega

end Decision

namespace Piece

/-- the color that comes first on a column of the field -/
def lower (p : Piece) (d : Decision) : Color := if d.r = 2 then p.child else p.axis

def upper (p : Piece) (d : Decision) : Color := if d.r = 2 then p.axis else p.child

/-- the two additions of a piece, in the order in which they are stacked -/
def additions (p : Piece) (d : Decision) : List Addition :=
  [⟨d.axisX, p.lower d⟩, ⟨d.childX, p.upper d⟩]

/-- neither cell of the piece is empty -/
def Solid (p : Piece) : Prop := p.axis ≠ .empty ∧ p.child ≠ .empty

instance (p : Piece) : Decidable p.Solid :=
  inferInstanceAs (Decidable (p.axis ≠ .empty ∧ p.child ≠ .empty))

/-- both cells have normal colors -/
def Normal (p : Piece) : Prop := p.axis.isNormal = true ∧ p.child.isNormal = true

instance (p : Piece) : Decidable p.Normal :=
  inferInstanceAs (Decidable (p.axis.isNormal = true ∧ p.child.isNormal = true))

theorem Normal.solid {p : Piece} (h : p.Normal) : p.Solid := by
  obtain ⟨ha, hc⟩ := h
  constructor
  · intro e
    rw [e] at ha
    cases ha
  · intro e
    rw [e] at hc
    cases hc

theorem Solid.colors {p : Piece} (h : p.Solid) (d : Decision) :
    p.lower d ≠ .empty ∧ p.upper d ≠ .empty := by
  unfold lower upper
  by_cases e : d.r = 2
  · rw [if_pos e, if_pos e]
    exact ⟨h.2, h.1⟩
  · rw [if_neg e, if_neg e]
    exact h

theorem Solid.additions {p : Piece} (h : p.Solid) (d : Decision) :
    ∀ a ∈ p.additions d, a.color ≠ .empty := by
  obtain ⟨hlower, hupper⟩ := h.colors d
  intro a ha
  simp only [Piece.additions, List.mem_cons, List.not_mem_nil, or_false] at ha
  rcases ha with rfl | rfl
  · exact hlower
  · exact hupper

end Piece

namespace Field

/-- the field with all additions of a list on top, one after the other -/
def placeAll (f : Field) (as : List Addition) : Field := as.foldl (fun g a => g.place a.x a.color) f

/-- every addition finds its column in the field, with room -/
def Fits : Field → List Addition → Prop
  | _, [] => True
  | f, a :: as => (1 ≤ a.x ∧ a.x ≤ 6) ∧ f.height a.x < 14 ∧ Fits (f.place a.x a.color) as

theorem placeAll_additions (f : Field) (p : Piece) (d : Decision) :
    f.placeAll (p.additions d) = (f.place d.axisX (p.lower d)).place d.childX (p.upper d) := rfl

theorem fits_nil (f : Field) : f.Fits [] := trivial

/-! ## what additions that fit keep -/

theorem Covered.placeAll {f : Field} (hf : f.Covered) {as : List Addition} (h : f.Fits as) :
    (f.placeAll as).Covered := by
  induction as generalizing f with
  | nil => exact hf
  | cons a as ih => exact ih (hf.place h.2.1 a.color) h.2.2

theorem Exact.placeAll {f : Field} (hf : f.Exact) {as : List Addition} (h : f.Fits as)
    (ha : ∀ a ∈ as, a.color ≠ .empty) : (f.placeAll as).Exact := by
  induction as generalizing f with
  | nil => exact hf
  | cons a as ih =>
    have hp := hf.place h.2.1 (ha a List.mem_cons_self)
    exact ih hp h.2.2 fun b hb => ha b (List.mem_cons_of_mem _ hb)

theorem Exact.settled_placeAll {f : Field} (hf : f.Exact) (hs : f.Settled) {as : List Addition}
    (h : f.Fits as) (ha : ∀ a ∈ as, a.color ≠ .empty) : (f.placeAll as).Settled := by
  induction as generalizing f with
  | nil => exact hs
  | cons a as ih =>
    have hp := hf.place h.2.1 (ha a List.mem_cons_self)
    exact ih hp (hf.settled_place hs h.2.1 a.color) h.2.2
      fun b hb => ha b (List.mem_cons_of_mem _ hb)

/-- a list fits if every column has room for all of its additions -/
theorem fits_of_room {f : Field} {as : List Addition} (hcol : ∀ a ∈ as, 1 ≤ a.x ∧ a.x ≤ 6)
    (hroom : ∀ x, 1 ≤ x ∧ x ≤ 6 → f.height x + as.countP (fun a => a.x == x) ≤ 14) :
    f.Fits as := by
  induction as generalizing f with
  | nil => trivial
  | cons a as ih =>
    have hx := hcol a List.mem_cons_self
    have hr := hroom a.x hx
    rw [List.countP_cons_of_pos (by simp)] at hr
    refine ⟨hx, by omega, ih (fun b hb => hcol b (List.mem_cons_of_mem _ hb)) fun x h => ?_⟩
    have hr' := hroom x h
    rw [List.countP_cons] at hr'
    rw [height_place f hx]
    by_cases e : x = a.x
    · rw [if_pos e]
      rw [if_pos (by simp [e])] at hr'
      omega
    · rw [if_neg e]
      omega

/-! ## the operations that place -/

theorem stack?_eq_some_iff (f g : Field) (x : Nat) (a : Color) :
    f.stack? x a = some g ↔ f.Fits [⟨x, a⟩] ∧ g = f.placeAll [⟨x, a⟩] := by
  show (if (1 ≤ x ∧ x ≤ 6) ∧ f.height x < 14 then some (f.place x a) else none) = some g ↔
    ((1 ≤ x ∧ x ≤ 6) ∧ f.height x < 14 ∧ True) ∧ g = f.place x a
  by_cases h : (1 ≤ x ∧ x ≤ 6) ∧ f.height x < 14
  · rw [if_pos h, Option.some.injEq]
    exact ⟨fun e => ⟨⟨h.1, h.2, trivial⟩, e.symm⟩, fun e => e.2.symm⟩
  · rw [if_neg h]
    exact ⟨nofun, fun e => absurd ⟨e.1.1, e.1.2.1⟩ h⟩

theorem height_of_stack? {f g : Field} {x : Nat} {a : Color} (h : f.stack? x a = some g) :
    g.height x = f.height x + 1 := by
  obtain ⟨hfits, hplace⟩ := (stack?_eq_some_iff f g x a).mp h
  rw [hplace]
  exact (height_place f hfits.1 a x).trans (if_pos rfl)

theorem stackAll?_eq_some {f g : Field} {l : Additions} (hl : ∀ a ∈ l.entries, 1 ≤ a.x ∧ a.x ≤ 6)
    (h : f.stackAll? l = some g) : f.Fits l.entries ∧ g = f.placeAll l.entries := by
  unfold stackAll? at h
  split at h
  · rename_i hr
    refine ⟨fits_of_room hl fun x hx => ?_, (Option.some.inj h).symm⟩
    exact of_decide_eq_true (List.all_eq_true.mp hr x ((mem_fieldColumns_iff x).mpr hx))
  · cases h

theorem lock?_eq_some_iff (f g : Field) (d : Decision) (p : Piece) :
    f.lock? d p = some g ↔
      d.isValid = true ∧ f.Fits (p.additions d) ∧ g = f.placeAll (p.additions d) := by
  by_cases hv : d.isValid = true
  · obtain ⟨hx', _, hc⟩ := (Decision.isValid_iff d).mp hv
    have hx : 1 ≤ d.axisX ∧ d.axisX ≤ 6 := hx'
    have hfits : f.Fits (p.additions d) ↔ f.height d.axisX < 14 ∧
        (if d.childX = d.axisX then f.height d.childX + 1 else f.height d.childX) < 14 := by
      rw [← height_place f hx (p.lower d)]
      exact ⟨fun h => ⟨h.2.1, h.2.2.2.1⟩, fun h => ⟨hx, h.1, hc, h.2, trivial⟩⟩
    have hall : f.placeAll (p.additions d) =
        (f.place d.axisX (p.lower d)).place d.childX (p.upper d) := rfl
    rw [hfits, hall]
    unfold lock?
    rw [hv, if_neg (by decide)]
    by_cases h0 : d.r = 0
    · have hl : p.lower d = p.axis := if_neg (by omega)
      have hu : p.upper d = p.child := if_neg (by omega)
      rw [if_pos h0, d.childX_of_vertical (Or.inl h0), if_pos rfl, hl, hu,
        Option.ite_none_left_eq_some, Option.some.injEq]
      constructor
      · rintro ⟨hn, rfl⟩
        exact ⟨rfl, by omega, rfl⟩
      · rintro ⟨_, hn, rfl⟩
        exact ⟨by omega, rfl⟩
    · rw [if_neg h0]
      by_cases h2 : d.r = 2
      · have hl : p.lower d = p.child := if_pos h2
        have hu : p.upper d = p.axis := if_pos h2
        rw [if_pos h2, d.childX_of_vertical (Or.inr h2), if_pos rfl, hl, hu,
          Option.ite_none_left_eq_some, Option.some.injEq]
        constructor
        · rintro ⟨hn, rfl⟩
          exact ⟨rfl, by omega, rfl⟩
        · rintro ⟨_, hn, rfl⟩
          exact ⟨by omega, rfl⟩
      · have hl : p.lower d = p.axis := if_neg h2
        have hu : p.upper d = p.child := if_neg h2
        rw [if_neg h2, if_neg (Decision.childX_ne_axisX hv (by omega)), hl, hu,
          Option.ite_none_left_eq_some, Option.some.injEq]
        constructor
        · rintro ⟨hn, rfl⟩
          exact ⟨rfl, by omega, rfl⟩
        · rintro ⟨_, hn, rfl⟩
          exact ⟨by omega, rfl⟩
  · rw [lock?_of_not_valid (by simpa using hv)]
    exact ⟨nofun, fun h => absurd h.1 hv⟩

/-- both cells of a locked piece find room, one after the other -/
theorem lock?_inv {f g : Field} {d : Decision} {p : Piece} (h : f.lock? d p = some g) :
    (1 ≤ d.axisX ∧ d.axisX ≤ 6) ∧ f.height d.axisX < 14 ∧ (1 ≤ d.childX ∧ d.childX ≤ 6) ∧
      (f.place d.axisX (p.lower d)).height d.childX < 14 ∧
      g = f.placeAll (p.additions d) := by
  obtain ⟨_, ⟨hx, hr, hx', hr', _⟩, hg⟩ := (lock?_eq_some_iff f g d p).mp h
  exact ⟨hx, hr, hx', hr', hg⟩

theorem Exact.lock? {f g : Field} (hf : f.Exact) {d : Decision} {p : Piece} (hp : p.Solid)
    (h : f.lock? d p = some g) : g.Exact := by
  obtain ⟨_, hfit, rfl⟩ := (lock?_eq_some_iff f g d p).mp h
  exact hf.placeAll hfit (hp.additions d)

theorem Exact.settled_lock? {f g : Field} (hf : f.Exact) (hs : f.Settled) {d : Decision} {p : Piece}
    (hp : p.Solid) (h : f.lock? d p = some g) : g.Settled := by
  obtain ⟨_, hfit, rfl⟩ := (lock?_eq_some_iff f g d p).mp h
  exact hf.settled_placeAll hs hfit (hp.additions d)

end Field

end PuyoChain
