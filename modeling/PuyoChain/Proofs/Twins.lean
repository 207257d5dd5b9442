import PuyoChain.Proofs.Field.Placing
import PuyoChain.Proofs.Reachability

/-!
# The two cells of a piece the other way round

* `Decision.twin`             the decision that exchanges the cells that a piece fills;
* `Pose.leads_exchanged`      where moves bring a horizontal piece, they bring it with its cells
                              exchanged too;
* `contains_twin`             so the twin of a decision can be reached, unless its child goes on top;
* `lock?_twin`                a piece of one color locks by both alike;
* `forPiece_covers_double`    half of the catalog covers all that such a piece can do.

A vertical piece beside a free cell can turn its child to either end of the two cells: on one side
by a plain turn, on the other by a kick, or by a plain turn and a shift where both sides are free
(`leads_right_side`, `leads_left_side`).  Shifts and falls keep two exchanged poses together.
-/

namespace PuyoChain

namespace Pose

variable {f : Field} {p q : Pose}

/-! ## exchanged poses side by side -/

theorem child_shifted (p : Pose) (dx : Int) :
    child { p with x := p.x + dx } = (p.child.1 + dx, p.child.2) := by
  have hcases : p.r % 4 = 0 ∨ p.r % 4 = 1 ∨ p.r % 4 = 2 ∨ p.r % 4 = 3 := by omega
  rcases hcases with h | h | h | h
  · simp [child, h]
  · simp [child, h, Int.add_right_comm]
  · simp [child, h]
  · simp [child, h, Int.sub_eq_add_neg, Int.add_right_comm]

theorem child_fallen (p : Pose) : child { p with y := p.y - 1 } = (p.child.1, p.child.2 - 1) := by
  have hcases : p.r % 4 = 0 ∨ p.r % 4 = 1 ∨ p.r % 4 = 2 ∨ p.r % 4 = 3 := by omega
  rcases hcases with h | h | h | h <;> simp [child, h]

theorem exchanged_shifted (p : Pose) (dx : Int) :
    exchanged { p with x := p.x + dx } = { p.exchanged with x := p.exchanged.x + dx } := by
  simp only [exchanged, child_shifted]

theorem exchanged_fallen (p : Pose) :
    exchanged { p with y := p.y - 1 } = { p.exchanged with y := p.exchanged.y - 1 } := by
  simp only [exchanged, child_fallen]

theorem rotation_of_shift? {dx : Int} (h : p.shift? f dx = some q) : q.r = p.r := by
  unfold shift? at h
  rw [Option.ite_none_left_eq_some, ifFits_eq_some_iff] at h
  obtain ⟨_, rfl, _⟩ := h
  rfl

theorem rotation_of_fall? (h : p.fall? f = some q) : q.r = p.r := by
  obtain ⟨rfl, _⟩ := (ifFits_eq_some_iff f _ q).mp h
  rfl

theorem exchanged_mem_of_shift? {dx : Int} (hdx : dx = -1 ∨ dx = 1) (h : p.shift? f dx = some q) :
    q.exchanged ∈ p.exchanged.moves f := by
  unfold shift? at h
  rw [Option.ite_none_left_eq_some, ifFits_eq_some_iff] at h
  obtain ⟨_, rfl, hfits⟩ := h
  rw [← fits_exchanged, exchanged_shifted] at hfits
  rw [exchanged_shifted]
  exact mem_moves_of_shift hdx hfits

theorem exchanged_mem_of_fall? (h : p.fall? f = some q) : q.exchanged ∈ p.exchanged.moves f := by
  unfold fall? at h
  obtain ⟨rfl, hfits⟩ := (ifFits_eq_some_iff f _ q).mp h
  rw [← fits_exchanged, exchanged_fallen] at hfits
  have hfall : p.exchanged.fall? f = some { p.exchanged with y := p.exchanged.y - 1 } :=
    ifFits_of_fits hfits
  rw [exchanged_fallen, mem_moves_iff]
  exact Or.inr (Or.inr (Or.inr (Or.inr hfall)))

/-! ## a turn, and the turn that exchanges its result -/

theorem vertical_of_flip? (h : p.flip? f = some q) : q.r = 0 ∨ q.r = 2 := by
  unfold flip? at h
  split at h
  · obtain ⟨rfl, _⟩ := (ifFits_eq_some_iff f _ q).mp h
    exact Or.inr rfl
  · obtain ⟨rfl, _⟩ := (ifFits_eq_some_iff f _ q).mp h
    exact Or.inl rfl
  · cases h

/-- a horizontal piece comes out of a turn on the one side of the axis, or kicked on the other -/
theorem eq_of_turnTo? {r : Nat} (h : p.turnTo? f r = some q) (hq : q.r = 1 ∨ q.r = 3) :
    (r = 1 ∧ (q = ⟨p.x, p.y, 1⟩ ∨ q = ⟨p.x - 1, p.y, 1⟩)) ∨
      (r = 3 ∧ (q = ⟨p.x, p.y, 3⟩ ∨ q = ⟨p.x + 1, p.y, 3⟩)) := by
  have hflip : p.flip? f ≠ some q := by
    intro e
    have hv := vertical_of_flip? e
    omega
  unfold turnTo? at h
  rw [Option.or_eq_some_iff, ifFits_eq_some_iff] at h
  rcases h with ⟨rfl, _⟩ | ⟨_, h⟩
  · rcases hq with rfl | rfl
    · exact Or.inl ⟨rfl, Or.inl rfl⟩
    · exact Or.inr ⟨rfl, Or.inl rfl⟩
  · split at h
    · rw [Option.or_eq_some_iff, ifFits_eq_some_iff] at h
      rcases h with ⟨rfl, _⟩ | ⟨_, h⟩
      · exact Or.inl ⟨rfl, Or.inr rfl⟩
      · exact absurd h hflip
    · rw [Option.or_eq_some_iff, ifFits_eq_some_iff] at h
      rcases h with ⟨rfl, _⟩ | ⟨_, h⟩
      · exact Or.inr ⟨rfl, Or.inr rfl⟩
      · exact absurd h hflip
    · obtain ⟨rfl, _⟩ := (ifFits_eq_some_iff f _ q).mp h
      dsimp only at hq
      omega
    · cases h

/-- with a free cell on the right, the piece comes to lie there with either cell on the right -/
theorem leads_right_side (hp : p.r % 2 = 0) (h : fits f ⟨p.x, p.y, 1⟩ = true) :
    Leads (moves f) p ⟨p.x, p.y, 1⟩ ∧ Leads (moves f) p ⟨p.x + 1, p.y, 3⟩ := by
  have hr : 1 = (p.r + 1) % 4 ∨ 1 = (p.r + 3) % 4 := by omega
  have hl : 3 = (p.r + 1) % 4 ∨ 3 = (p.r + 3) % 4 := by omega
  have hkicked : fits f ⟨p.x + 1, p.y, 3⟩ = true := by
    rwa [← exchanged_right, fits_exchanged]
  refine ⟨(leads_refl _ _).tail (mem_moves_of_turnTo? (turnTo?_of_fits h) hr), ?_⟩
  by_cases hleft : fits f ⟨p.x, p.y, 3⟩ = true
  · have hturn : (⟨p.x, p.y, 3⟩ : Pose) ∈ p.moves f :=
      mem_moves_of_turnTo? (turnTo?_of_fits hleft) hl
    have hshift : (⟨p.x + 1, p.y, 3⟩ : Pose) ∈ moves f ⟨p.x, p.y, 3⟩ :=
      mem_moves_of_shift (Or.inr rfl) hkicked
    exact ((leads_refl _ _).tail hturn).tail hshift
  · refine (leads_refl _ _).tail (mem_moves_of_turnTo? ?_ hl)
    show (ifFits f ⟨p.x, p.y, 3⟩).or ((ifFits f ⟨p.x + 1, p.y, 3⟩).or (p.flip? f)) = _
    rw [ifFits_of_not_fits hleft, ifFits_of_fits hkicked]
    rfl

/-- the same on the left -/
theorem leads_left_side (hp : p.r % 2 = 0) (h : fits f ⟨p.x, p.y, 3⟩ = true) :
    Leads (moves f) p ⟨p.x, p.y, 3⟩ ∧ Leads (moves f) p ⟨p.x - 1, p.y, 1⟩ := by
  have hr : 1 = (p.r + 1) % 4 ∨ 1 = (p.r + 3) % 4 := by omega
  have hl : 3 = (p.r + 1) % 4 ∨ 3 = (p.r + 3) % 4 := by omega
  have hkicked : fits f ⟨p.x - 1, p.y, 1⟩ = true := by
    rwa [← exchanged_left, fits_exchanged]
  refine ⟨(leads_refl _ _).tail (mem_moves_of_turnTo? (turnTo?_of_fits h) hl), ?_⟩
  by_cases hright : fits f ⟨p.x, p.y, 1⟩ = true
  · have hturn : (⟨p.x, p.y, 1⟩ : Pose) ∈ p.moves f :=
      mem_moves_of_turnTo? (turnTo?_of_fits hright) hr
    have hshift : (⟨p.x - 1, p.y, 1⟩ : Pose) ∈ moves f ⟨p.x, p.y, 1⟩ :=
      mem_moves_of_shift (p := ⟨p.x, p.y, 1⟩) (Or.inl rfl) hkicked
    exact ((leads_refl _ _).tail hturn).tail hshift
  · refine (leads_refl _ _).tail (mem_moves_of_turnTo? ?_ hr)
    show (ifFits f ⟨p.x, p.y, 1⟩).or ((ifFits f ⟨p.x - 1, p.y, 1⟩).or (p.flip? f)) = _
    rw [ifFits_of_not_fits hright, ifFits_of_fits hkicked]
    rfl

theorem leads_exchanged_of_turnTo? {r : Nat} (hr : r = (p.r + 1) % 4 ∨ r = (p.r + 3) % 4)
    (h : p.turnTo? f r = some q) (hq : q.r = 1 ∨ q.r = 3) : Leads (moves f) p q.exchanged := by
  have hfits : q.exchanged.fits f = true := by
    rw [fits_exchanged]
    exact (stands_of_turnTo? (by omega) h).1
  rcases eq_of_turnTo? h hq with ⟨rfl, rfl | rfl⟩ | ⟨rfl, rfl | rfl⟩
  · rw [fits_exchanged] at hfits
    exact (leads_right_side (by omega) hfits).2
  · rw [exchanged_right, Int.sub_add_cancel] at hfits ⊢
    exact (leads_left_side (by omega) hfits).1
  · rw [fits_exchanged] at hfits
    rw [exchanged_left]
    exact (leads_left_side (by omega) hfits).2
  · rw [exchanged_left, Int.add_sub_cancel] at hfits ⊢
    exact (leads_right_side (by omega) hfits).1

/-- where moves bring a horizontal piece, they bring it with its cells exchanged too -/
theorem leads_exchanged (h : Leads (moves f) spawn q) (hq : q.r = 1 ∨ q.r = 3) :
    Leads (moves f) spawn q.exchanged := by
  -- on the last move: a turn makes the exchanged pose too, a shift and a fall carry it along
  induction h with
  | refl => exact absurd hq (by decide)
  | @tail p q hp hm ih =>
    rcases (mem_moves_iff f p q).mp hm with h | h | h | h | h
    · have hr : q.r = p.r := rotation_of_shift? h
      rw [hr] at hq
      exact (ih hq).tail (exchanged_mem_of_shift? (Or.inl rfl) h)
    · have hr : q.r = p.r := rotation_of_shift? h
      rw [hr] at hq
      exact (ih hq).tail (exchanged_mem_of_shift? (Or.inr rfl) h)
    · exact hp.trans (leads_exchanged_of_turnTo? (Or.inl rfl) h hq)
    · exact hp.trans (leads_exchanged_of_turnTo? (Or.inr rfl) h hq)
    · have hr : q.r = p.r := rotation_of_fall? h
      rw [hr] at hq
      exact (ih hq).tail (exchanged_mem_of_fall? h)

end Pose

/-! ## twin decisions -/

namespace Decision

/-- the decision that exchanges the two cells that a piece fills -/
def twin (d : Decision) : Decision := ⟨d.childX, (d.r + 2) % 4⟩

theorem twin_mem_half :
    ∀ d ∈ catalog, d ∉ catalog.take doubleCount → d.r ≠ 2 ∧ d.twin ∈ catalog.take doubleCount := by
  decide

theorem childX_twin {d : Decision} (hv : d.isValid = true) : d.twin.childX = d.axisX := by
  obtain ⟨hx, hr, hc⟩ := (isValid_iff d).mp hv
  have hcases : d.r = 0 ∨ d.r = 1 ∨ d.r = 2 ∨ d.r = 3 := by omega
  obtain ⟨x, r⟩ := d
  dsimp only at hx hcases
  rcases hcases with rfl | rfl | rfl | rfl
  · rfl
  · exact Nat.add_sub_cancel x 1
  · simp [twin, childX, axisX]
  · have e : x - 1 + 1 = x := Nat.sub_add_cancel hx.1
    simp [twin, childX, axisX, e]

theorem isValid_twin {d : Decision} (hv : d.isValid = true) : d.twin.isValid = true := by
  obtain ⟨hx, _, hc⟩ := (isValid_iff d).mp hv
  rw [isValid_iff, childX_twin hv]
  refine ⟨hc, ?_, hx⟩
  show (d.r + 2) % 4 ≤ 3
  omega

end Decision

/-- the poses of the twin are the poses of the decision, exchanged -/
theorem exchanged_eq_twin {d : Decision} (hv : d.isValid = true) (y : Int) :
    Pose.exchanged ⟨d.x, y, d.r⟩ = ⟨d.twin.x, (Pose.child ⟨d.x, y, d.r⟩).2, d.twin.r⟩ := by
  obtain ⟨hx, hr, _⟩ := (Decision.isValid_iff d).mp hv
  have e : ((d.twin.x : Nat) : Int) = (Pose.child ⟨d.x, y, d.r⟩).1 := cast_childX hx.1 hr y
  rw [e]
  rfl

theorem exists_leads_twin {f : Field} {d : Decision} (hv : d.isValid = true) (hr : d.r ≠ 2) {y : Int}
    (h : Leads (Pose.moves f) .spawn ⟨d.x, y, d.r⟩) (hs : Pose.Stands f ⟨d.x, y, d.r⟩) :
    ∃ y', Leads (Pose.moves f) .spawn ⟨d.twin.x, y', d.twin.r⟩ := by
  by_cases h0 : d.r = 0
  · rw [h0] at h hs
    obtain ⟨y', hy⟩ := Pose.leads_below hs.1
    have hx : d.twin.x = d.x := d.childX_of_vertical (Or.inl h0)
    have hr' : d.twin.r = 2 := by
      show (d.r + 2) % 4 = 2
      omega
    rw [hx, hr']
    exact ⟨y', h.trans hy⟩
  · have hside : d.r = 1 ∨ d.r = 3 := by
      have hle : d.r ≤ 3 := hs.2
      omega
    have hex := Pose.leads_exchanged h hside
    rw [exchanged_eq_twin hv] at hex
    exact ⟨_, hex⟩

theorem contains_twin {f : Field} (hf : f.Covered) {d : Decision} (hr : d.r ≠ 2)
    (h : (DecisionSet.reachable f).contains d = true) :
    (DecisionSet.reachable f).contains d.twin = true := by
  have hv : d.isValid = true := DecisionSet.isValid_of_contains h
  rw [contains_reachable_iff hf hv] at h
  obtain ⟨p, hp, rfl⟩ := h
  have hspawn := spawn_fits_of_mem_placements hp
  obtain ⟨y, hy⟩ := (exists_placement_iff f _).mp ⟨p, hp, rfl⟩
  obtain ⟨y', hy'⟩ := exists_leads_twin hv hr ((Pose.mem_reached_iff hspawn _).mp hy)
    (Pose.stands_of_mem_reached hy)
  rw [contains_reachable_iff hf (Decision.isValid_twin hv), exists_placement_iff]
  exact ⟨y', (Pose.mem_reached_iff hspawn _).mpr hy'⟩

/-- a piece of one color locks by a decision and by its twin alike -/
theorem lock?_twin (f : Field) {p : Piece} (hp : p.axis = p.child) {d : Decision}
    (hv : d.isValid = true) : f.lock? d.twin p = f.lock? d p := by
  obtain ⟨_, hr, _⟩ := (Decision.isValid_iff d).mp hv
  have hv' := Decision.isValid_twin hv
  have hc := Decision.childX_twin hv
  have ha : d.twin.axisX = d.childX := rfl
  have ht : d.twin.r = (d.r + 2) % 4 := rfl
  unfold Field.lock?
  rw [hv, hv', hc, ha, hp]
  by_cases h0 : d.r = 0
  · rw [if_neg (by omega : ¬ d.twin.r = 0), if_pos (by omega : d.twin.r = 2), if_pos h0,
      d.childX_of_vertical (Or.inl h0)]
  · rw [if_neg h0]
    by_cases h2 : d.r = 2
    · rw [if_pos (by omega : d.twin.r = 0), if_pos h2, d.childX_of_vertical (Or.inr h2)]
    · have hne : d.childX ≠ d.axisX := Decision.childX_ne_axisX hv (by omega)
      rw [if_neg (by omega : ¬ d.twin.r = 0), if_neg (by omega : ¬ d.twin.r = 2), if_neg h2,
        f.place_comm hne]
      simp only [or_comm]

/-- **Half of the catalog covers all that a piece of one color can do.**  Whatever decision of the
catalog such a piece can be brought to on a field that operations build, one of the eleven that are
tried for it can be reached as well, and locks just as that one does: into the same field, or not at
all. -/
theorem forPiece_covers_double {f : Field} (hf : f.Built) {p : Piece} (hp : p.axis = p.child)
    {d : Decision} (hd : d ∈ Decision.catalog)
    (hr : (DecisionSet.reachable f).contains d = true) :
    (Decision.catalog.length = 22 ∧ (Decision.forPiece p).length = 11) ∧
      ∃ d' ∈ Decision.forPiece p, (DecisionSet.reachable f).contains d' = true ∧
        f.lock? d' p = f.lock? d p := by
  have hhalf : Decision.forPiece p = Decision.catalog.take Decision.doubleCount := by
    have hdouble : p.isDouble = true := beq_iff_eq.mpr hp
    unfold Decision.forPiece
    rw [if_pos hdouble]
  rw [hhalf]
  refine ⟨⟨rfl, rfl⟩, ?_⟩
  by_cases hmem : d ∈ Decision.catalog.take Decision.doubleCount
  · exact ⟨d, hmem, hr, rfl⟩
  · obtain ⟨h2, htwin⟩ := Decision.twin_mem_half d hd hmem
    exact ⟨d.twin, htwin, contains_twin hf.covered h2 hr,
      lock?_twin f hp (Decision.isValid_of_mem_catalog hd)⟩

/-- two columns with room for a piece, between columns that are full -/
def shaftField : Field :=
  Field.empty.run (
    (List.replicate 14 (.stack 1 .garbage) ++ List.replicate 14 (.stack 2 .garbage)) ++
    (List.replicate 10 (.stack 3 .garbage) ++ List.replicate 11 (.stack 4 .garbage)) ++
    (List.replicate 14 (.stack 5 .garbage) ++ List.replicate 14 (.stack 6 .garbage)))

/-- over the uneven bottom of the shaft, the piece with its child on the left locks as the one with
its child on the right -/
theorem forPiece_covers_double_shaftField :
    (shaftField.Built ∧ (⟨4, 3⟩ : Decision) ∈ Decision.catalog ∧
      (⟨4, 3⟩ : Decision) ∉ Decision.forPiece ⟨.red, .red⟩ ∧
      (DecisionSet.reachable shaftField).contains ⟨4, 3⟩ = true) ∧
    ∃ d' ∈ Decision.forPiece ⟨.red, .red⟩,
      (DecisionSet.reachable shaftField).contains d' = true ∧
        shaftField.lock? d' ⟨.red, .red⟩ = shaftField.lock? ⟨4, 3⟩ ⟨.red, .red⟩ := by
  have hf : shaftField.Built := ⟨Field.empty, Or.inl rfl, _, rfl⟩
  have hd : (⟨4, 3⟩ : Decision) ∈ Decision.catalog := by decide
  have hr : (DecisionSet.reachable shaftField).contains ⟨4, 3⟩ = true := by decide +kernel
  exact ⟨⟨hf, hd, by decide, hr⟩, (forPiece_covers_double hf rfl hd hr).2⟩

end PuyoChain
