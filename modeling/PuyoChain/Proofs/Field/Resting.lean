import PuyoChain.Proofs.Field.Landing
import PuyoChain.Proofs.Field.Locking
import PuyoChain.Proofs.Field.Operations

/-!
# Where a locked piece comes to rest

* `countPuyos_lock?`      a locked piece is two more puyos;
* `Field.lockInPlace`     locking as a program that changes the field puyo by puyo;
* `run_lockInPlace`       it changes nothing unless it succeeds, and then does what `lock?` does;
* `Field.axisRest`, `Field.childRest`   the cells on top of the columns that the piece fills;
* `isSome_lock?_iff`      the decisions for which there is room;
* `lock?_fills_rests`     a locked piece fills just the two cells, and comes off without a trace.
-/

namespace PuyoChain

/-! ## counting puyos -/

theorem countP_flatMap_set {α β : Type} {p : β → Bool} {g : α → List β} {l : List α} {i n : Nat}
    {a : α} (hi : i < l.length) (h : (g a).countP p = (g l[i]).countP p + n) :
    ((l.set i a).flatMap g).countP p = (l.flatMap g).countP p + n := by
  have hl : l = l.take i ++ l[i] :: l.drop (i + 1) := by simp
  rw [List.set_eq_take_append_cons_drop, if_pos hi]
  conv_rhs => rw [hl]
  simp only [List.flatMap_append, List.flatMap_cons, List.countP_append, h]
  omega

theorem Column.countP_stack {c : Column} (h : c.height < 14)
    (he : c.color (c.height + 1) = .empty) {a : Color} (ha : a ≠ .empty) :
    (c.stack a).cells.toList.countP (· != .empty) = c.cells.toList.countP (· != .empty) + 1 := by
  unfold Column.color at he
  rw [dif_pos ⟨by omega, by omega⟩] at he
  have hset : (c.stack a).cells = c.cells.set c.height a := by
    unfold Column.stack Column.put
    rw [dif_pos ⟨by omega, by omega⟩]
    rfl
  rw [hset, Vector.toList_set, List.countP_set (by simpa using h)]
  simp_all

namespace Field

/-- a puyo on top of a column is one more -/
theorem countPuyos_place {f : Field} (hf : f.Covered) {x : Nat} (hx : 1 ≤ x ∧ x ≤ 6)
    (h : f.height x < 14) {a : Color} (ha : a ≠ .empty) :
    (f.place x a).countPuyos = f.countPuyos + 1 := by
  have he := hf.color_above_height hx h
  unfold color at he
  unfold height at h he
  simp only [dif_pos hx] at h he
  unfold countPuyos colors place modify
  rw [dif_pos hx, Vector.toList_set]
  refine countP_flatMap_set (by simp; omega) ?_
  rw [Vector.getElem_toList]
  exact Column.countP_stack h he ha

theorem countPuyos_placeAll {f : Field} (hf : f.Covered) {as : List Addition} (h : f.Fits as)
    (ha : ∀ a ∈ as, a.color ≠ .empty) :
    (f.placeAll as).countPuyos = f.countPuyos + as.length := by
  induction as generalizing f with
  | nil => rfl
  | cons a as ih =>
    obtain ⟨hne, has⟩ := List.forall_mem_cons.mp ha
    have hone := countPuyos_place hf h.1 h.2.1 hne
    have hrest := ih (hf.place h.2.1 a.color) h.2.2 has
    show ((f.place a.x a.color).placeAll as).countPuyos = _
    rw [hrest, hone, List.length_cons]
    omega

/-- a piece is two puyos more -/
theorem countPuyos_lock? {f g : Field} (hf : f.Covered) {d : Decision} {p : Piece} (hp : p.Solid)
    (h : f.lock? d p = some g) : g.countPuyos = f.countPuyos + 2 := by
  obtain ⟨_, hfit, rfl⟩ := (lock?_eq_some_iff f g d p).mp h
  exact countPuyos_placeAll hf hfit (hp.additions d)

/-! ## locking in place -/

/-- `place` as a change of the field in place -/
def putOn (x : Nat) (a : Color) : StateM Field Unit := fun f => ((), f.place x a)

/-- locking as a program that changes the field one puyo after the other, and answers whether it
succeeds -/
def lockInPlace (d : Decision) (p : Piece) : StateM Field Bool := do
  if !d.isValid then return false
  let f ← get
  if d.r = 0 then
    if f.height d.axisX + 2 > 14 then return false
    putOn d.axisX p.axis
    putOn d.axisX p.child
  else if d.r = 2 then
    if f.height d.axisX + 2 > 14 then return false
    putOn d.axisX p.child
    putOn d.axisX p.axis
  else
    if f.height d.axisX ≥ 14 ∨ f.height d.childX ≥ 14 then return false
    putOn d.axisX p.axis
    putOn d.childX p.child
  return true

/-- two puyos put in place, where there is room for both -/
theorem run_ite_putOn (f : Field) {full : Prop} [Decidable full] (x y : Nat) (a b : Color) :
    (if full then pure false else do
      putOn x a
      putOn y b
      return true : StateM Field Bool).run f =
      ((if full then none else some ((f.place x a).place y b)).isSome,
        (if full then none else some ((f.place x a).place y b)).getD f) := by
  by_cases h : full
  · rw [if_pos h, if_pos h]
    rfl
  · rw [if_neg h, if_neg h]
    rfl

/-- no puyo is put before there is room for both: the program changes nothing unless it succeeds -/
theorem run_lockInPlace (f : Field) (d : Decision) (p : Piece) :
    (lockInPlace d p).run f = ((f.lock? d p).isSome, (f.lock? d p).getD f) := by
  have hget : ∀ k : Field → StateM Field Bool, (get >>= k).run f = (k f).run f := fun _ => rfl
  unfold lockInPlace lock?
  cases hv : d.isValid with
  | false => rfl
  | true =>
    rw [if_neg (by decide), if_neg (by decide), hget]
    dsimp only
    by_cases h0 : d.r = 0
    · rw [if_pos h0, if_pos h0]
      exact f.run_ite_putOn ..
    · rw [if_neg h0, if_neg h0]
      by_cases h2 : d.r = 2
      · rw [if_pos h2, if_pos h2]
        exact f.run_ite_putOn ..
      · rw [if_neg h2, if_neg h2]
        exact f.run_ite_putOn ..

/-! ## the two cells -/

/-- the cell on top of its column that the axis of a piece fills, above the child or not -/
def axisRest (f : Field) (d : Decision) : Cell :=
  ⟨d.axisX, if d.r = 2 then f.height d.axisX + 2 else f.height d.axisX + 1⟩

/-- the cell on top of its column that the child of a piece fills, above the axis or not -/
def childRest (f : Field) (d : Decision) : Cell :=
  ⟨d.childX, if d.r = 0 then f.height d.childX + 2 else f.height d.childX + 1⟩

/-- with the child below the axis, the child comes to rest first -/
def rests (f : Field) (d : Decision) : List Cell :=
  if d.r = 2 then [f.childRest d, f.axisRest d] else [f.axisRest d, f.childRest d]

theorem mem_rests_iff (f : Field) (d : Decision) (q : Cell) :
    q ∈ f.rests d ↔ q = f.axisRest d ∨ q = f.childRest d := by
  unfold rests
  by_cases h2 : d.r = 2
  · simp [h2, or_comm]
  · simp [h2]

theorem landings_additions (f : Field) {d : Decision} (hv : d.isValid = true) (p : Piece) :
    f.landings (p.additions d) = f.rests d := by
  obtain ⟨hx, hr, _⟩ := (Decision.isValid_iff d).mp hv
  have hh := height_place f (x := d.axisX) hx (p.lower d) d.childX
  show [Cell.mk d.axisX (f.height d.axisX + 1),
    ⟨d.childX, (f.place d.axisX (p.lower d)).height d.childX + 1⟩] = _
  rw [hh]
  unfold rests axisRest childRest
  by_cases h2 : d.r = 2
  · simp [h2, d.childX_of_vertical (Or.inr h2)]
  · by_cases h0 : d.r = 0
    · simp [h0, d.childX_of_vertical (Or.inl h0)]
    · simp [h0, h2, Decision.childX_ne_axisX hv (by omega)]

theorem axisRest_ne_childRest (f : Field) {d : Decision} (hv : d.isValid = true) :
    f.axisRest d ≠ f.childRest d := by
  unfold axisRest childRest
  rw [ne_eq, Cell.mk.injEq, not_and]
  intro hx
  by_cases h : d.r = 0 ∨ d.r = 2
  · rw [d.childX_of_vertical h]
    rcases h with h | h
    · simp [h]
    · simp [h]
  · exact absurd hx.symm (Decision.childX_ne_axisX hv h)

theorem colorAt_rests {f g : Field} {d : Decision} {p : Piece} (h : f.lock? d p = some g) :
    g.colorAt (f.axisRest d) = p.axis ∧ g.colorAt (f.childRest d) = p.child := by
  obtain ⟨hv, hfit, rfl⟩ := (lock?_eq_some_iff f _ d p).mp h
  have hcolors : (f.rests d).map (f.placeAll (p.additions d)).colorAt = [p.lower d, p.upper d] := by
    rw [← f.landings_additions hv p]
    exact map_colorAt_landings hfit
  unfold rests at hcolors
  by_cases h2 : d.r = 2
  · have hlower : p.lower d = p.child := if_pos h2
    have hupper : p.upper d = p.axis := if_pos h2
    rw [if_pos h2, hlower, hupper, List.map_cons, List.map_singleton, List.cons.injEq,
      List.singleton_inj] at hcolors
    exact hcolors.symm
  · have hlower : p.lower d = p.axis := if_neg h2
    have hupper : p.upper d = p.child := if_neg h2
    rw [if_neg h2, hlower, hupper, List.map_cons, List.map_singleton, List.cons.injEq,
      List.singleton_inj] at hcolors
    exact hcolors

theorem isSome_lock?_iff (f : Field) (d : Decision) (p : Piece) :
    (f.lock? d p).isSome = true ↔ d.isValid = true ∧
      (d.r = 0 ∨ d.r = 2 → f.height d.axisX + 2 ≤ 14) ∧
      (d.r = 1 ∨ d.r = 3 → f.height d.axisX ≤ 13 ∧ f.height d.childX ≤ 13) := by
  cases hv : d.isValid with
  | false => simp [lock?_of_not_valid hv]
  | true =>
    obtain ⟨_, hr, _⟩ := (Decision.isValid_iff d).mp hv
    have hcases : d.r = 0 ∨ d.r = 2 ∨ d.r = 1 ∨ d.r = 3 := by omega
    unfold lock?
    rcases hcases with h | h | h | h
    · simp [hv, h]
    · simp [hv, h]
    · simp [hv, h]
      omega
    · simp [hv, h]
      omega

/-- **A piece fills the two cells on top of its columns, or changes nothing.**  On every field whose
believed heights are the true ones, puyos that hang in the air included, locking succeeds just if
the decision is valid and there is room for both puyos.  Where it fails, not even one of them has
been put.  Where it succeeds, just the two cells change that lie on top of the columns, from empty
to the colors of the piece, and taking the piece off again gives the field back. -/
theorem lock?_fills_rests {f : Field} (hf : f.Exact) (d : Decision) {p : Piece} (hp : p.Solid) :
    ((f.lock? d p).isSome = true ↔ d.isValid = true ∧
      (d.r = 0 ∨ d.r = 2 → f.height d.axisX + 2 ≤ 14) ∧
      (d.r = 1 ∨ d.r = 3 → f.height d.axisX ≤ 13 ∧ f.height d.childX ≤ 13)) ∧
    (f.lock? d p = none → (lockInPlace d p).run f = (false, f)) ∧
    ∀ g, f.lock? d p = some g →
      (lockInPlace d p).run f = (true, g) ∧
      ((f.axisRest d).inField = true ∧ (f.childRest d).inField = true) ∧
      f.axisRest d ≠ f.childRest d ∧
      (∀ q, g.colorAt q ≠ f.colorAt q ↔ q = f.axisRest d ∨ q = f.childRest d) ∧
      (f.colorAt (f.axisRest d) = .empty ∧ f.colorAt (f.childRest d) = .empty) ∧
      (g.colorAt (f.axisRest d) = p.axis ∧ g.colorAt (f.childRest d) = p.child) ∧
      g.Exact ∧ g.unlock d = f := by
  have hrun := f.run_lockInPlace d p
  refine ⟨f.isSome_lock?_iff d p, fun h => ?_, fun g h => ?_⟩
  · rw [hrun, h]
    rfl
  · obtain ⟨hv, hfit, hg⟩ := (lock?_eq_some_iff f g d p).mp h
    have hland := f.landings_additions hv p
    have hempty : ∀ q ∈ f.rests d, f.colorAt q = .empty :=
      fun q hq => hf.covered.colorAt_of_mem_landings hfit (hland ▸ hq)
    have haxis := hempty _ ((f.mem_rests_iff d _).mpr (Or.inl rfl))
    have hchild := hempty _ ((f.mem_rests_iff d _).mpr (Or.inr rfl))
    have hchanged := hf.covered.colorAt_placeAll_ne_iff hfit (hp.additions d)
    refine ⟨?_, ⟨?_, ?_⟩, f.axisRest_ne_childRest hv, fun q => ?_, ⟨haxis, hchild⟩,
      colorAt_rests h, hf.lock? hp h, unlock_lock? hf hp h⟩
    · rw [hrun, h]
      rfl
    · exact inField_of_color_ne_wall (by rw [haxis]; decide)
    · exact inField_of_color_ne_wall (by rw [hchild]; decide)
    · rw [hg, hchanged, hland, mem_rests_iff]

/-- a puyo hangs in row 12 of column 2, and one in row 13 of column 3 -/
def hangingPuyos : Field := Field.empty.run [.set 2 12 .garbage, .set 3 13 .blue]

/-- the child comes to rest in row 13 and the axis in row 14, and column 3 has room for one puyo
only -/
theorem lock?_fills_rests_hangingPuyos :
    hangingPuyos.Exact ∧ (⟨.green, .red⟩ : Piece).Solid ∧
      (∃ g, hangingPuyos.lock? ⟨2, 2⟩ ⟨.green, .red⟩ = some g ∧
        g.colorAt ⟨2, 13⟩ = .red ∧ g.colorAt ⟨2, 14⟩ = .green ∧
        g.unlock ⟨2, 2⟩ = hangingPuyos) ∧
      (lockInPlace ⟨3, 0⟩ ⟨.green, .red⟩).run hangingPuyos = (false, hangingPuyos) := by
  have hf : hangingPuyos.Exact := by decide +kernel
  have hp : (⟨.green, .red⟩ : Piece).Solid := by decide
  obtain ⟨hiff, _, hsome⟩ := lock?_fills_rests hf ⟨2, 2⟩ hp
  obtain ⟨_, hnone, _⟩ := lock?_fills_rests hf ⟨3, 0⟩ hp
  obtain ⟨g, hg⟩ := Option.isSome_iff_exists.mp (hiff.mpr (by decide +kernel))
  obtain ⟨_, _, _, _, _, ⟨haxis, hchild⟩, _, hback⟩ := hsome g hg
  have hrow : hangingPuyos.height 2 + 2 = 14 := by decide +kernel
  have haxis' : hangingPuyos.axisRest ⟨2, 2⟩ = ⟨2, 14⟩ := congrArg (Cell.mk 2) hrow
  have hchild' : hangingPuyos.childRest ⟨2, 2⟩ = ⟨2, 13⟩ := congrArg (Cell.mk 2) (Nat.succ.inj hrow)
  rw [haxis'] at haxis
  rw [hchild'] at hchild
  exact ⟨hf, hp, ⟨g, hg, hchild, haxis, hback⟩, hnone (by decide +kernel)⟩

end Field

end PuyoChain
