import PuyoChain.Proofs.Additions.Built
import PuyoChain.Proofs.Field.Chain
import PuyoChain.Proofs.Field.Placing
import PuyoChain.Proofs.Field.Reading

/-!
# Runs of the operations on a field

* `Operation`              one operation that may change a field;
* `Field.apply`, `Field.run`   the field after one operation, and after several;
* `Field.placed`           the puyos that an operation puts on top of columns: none if it fails;
* `Field.runPlaced`        those of a whole run;
* `Field.Initial`          the fields that a run starts from: the empty one and those that are read;
* `Field.Built`            the fields that runs end with.

Every operation keeps a field covered (`Covered.apply`), and exact unless it places an empty cell
(`Exact.apply`); so does every run.  `run_keeps_heights` puts together what that means for the cells,
the border and the believed heights.
-/

namespace PuyoChain

/-- an operation that may change a field -/
inductive Operation where
  | set (x y : Nat) (a : Color)
  | drop
  | vanish (chain : Nat)
  | simulate
  | simulateTracked (t : EraseTrack)
  | lock (d : Decision) (p : Piece)
  | unlock (d : Decision)
  | stack (x : Nat) (a : Color)
  | removeTop (x : Nat)
  | stackAll (l : { l : Additions // l.Built })

namespace Field

/-- the field after an operation; one that fails leaves it as it is -/
def apply (f : Field) : Operation → Field
  | .set x y a => f.set x y a
  | .drop => f.drop.1
  | .vanish chain => (f.vanish chain).1
  | .simulate => f.simulate.1
  | .simulateTracked t => (f.simulateTracked t).1
  | .lock d p => (f.lock? d p).getD f
  | .unlock d => f.unlock d
  | .stack x a => (f.stack? x a).getD f
  | .removeTop x => f.removeTop x
  | .stackAll l => (f.stackAll? l.1).getD f

/-- the puyos that an operation puts on top of columns -/
def placed (f : Field) : Operation → List Addition
  | .lock d p => if (f.lock? d p).isSome then p.additions d else []
  | .stack x a => if (f.stack? x a).isSome then [⟨x, a⟩] else []
  | .stackAll l => if (f.stackAll? l.1).isSome then l.1.entries else []
  | _ => []

def run (f : Field) (ops : List Operation) : Field := ops.foldl apply f

/-- the puyos that the operations of a run put on top of columns -/
def runPlaced : Field → List Operation → List Addition
  | _, [] => []
  | f, op :: ops => f.placed op ++ runPlaced (f.apply op) ops

/-- the fields that a run starts from -/
def Initial (f : Field) : Prop := f = empty ∨ ∃ s, ofText s = .ok f

/-- the fields that operations build -/
def Built (f : Field) : Prop := ∃ start, Initial start ∧ ∃ ops, f = run start ops

/-- row `y` is the topmost row of column `x` that is not empty, 0 if all are -/
def IsTopRow (f : Field) (x y : Nat) : Prop :=
  (y = 0 ∨ (1 ≤ y ∧ y ≤ 14) ∧ f.color x y ≠ .empty) ∧
    ∀ z, y < z → z ≤ 14 → f.color x z = .empty

/-! ## one operation -/

theorem getD_eq_placeAll {f : Field} {o : Option Field} {as : List Addition}
    (h : ∀ g, o = some g → f.Fits as ∧ g = f.placeAll as) :
    f.Fits (if o.isSome then as else []) ∧
      o.getD f = f.placeAll (if o.isSome then as else []) := by
  cases o with
  | none => exact ⟨f.fits_nil, rfl⟩
  | some g => exact h g rfl

theorem apply_lock (f : Field) (d : Decision) (p : Piece) :
    f.Fits (f.placed (.lock d p)) ∧ f.apply (.lock d p) = f.placeAll (f.placed (.lock d p)) :=
  getD_eq_placeAll fun g h => ((lock?_eq_some_iff f g d p).mp h).2

theorem apply_stack (f : Field) (x : Nat) (a : Color) :
    f.Fits (f.placed (.stack x a)) ∧ f.apply (.stack x a) = f.placeAll (f.placed (.stack x a)) :=
  getD_eq_placeAll fun g h => (stack?_eq_some_iff f g x a).mp h

theorem apply_stackAll (f : Field) (l : { l : Additions // l.Built }) :
    f.Fits (f.placed (.stackAll l)) ∧
      f.apply (.stackAll l) = f.placeAll (f.placed (.stackAll l)) :=
  getD_eq_placeAll fun _ h => stackAll?_eq_some l.2.column h

theorem fits_placed (f : Field) (op : Operation) : f.Fits (f.placed op) := by
  cases op with
  | lock d p => exact (f.apply_lock d p).1
  | stack x a => exact (f.apply_stack x a).1
  | stackAll l => exact (f.apply_stackAll l).1
  | set | drop | vanish | simulate | simulateTracked | unlock | removeTop => exact f.fits_nil

theorem Covered.unlock {f : Field} (hf : f.Covered) (d : Decision) : (f.unlock d).Covered := by
  unfold Field.unlock
  split
  · exact (hf.removeTop _).removeTop _
  · exact (hf.removeTop _).removeTop _

theorem Exact.unlock {f : Field} (hf : f.Exact) (d : Decision) : (f.unlock d).Exact := by
  unfold Field.unlock
  split
  · exact (hf.removeTop _).removeTop _
  · exact (hf.removeTop _).removeTop _

theorem exact_apply_simulateTracked (f : Field) (t : EraseTrack) :
    (f.apply (.simulateTracked t)).Exact := by
  show (f.simulateTracked t).1.Exact
  rw [simulateTracked_field]
  exact f.exact_simulate

theorem Covered.apply {f : Field} (hf : f.Covered) (op : Operation) : (f.apply op).Covered := by
  cases op with
  | set x y a => exact Every.of_update hf (f.column?_set x y a) fun _ _ hc => hc.set y a
  | drop => exact f.exact_drop.covered
  | vanish chain => exact covered_vanish hf chain
  | simulate => exact f.exact_simulate.covered
  | simulateTracked t => exact (f.exact_apply_simulateTracked t).covered
  | unlock d => exact hf.unlock d
  | removeTop x => exact hf.removeTop x
  | lock d p =>
    obtain ⟨hfit, ha⟩ := f.apply_lock d p
    rw [ha]
    exact hf.placeAll hfit
  | stack x a =>
    obtain ⟨hfit, ha⟩ := f.apply_stack x a
    rw [ha]
    exact hf.placeAll hfit
  | stackAll l =>
    obtain ⟨hfit, ha⟩ := f.apply_stackAll l
    rw [ha]
    exact hf.placeAll hfit

theorem Exact.apply {f : Field} (hf : f.Exact) (op : Operation)
    (hp : ∀ a ∈ f.placed op, a.color ≠ .empty) : (f.apply op).Exact := by
  cases op with
  | set x y a => exact Every.of_update hf (f.column?_set x y a) fun _ _ hc => hc.set y a
  | drop => exact f.exact_drop
  | vanish chain => exact exact_vanish hf chain
  | simulate => exact f.exact_simulate
  | simulateTracked t => exact f.exact_apply_simulateTracked t
  | unlock d => exact hf.unlock d
  | removeTop x => exact hf.removeTop x
  | lock d p =>
    obtain ⟨hfit, ha⟩ := f.apply_lock d p
    rw [ha]
    exact hf.placeAll hfit hp
  | stack x a =>
    obtain ⟨hfit, ha⟩ := f.apply_stack x a
    rw [ha]
    exact hf.placeAll hfit hp
  | stackAll l =>
    obtain ⟨hfit, ha⟩ := f.apply_stackAll l
    rw [ha]
    exact hf.placeAll hfit hp

/-! ## runs -/

theorem Covered.run {f : Field} (hf : f.Covered) (ops : List Operation) : (f.run ops).Covered := by
  induction ops generalizing f with
  | nil => exact hf
  | cons op ops ih => exact ih (hf.apply op)

theorem Exact.run {f : Field} (hf : f.Exact) (ops : List Operation)
    (hp : ∀ a ∈ f.runPlaced ops, a.color ≠ .empty) : (f.run ops).Exact := by
  induction ops generalizing f with
  | nil => exact hf
  | cons op ops ih =>
    have h1 : (f.apply op).Exact := hf.apply op fun a ha => hp a (List.mem_append_left _ ha)
    exact ih h1 fun a ha => hp a (List.mem_append_right _ ha)

theorem Initial.exact {f : Field} (h : f.Initial) : f.Exact := by
  rcases h with rfl | ⟨s, hs⟩
  · exact exact_empty
  · exact exact_ofText hs

theorem Built.covered {f : Field} (h : f.Built) : f.Covered := by
  obtain ⟨start, hs, ops, rfl⟩ := h
  exact hs.exact.covered.run ops

theorem Exact.isTopRow {f : Field} (hf : f.Exact) {x : Nat} (hx : 1 ≤ x ∧ x ≤ 6) :
    f.IsTopRow x (f.height x) := by
  refine ⟨?_, fun z hz hz' => hf.covered.color_eq_empty hx hz hz'⟩
  obtain ⟨c, hc⟩ := f.exists_column? hx
  have hle := hf.covered.height_le x
  rw [height_of_column? hc] at hle ⊢
  rw [color_of_column? hc]
  by_cases h0 : c.height = 0
  · exact Or.inl h0
  · exact Or.inr ⟨⟨by omega, hle⟩, (hf x c hc).color_ne_empty h0⟩

/-- **Runs keep border, cover and heights.**  Whatever the operations of a run are, all around the
field stays wall, and what writes there changes nothing; every puyo they place lands inside, and no
believed height passes row 14 or hides a puyo; and if they place no empty cell, the believed heights
are the true ones. -/
theorem run_keeps_heights {start : Field} (hs : start.Initial) (ops : List Operation) :
    (∀ x y, x = 0 ∨ x = 7 ∨ y = 0 ∨ y = 15 → (start.run ops).color x y = .wall) ∧
    ((start.run ops).height 0 = 0 ∧ (start.run ops).height 7 = 0) ∧
    (∀ x y, ¬ ((1 ≤ x ∧ x ≤ 6) ∧ 1 ≤ y ∧ y ≤ 14) →
      ∀ a, (start.run ops).set x y a = start.run ops) ∧
    (∀ x, ¬ (1 ≤ x ∧ x ≤ 6) → (∀ a, (start.run ops).stack? x a = none) ∧
      (start.run ops).removeTop x = start.run ops) ∧
    (∀ before op after, ops = before ++ op :: after →
      (start.run before).Fits ((start.run before).placed op)) ∧
    (∀ x, (start.run ops).height x ≤ 14) ∧
    (∀ x y, 1 ≤ x ∧ x ≤ 6 → (start.run ops).height x < y → y ≤ 14 →
      (start.run ops).color x y = .empty) ∧
    ((∀ a ∈ start.runPlaced ops, a.color ≠ .empty) →
      ∀ x, 1 ≤ x ∧ x ≤ 6 → (start.run ops).IsTopRow x ((start.run ops).height x)) := by
  have hcov := hs.exact.covered.run ops
  refine ⟨fun x y h => ?_, ⟨?_, ?_⟩, fun x y => set_of_not_inField,
    fun x h => ⟨stack?_of_not_column h, removeTop_of_not_column h⟩, fun before op after _ => ?_,
    hcov.height_le, fun x y => ?_, fun hp x hx => ?_⟩
  · rcases h with rfl | rfl | rfl | rfl
    · exact color_of_not_column (by omega)
    · exact color_of_not_column (by omega)
    · exact color_of_not_row (by omega)
    · exact color_of_not_row (by omega)
  · exact height_of_not_column (by omega)
  · exact height_of_not_column (by omega)
  · exact fits_placed _ op
  · exact hcov.color_eq_empty
  · exact (hs.exact.run ops hp).isTopRow hx

/-- a piece locks on a red puyo that hangs in the air; then all falls and the axis comes off -/
theorem run_keeps_heights_over_gap :
    Field.empty.Initial ∧
      (∀ a ∈ Field.empty.runPlaced [.set 2 5 .red, .lock ⟨2, 0⟩ ⟨.blue, .garbage⟩, .drop,
        .removeTop 2], a.color ≠ .empty) ∧
      (Field.empty.run [.set 2 5 .red, .lock ⟨2, 0⟩ ⟨.blue, .garbage⟩, .drop,
        .removeTop 2]).height 2 = 2 ∧
      (Field.empty.run [.set 2 5 .red, .lock ⟨2, 0⟩ ⟨.blue, .garbage⟩, .drop,
        .removeTop 2]).IsTopRow 2 2 := by
  have hs : Field.empty.Initial := Or.inl rfl
  have hp : ∀ a ∈ Field.empty.runPlaced [.set 2 5 .red, .lock ⟨2, 0⟩ ⟨.blue, .garbage⟩, .drop,
      .removeTop 2], a.color ≠ .empty := by decide +kernel
  have hh : (Field.empty.run [.set 2 5 .red, .lock ⟨2, 0⟩ ⟨.blue, .garbage⟩, .drop,
      .removeTop 2]).height 2 = 2 := by decide +kernel
  obtain ⟨_, _, _, _, _, _, _, h⟩ := run_keeps_heights hs [.set 2 5 .red,
    .lock ⟨2, 0⟩ ⟨.blue, .garbage⟩, .drop, .removeTop 2]
  refine ⟨hs, hp, hh, ?_⟩
  have htop := h hp 2 (by omega)
  rwa [hh] at htop

end Field

end PuyoChain
