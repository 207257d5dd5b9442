import PuyoChain.Proofs.Field.Placing

/-!
# Taking a locked piece off again

* `unlock_lock?`        `unlock` undoes `lock?`;
* `unlock_drop_lock?`   where everything has fallen in between, it leaves what the field before the
                        piece is after falling.

Both are one statement about a change `D` of single columns that lets the topmost puyo be taken off
(`Maps.unlock`): nothing happens to the columns, or each of them settles.
-/

namespace PuyoChain

namespace Field

/-- the columns of `g` are those of `f`, each changed by `D` -/
def Maps (D : Column → Column) (f g : Field) : Prop :=
  ∀ z, g.column? z = (f.column? z).map D

theorem Maps.unique {D : Column → Column} {f g g' : Field} (h : Maps D f g) (h' : Maps D f g') :
    g = g' :=
  ext_column? fun z => (h z).trans (h' z).symm

theorem maps_id (f : Field) : Maps id f f := by
  intro z
  rw [Option.map_id_fun, id_eq]

theorem maps_drop (f : Field) : Maps (fun c => c.drop.1) f f.drop.1 := f.column?_drop

theorem removeTop_comm (f : Field) (x y : Nat) :
    (f.removeTop x).removeTop y = (f.removeTop y).removeTop x := by
  refine ext_column? fun z => ?_
  simp only [column?_removeTop]
  by_cases hx : z = x
  · rw [if_pos hx, if_pos hx]
    by_cases hy : z = y
    · rw [if_pos hy, if_pos hy]
    · rw [if_neg hy, if_neg hy]
  · rw [if_neg hx, if_neg hx]

/-- the two cells come off in the order opposite to the one in which they were put on -/
theorem unlock_eq (f : Field) (d : Decision) :
    f.unlock d = (f.removeTop d.childX).removeTop d.axisX := by
  unfold unlock
  by_cases h : d.isVertical = true
  · rw [if_pos h, d.childX_of_vertical (d.isVertical_iff.mp h)]
  · rw [if_neg h, removeTop_comm]

section
variable {D : Column → Column}
  (hD : ∀ c : Column, c.Exact → c.height < 14 → ∀ a, a ≠ .empty → (D (c.stack a)).pop = D c)
include hD

theorem Maps.removeTop {f g : Field} (hf : f.Exact) {x : Nat} (hx : f.height x < 14) {a : Color}
    (ha : a ≠ .empty) (h : Maps D (f.place x a) g) : Maps D f (g.removeTop x) := by
  intro z
  rw [column?_removeTop, h z, column?_place]
  by_cases e : z = x
  · rw [if_pos e, if_pos e]
    cases hc : f.column? z with
    | none => rfl
    | some c =>
      rw [← e, height_of_column? hc] at hx
      exact congrArg some (hD c (hf z c hc) hx a ha)
  · rw [if_neg e, if_neg e]

theorem Maps.unlock {f g h : Field} (hf : f.Exact) {d : Decision} {p : Piece} (hp : p.Solid)
    (hl : f.lock? d p = some g) (hm : Maps D g h) : Maps D f (h.unlock d) := by
  obtain ⟨_, hr, _, hr', rfl⟩ := lock?_inv hl
  obtain ⟨hlower, hupper⟩ := hp.colors d
  rw [unlock_eq]
  exact (hm.removeTop hD (hf.place hr hlower) hr' hupper).removeTop hD hf hr hlower

end

/-- `unlock` undoes `lock?` -/
theorem unlock_lock? {f g : Field} (hf : f.Exact) {d : Decision} {p : Piece} (hp : p.Solid)
    (h : f.lock? d p = some g) : g.unlock d = f := by
  have hm : Maps id f (g.unlock d) :=
    Maps.unlock (D := id) (fun _ hc hh a _ => hc.pop_stack hh a) hf hp h g.maps_id
  exact hm.unique f.maps_id

/-- where everything has fallen in between, what is left is the field before the piece, fallen -/
theorem unlock_drop_lock? {f g : Field} (hf : f.Exact) {d : Decision} {p : Piece} (hp : p.Solid)
    (h : f.lock? d p = some g) : g.drop.1.unlock d = f.drop.1 := by
  have hm : Maps (fun c => c.drop.1) f (g.drop.1.unlock d) :=
    Maps.unlock (D := fun c => c.drop.1) (fun _ hc hh _ ha => hc.pop_drop_stack hh ha) hf hp h
      g.maps_drop
  exact hm.unique f.maps_drop

end Field

end PuyoChain
