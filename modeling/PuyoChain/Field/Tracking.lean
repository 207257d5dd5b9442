import PuyoChain.EraseTrack
import PuyoChain.Field.Cascade

/-!
# Tracking a chain

While a chain runs, every cell carries the row in which its puyo was before the chain.

* `StartRows`               these rows, 0 for an empty cell;
* `StartRows.drop`          they move with the puyos (`settle` on pairs of a color and a row);
* `StartRows.mark`          notes the step in which the puyos of some cells vanish;
* `Field.simulateTracked`   the whole chain as `Field.simulate` runs it, with a track.
-/

namespace PuyoChain

/-- for each cell of the field the row in which its puyo was before the chain, 0 for none -/
structure StartRows where
  rows : Vector (Vector Nat 14) 6
  deriving DecidableEq

namespace StartRows

def get (o : StartRows) (p : Cell) : Nat :=
  if h : (1 ≤ p.x ∧ p.x ≤ 6) ∧ 1 ≤ p.y ∧ p.y ≤ 14 then o.rows[p.x - 1][p.y - 1] else 0

/-- every puyo of a field is where it starts -/
def ofField (f : Field) : StartRows :=
  ⟨Vector.ofFn fun i => Vector.ofFn fun j =>
    if (f.columns.get i).cells.get j = .empty then 0 else j + 1⟩

/-- the rows without those of the cells of a list -/
def clear (o : StartRows) (doomed : List Cell) : StartRows :=
  ⟨Vector.ofFn fun i => Vector.ofFn fun j =>
    if (⟨i + 1, j + 1⟩ : Cell) ∈ doomed then 0 else (o.rows.get i).get j⟩

/-- the rows of one column after its puyos have settled -/
def dropColumn (c : Column) (rows : Vector Nat 14) : Vector Nat 14 :=
  let s := settle (Color.empty, 0) (fun e => e.1 == .empty) 0
    ((c.cells.toList.zip rows.toList).take 13)
  ⟨(s.1.map Prod.snd ++ rows.toList.drop 13).toArray, by simp [s, settle_length]⟩

/-- the rows after the puyos of a field have settled -/
def drop (o : StartRows) (f : Field) : StartRows :=
  ⟨Vector.ofFn fun i => dropColumn (f.columns.get i) (o.rows.get i)⟩

/-- the track with step `chain` noted for the puyos in the cells of a list -/
def mark (o : StartRows) (chain : Nat) (doomed : List Cell) (t : EraseTrack) : EraseTrack :=
  doomed.foldl (fun t p => if o.get p = 0 then t else t.set p.x (o.get p) chain) t

theorem get_ofField (f : Field) (p : Cell) (h : p.inField = true) :
    (ofField f).get p = if f.colorAt p = .empty then 0 else p.y := by
  rw [Cell.inField_iff] at h
  unfold get Field.colorAt Field.color Column.color
  rw [dif_pos h, dif_pos h.1, dif_pos h.2]
  have e : p.y - 1 + 1 = p.y := by omega
  simp [ofField, get_eq_getElem, e]

theorem get_clear (o : StartRows) (doomed : List Cell) (p : Cell) (h : p.inField = true) :
    (o.clear doomed).get p = if p ∈ doomed then 0 else o.get p := by
  rw [Cell.inField_iff] at h
  unfold get
  rw [dif_pos h, dif_pos h]
  have ex : p.x - 1 + 1 = p.x := by omega
  have ey : p.y - 1 + 1 = p.y := by omega
  simp [clear, get_eq_getElem, ex, ey]

theorem ext_get {o o' : StartRows}
    (h : ∀ p, p.inField = true → o.get p = o'.get p) : o = o' := by
  obtain ⟨rows⟩ := o
  obtain ⟨rows'⟩ := o'
  congr 1
  refine Vector.ext fun i hi => Vector.ext fun j hj => ?_
  have hp : (1 ≤ i + 1 ∧ i + 1 ≤ 6) ∧ 1 ≤ j + 1 ∧ j + 1 ≤ 14 := by omega
  have hget := h ⟨i + 1, j + 1⟩ ((Cell.inField_iff _).mpr hp)
  unfold get at hget
  rwa [dif_pos hp, dif_pos hp] at hget

end StartRows

namespace Field

/-- at most `fuel` further steps of a chain, after the outcome `r` and the track `t` so far -/
def cascadeTracked :
    Nat → Field → StartRows → ChainResult → EraseTrack → Field × ChainResult × EraseTrack
  | 0, f, _, r, t => (f, r, t)
  | fuel + 1, f, o, r, t =>
    match f.vanish? (r.chains + 1) with
    | none => (f, r, t)
    | some v =>
      let fallen := v.field.drop
      cascadeTracked fuel fallen.1 ((o.clear v.doomed).drop v.field)
        (r.afterStep v.score fallen.2) (o.mark (r.chains + 1) v.doomed t)

/-- the field after its chain, the outcome, and the track with the steps of the chain noted -/
def simulateTracked (f : Field) (t : EraseTrack) : Field × ChainResult × EraseTrack :=
  cascadeTracked stepBound f.drop.1 ((StartRows.ofField f).drop f) .zero t

end Field

end PuyoChain
