import PuyoChain.Field.Tracking
import PuyoChain.Proofs.Field.Columns

/-!
# Puyos and the rows where they start

* `Field.filledRows`   the rows 1 to 13 of a column that are not empty, from the floor;
* `Field.traced`       the puyos of these rows, each with the row where it starts.

Gravity changes nothing of what is traced in a column (`traced_drop`), and emptying cells leaves the
rest as it is (`traced_clear`).  Where two fields have the same puyos in every column and the same
row 14, they fall to the same field (`drop_congr`).
-/

namespace PuyoChain

/-! ## stacks of pairs -/

theorem map_fst_settle {α β : Type} (blank : α × β) (isBlank : α → Bool) (gap : Nat)
    (l : List (α × β)) : (settle blank (fun e => isBlank e.1) gap l).1.map Prod.fst =
      (settle blank.1 isBlank gap (l.map Prod.fst)).1 := by
  rw [settle_entries, settle_entries, List.map_append, List.map_replicate, List.filter_map,
    List.countP_map]
  rfl

theorem zip_map_fst_snd {α β : Type} (l : List (α × β)) :
    (l.map Prod.fst).zip (l.map Prod.snd) = l := by
  rw [List.zip_map', List.map_id']

theorem filter_settle {α : Type} {blank : α} (isBlank : α → Bool) (h : isBlank blank = true)
    (gap : Nat) (l : List α) : (settle blank isBlank gap l).1.filter (fun a => !isBlank a) =
      l.filter fun a => !isBlank a := by
  rw [settle_entries, List.filter_append, List.filter_filter, List.filter_replicate, h]
  simp

namespace Field

variable {f g : Field} {o : StartRows} {x : Nat}

/-- the rows 1 to 13 of column `x` that are not empty, from the floor -/
def filledRows (f : Field) (x : Nat) : List Nat :=
  (rowsUpTo 13).filter fun y => f.color x y != .empty

/-- the puyos in rows 1 to 13 of column `x`, from the floor, each with the row where it starts -/
def traced (f : Field) (o : StartRows) (x : Nat) : List (Color × Nat) :=
  (f.filledRows x).map fun y => (f.color x y, o.get ⟨x, y⟩)

theorem mem_filledRows_iff (f : Field) (x y : Nat) :
    y ∈ f.filledRows x ↔ (1 ≤ y ∧ y ≤ 13) ∧ f.color x y ≠ .empty := by
  rw [filledRows, List.mem_filter, mem_rowsUpTo_iff, bne_iff_ne]

theorem nodup_filledRows (f : Field) (x : Nat) : (f.filledRows x).Nodup := by
  have hrows : (rowsUpTo 13).Nodup := by decide
  exact hrows.sublist List.filter_sublist

/-! ## gravity -/

/-- the rows 1 to 13 of column `x`, empty ones included -/
def entries (f : Field) (o : StartRows) (x : Nat) : List (Color × Nat) :=
  (rowsUpTo 13).map fun y => (f.color x y, o.get ⟨x, y⟩)

theorem traced_eq_filter (f : Field) (o : StartRows) (x : Nat) :
    f.traced o x = (f.entries o x).filter fun e => !(e.1 == .empty) := by
  rw [entries, List.filter_map]
  rfl

theorem entries_eq_zip (f : Field) (o : StartRows) (i : Fin 6) : f.entries o (i + 1) =
    ((f.columns.get i).cells.toList.zip (o.rows.get i).toList).take 13 := by
  have hx : 1 ≤ i.val + 1 ∧ i.val + 1 ≤ 6 := by omega
  refine List.ext_getElem (by simp [entries, rowsUpTo]) fun j h _ => ?_
  have hj : j < 13 := by simpa [entries, rowsUpTo] using h
  have hcolor : f.color (i + 1) (j + 1) = (f.columns.get i).cells[j] := by
    unfold color Column.color
    rw [dif_pos hx, dif_pos (by omega)]
    rfl
  have hget : o.get ⟨i + 1, j + 1⟩ = (o.rows.get i)[j] := by
    unfold StartRows.get
    rw [dif_pos ⟨hx, by dsimp only; omega⟩]
    rfl
  simp [entries, rowsUpTo, hcolor, hget]

theorem zip_drop (c : Column) (rows : Vector Nat 14) :
    (c.drop.1.cells.toList.zip (StartRows.dropColumn c rows).toList).take 13 =
      (settle (Color.empty, 0) (fun e => e.1 == .empty) 0
        ((c.cells.toList.zip rows.toList).take 13)).1 := by
  obtain ⟨s, hs⟩ : ∃ s, s = (settle (Color.empty, 0) (fun e => e.1 == .empty) 0
    ((c.cells.toList.zip rows.toList).take 13)).1 := ⟨_, rfl⟩
  have hlen : s.length = 13 := by
    rw [hs, settle_length]
    simp
  have hcells : c.drop.1.cells.toList = s.map Prod.fst ++ c.cells.toList.drop 13 := by
    rw [hs, map_fst_settle (Color.empty, 0) (· == .empty), List.map_take, List.map_fst_zip (by simp)]
    rfl
  have hrows : (StartRows.dropColumn c rows).toList = s.map Prod.snd ++ rows.toList.drop 13 := by
    rw [hs]
    rfl
  rw [← hs, hcells, hrows, List.zip_append (by simp), zip_map_fst_snd, List.take_left' hlen]

theorem entries_drop (hx : 1 ≤ x ∧ x ≤ 6) (f : Field) (o : StartRows) :
    f.drop.1.entries (o.drop f) x =
      (settle (Color.empty, 0) (fun e => e.1 == .empty) 0 (f.entries o x)).1 := by
  obtain ⟨i, rfl⟩ : ∃ i : Fin 6, x = i + 1 := ⟨⟨x - 1, by omega⟩, (Nat.sub_add_cancel hx.1).symm⟩
  rw [entries_eq_zip, entries_eq_zip, ← zip_drop]
  simp [drop, StartRows.drop, settledColumns, get_eq_getElem]

theorem traced_drop (hx : 1 ≤ x ∧ x ≤ 6) (f : Field) (o : StartRows) :
    f.drop.1.traced (o.drop f) x = f.traced o x := by
  rw [traced_eq_filter, traced_eq_filter, entries_drop hx]
  exact filter_settle (fun e : Color × Nat => e.1 == .empty) rfl 0 _

/-- the colors of the puyos of a column stay, in their order -/
theorem map_color_drop (hx : 1 ≤ x ∧ x ≤ 6) (f : Field) :
    (f.drop.1.filledRows x).map (f.drop.1.color x) = (f.filledRows x).map (f.color x) := by
  have h := congrArg (List.map Prod.fst) (traced_drop hx f (StartRows.ofField f))
  rwa [traced, traced, List.map_map, List.map_map] at h

theorem color_drop_top (hx : 1 ≤ x ∧ x ≤ 6) (f : Field) : f.drop.1.color x 14 = f.color x 14 := by
  obtain ⟨c, hc⟩ := f.exists_column? hx
  have hd := f.column?_drop x
  rw [hc] at hd
  rw [color_of_column? hc, color_of_column? hd, Column.color_drop_top]

theorem puyos_eq {c : Column} (hc : f.column? x = some c) :
    c.puyos = (f.filledRows x).map (f.color x) := by
  have hcolor : c.color = f.color x := funext fun y => (color_of_column? hc y).symm
  rw [Column.puyos, ← Column.map_color_rowsUpTo, hcolor, List.filter_map]
  rfl

/-- fields with the same puyos in every column, and the same row 14, fall to the same field -/
theorem drop_congr
    (h : ∀ x, 1 ≤ x ∧ x ≤ 6 →
      (f.filledRows x).map (f.color x) = (g.filledRows x).map (g.color x))
    (htop : ∀ x, 1 ≤ x ∧ x ≤ 6 → f.color x 14 = g.color x 14) : f.drop.1 = g.drop.1 := by
  refine ext_column? fun z => ?_
  by_cases hz : 1 ≤ z ∧ z ≤ 6
  · obtain ⟨c, hc⟩ := f.exists_column? hz
    obtain ⟨d, hd⟩ := g.exists_column? hz
    have hp := h z hz
    rw [← puyos_eq hc, ← puyos_eq hd] at hp
    have ht := htop z hz
    rw [color_of_column? hc, color_of_column? hd] at ht
    rw [column?_drop, column?_drop, hc, hd]
    refine congrArg some ((Column.exact_drop c).ext (Column.exact_drop d) fun y hy hy' => ?_)
    by_cases e : y = 14
    · rw [e, Column.color_drop_top, Column.color_drop_top, ht]
    · rw [Column.color_drop c y hy (by omega), Column.color_drop d y hy (by omega), hp]
  · rw [column?_of_not_column hz, column?_of_not_column hz]

/-! ## emptied cells -/

theorem filledRows_clear (hx : 1 ≤ x ∧ x ≤ 6) (f : Field) (doomed : List Cell) :
    (f.clear doomed).filledRows x = (f.filledRows x).filter fun y => decide (⟨x, y⟩ ∉ doomed) := by
  rw [filledRows, filledRows, List.filter_filter]
  refine List.filter_congr fun y hy => ?_
  rw [mem_rowsUpTo_iff] at hy
  rw [color_clear f doomed x y hx ⟨hy.1, by omega⟩]
  by_cases h : (⟨x, y⟩ : Cell) ∈ doomed
  · simp [h]
  · simp [h]

theorem traced_clear (hx : 1 ≤ x ∧ x ≤ 6) (f : Field) (o : StartRows) (doomed : List Cell) :
    (f.clear doomed).traced (o.clear doomed) x =
      ((f.filledRows x).filter fun y => decide (⟨x, y⟩ ∉ doomed)).map fun y =>
        (f.color x y, o.get ⟨x, y⟩) := by
  rw [traced, filledRows_clear hx]
  refine List.map_congr_left fun y hy => ?_
  obtain ⟨hy, hn⟩ := List.mem_filter.mp hy
  rw [decide_eq_true_iff] at hn
  have hrow := ((mem_filledRows_iff f x y).mp hy).1
  rw [color_clear f doomed x y hx ⟨hrow.1, by omega⟩, if_neg hn,
    StartRows.get_clear o doomed _ ((Cell.inField_iff _).mpr ⟨hx, hrow.1, Nat.le_succ_of_le hrow.2⟩),
    if_neg hn]

end Field

end PuyoChain
