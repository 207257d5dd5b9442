import PuyoChain.Proofs.Field.Chain
import PuyoChain.Proofs.Field.Compaction

/-!
# Gravity in place on two arrays

While a chain is tracked, the loop of gravity works on two arrays: where it moves a puyo down a
column, it moves the row where the puyo starts along.

* `Compaction.carry`        one turn of the loop, on the column and on the start rows;
* `Field.dropCarrying`      the loop on all columns;
* `StartRows.OnPuyos`       empty cells have no start row, which gravity and vanishes keep;
* `dropCarrying_eq`         then the loop does to both arrays what `Field.drop` and `StartRows.drop`
                            do;
* `Field.simulateCarrying`  so a whole chain with this loop is a tracked chain
                            (`simulateCarrying_eq`).
-/

namespace PuyoChain

/-! ## start rows, cell by cell -/

/-- the start rows with one of them written at a cell, if the field has the cell -/
def StartRows.put (o : StartRows) (p : Cell) (row : Nat) : StartRows :=
  ⟨Vector.ofFn fun i => Vector.ofFn fun j =>
    if (⟨i + 1, j + 1⟩ : Cell) = p then row else (o.rows.get i).get j⟩

/-- a cell that is empty has no start row -/
def StartRows.OnPuyos (o : StartRows) (f : Field) : Prop :=
  ∀ p, f.colorAt p = .empty → o.get p = 0

namespace StartRows

variable {f : Field} {o : StartRows} {x y : Nat}

theorem get_put (o : StartRows) {p : Cell} (hp : p.inField = true) (row : Nat) (q : Cell) :
    (o.put p row).get q = if q = p then row else o.get q := by
  unfold get
  by_cases hq : (1 ≤ q.x ∧ q.x ≤ 6) ∧ 1 ≤ q.y ∧ q.y ≤ 14
  · rw [dif_pos hq, dif_pos hq]
    have ex : q.x - 1 + 1 = q.x := by omega
    have ey : q.y - 1 + 1 = q.y := by omega
    simp [put, get_eq_getElem, ex, ey]
  · rw [dif_neg hq, dif_neg hq, if_neg]
    rintro rfl
    exact hq ((Cell.inField_iff q).mp hp)

theorem get_of_not_inField {p : Cell} (hp : ¬ p.inField = true) : o.get p = 0 := by
  rw [Cell.inField_iff] at hp
  exact dif_neg hp

/-- the start rows of a column after gravity: those of its puyos, from the floor -/
theorem get_drop (hx : 1 ≤ x ∧ x ≤ 6) (hy : 1 ≤ y ∧ y ≤ 13) (f : Field) (o : StartRows) :
    (o.drop f).get ⟨x, y⟩ = ((f.filledRows x).map fun y => o.get ⟨x, y⟩).getD (y - 1) 0 := by
  have hentries := congrArg (List.map Prod.snd) (Field.entries_drop hx f o)
  rw [settle_entries, List.map_append, List.map_replicate, ← Field.traced_eq_filter, Field.traced,
    Field.entries, List.map_map, List.map_map] at hentries
  have hget := congrArg (fun l => l.getD (y - 1) 0) hentries
  dsimp only at hget
  rw [getD_append_replicate] at hget
  refine Eq.trans ?_ hget
  obtain ⟨i, rfl⟩ : ∃ i, y = i + 1 := ⟨y - 1, by omega⟩
  have hi : i < 13 := by omega
  simp [rowsUpTo, hi]

theorem dropColumn_top (c : Column) (rows : Vector Nat 14) :
    (dropColumn c rows)[13] = rows[13] := by
  have hlen : ((settle (Color.empty, 0) (fun e : Color × Nat => e.1 == .empty) 0
      ((c.cells.toList.zip rows.toList).take 13)).1.map Prod.snd).length = 13 := by
    rw [List.length_map, settle_length]
    simp
  have htop : (dropColumn c rows).toList[13]? = rows.toList[13]? := by
    show (List.map Prod.snd _ ++ rows.toList.drop 13)[13]? = _
    rw [List.getElem?_append_right (Nat.le_of_eq hlen), hlen, List.getElem?_drop]
  simpa using htop

/-- gravity leaves the top staging row alone -/
theorem get_drop_top (hx : 1 ≤ x ∧ x ≤ 6) (f : Field) (o : StartRows) :
    (o.drop f).get ⟨x, 14⟩ = o.get ⟨x, 14⟩ := by
  have hrow : (1 ≤ x ∧ x ≤ 6) ∧ 1 ≤ 14 ∧ 14 ≤ 14 := ⟨hx, by decide⟩
  unfold get
  rw [dif_pos hrow, dif_pos hrow]
  dsimp only [drop]
  rw [Vector.getElem_ofFn]
  exact dropColumn_top ..

end StartRows

/-! ## the loop on one column -/

namespace Compaction

/-- moves the puyo in row `y` of column `x`, if there is one, down to the next row, and the row
where it starts along -/
def carry (x : Nat) (t : Compaction × StartRows) (y : Nat) : Compaction × StartRows :=
  let a := t.1.column.color y
  if a = .empty then t
  else if y = t.1.next then ({ t.1 with next := t.1.next + 1 }, t.2)
  else
    (⟨(t.1.column.put t.1.next a).put y .empty, t.1.next + 1, max t.1.fall (y - t.1.next)⟩,
      (t.2.put ⟨x, t.1.next⟩ (t.2.get ⟨x, y⟩)).put ⟨x, y⟩ 0)

theorem fst_carry (x : Nat) (t : Compaction × StartRows) (y : Nat) :
    (carry x t y).1 = t.1.step y := by
  unfold carry step
  dsimp only
  split
  · rfl
  · split <;> rfl

theorem fst_foldl_carry (x : Nat) (t : Compaction × StartRows) (ys : List Nat) :
    (ys.foldl (carry x) t).1 = ys.foldl step t.1 :=
  (List.foldl_hom Prod.fst fun t y => (fst_carry x t y).symm).symm

/-- the loop on column `x`, started on `c` and the start rows `o`, is through with rows 1 to `n` -/
structure Carried (c : Column) (o : StartRows) (x before n : Nat) (t : Compaction × StartRows) :
    Prop where
  through : Through c before n t.1
  packed : PackedUpTo 0 (fun y => o.get ⟨x, y⟩) (fun y => t.2.get ⟨x, y⟩)
    ((c.filled n).map fun y => o.get ⟨x, y⟩) n
  beside : ∀ p, p.x ≠ x → t.2.get p = o.get p

variable {c : Column} {o : StartRows} {x before n : Nat} {t : Compaction × StartRows}

theorem carried_start (c : Column) (o : StartRows) (x before : Nat) :
    Carried c o x before 0 (⟨c, 1, before⟩, o) :=
  ⟨through_start c before, .start 0 _, fun _ _ => rfl⟩

theorem Carried.step (h : Carried c o x before n t) (hx : 1 ≤ x ∧ x ≤ 6) (hn : n < 13)
    (hblank : c.color (n + 1) = .empty → o.get ⟨x, n + 1⟩ = 0) :
    Carried c o x before (n + 1) (carry x t (n + 1)) := by
  have hthrough : Through c before (n + 1) (carry x t (n + 1)).1 := by
    rw [fst_carry]
    exact h.through.step hn
  have hle := c.puyosUpTo_le n
  have hnext := h.through.next
  have hlen := h.through.next_eq fun y => o.get ⟨x, y⟩
  have hread : t.2.get ⟨x, n + 1⟩ = o.get ⟨x, n + 1⟩ := h.packed.above _ (Nat.lt_succ_self n)
  have hin := c.map_filled_succ (fun y => o.get ⟨x, y⟩) n
  suffices hstarts : PackedUpTo 0 (fun y => o.get ⟨x, y⟩)
      (fun y => (carry x t (n + 1)).2.get ⟨x, y⟩)
      ((c.filled (n + 1)).map fun y => o.get ⟨x, y⟩) (n + 1) ∧
      ∀ p, p.x ≠ x → (carry x t (n + 1)).2.get p = o.get p from
    ⟨hthrough, hstarts.1, hstarts.2⟩
  unfold carry
  dsimp only
  rw [h.through.read, hin]
  by_cases ha : c.color (n + 1) = .empty
  · rw [if_pos ha, if_pos ha, List.append_nil]
    exact ⟨h.packed.skip (by omega) (hblank ha), h.beside⟩
  · rw [if_neg ha, if_neg ha]
    by_cases hstay : n + 1 = t.1.next
    · rw [if_pos hstay]
      exact ⟨h.packed.stay (by omega), h.beside⟩
    · rw [if_neg hstay]
      have hget : ∀ q, ((t.2.put ⟨x, t.1.next⟩ (t.2.get ⟨x, n + 1⟩)).put ⟨x, n + 1⟩ 0).get q =
          if q = ⟨x, n + 1⟩ then 0 else if q = ⟨x, t.1.next⟩ then o.get ⟨x, n + 1⟩
            else t.2.get q := by
        intro q
        have hrow : Cell.inField ⟨x, n + 1⟩ = true := (Cell.inField_iff _).mpr ⟨hx, by dsimp; omega⟩
        have hfree : Cell.inField ⟨x, t.1.next⟩ = true :=
          (Cell.inField_iff _).mpr ⟨hx, by dsimp; omega⟩
        rw [StartRows.get_put _ hrow, StartRows.get_put _ hfree, hread]
      refine ⟨h.packed.move (by omega) fun y => ?_, fun p hp => ?_⟩
      · rw [hget, hlen]
        simp only [Cell.mk.injEq, true_and]
      · have hne : ∀ y, p ≠ ⟨x, y⟩ := fun y e => hp (congrArg Cell.x e)
        rw [hget, if_neg (hne _), if_neg (hne _)]
        exact h.beside p hp

theorem carried_run (c : Column) (before : Nat) (hx : 1 ≤ x ∧ x ≤ 6)
    (hblank : ∀ y, c.color y = .empty → o.get ⟨x, y⟩ = 0) (hn : n ≤ 13) :
    Carried c o x before n ((rowsUpTo n).foldl (carry x) (⟨c, 1, before⟩, o)) := by
  induction n with
  | zero => exact carried_start c o x before
  | succ n ih =>
    rw [rowsUpTo_succ, List.foldl_append]
    exact (ih (by omega)).step hx hn (hblank (n + 1))

end Compaction

/-! ## all columns -/

namespace Field

variable {f : Field} {o : StartRows} {x : Nat} {t : (Field × Nat) × StartRows}

/-- the loop on column `x` of a field and of the start rows, with the longest fall before it -/
def carryColumn (t : (Field × Nat) × StartRows) (x : Nat) : (Field × Nat) × StartRows :=
  (t.1.1.column? x).elim t fun c =>
    let done := (rowsUpTo 13).foldl (Compaction.carry x) (⟨c, 1, t.1.2⟩, t.2)
    ((t.1.1.modify x fun _ => done.1.column.recount, done.1.fall), done.2)

/-- gravity as a loop that changes a field and the start rows in place -/
def dropCarrying (f : Field) (o : StartRows) : (Field × Nat) × StartRows :=
  fieldColumns.foldl carryColumn ((f, 0), o)

theorem fst_carryColumn (t : (Field × Nat) × StartRows) (x : Nat) :
    (carryColumn t x).1 = compactColumn t.1 x := by
  unfold carryColumn compactColumn Column.compact
  cases t.1.1.column? x with
  | none => rfl
  | some c =>
    dsimp only [Option.elim_some]
    rw [Compaction.fst_foldl_carry]

theorem fst_dropCarrying (f : Field) (o : StartRows) : (f.dropCarrying o).1 = f.drop := by
  rw [← dropInPlace_eq]
  exact (List.foldl_hom Prod.fst fun t x => (fst_carryColumn t x).symm).symm

/-- on a column that is still as it was, the loop does what gravity does -/
theorem get_carryColumn (ho : o.OnPuyos f) (hx : 1 ≤ x ∧ x ≤ 6)
    (hcolumn : t.1.1.column? x = f.column? x) (hrows : ∀ y, t.2.get ⟨x, y⟩ = o.get ⟨x, y⟩)
    (p : Cell) :
    (carryColumn t x).2.get p = if p.x = x then (o.drop f).get p else t.2.get p := by
  obtain ⟨c, hc⟩ := f.exists_column? hx
  have hcolor : f.color x = c.color := funext fun y => color_of_column? hc y
  have hblank : ∀ y, c.color y = .empty → t.2.get ⟨x, y⟩ = 0 := by
    intro y he
    rw [hrows]
    rw [← hcolor] at he
    exact ho ⟨x, y⟩ he
  have h := Compaction.carried_run c t.1.2 hx hblank (Nat.le_refl 13)
  unfold carryColumn
  rw [hcolumn, hc]
  dsimp only [Option.elim_some]
  generalize (rowsUpTo 13).foldl (Compaction.carry x) (⟨c, 1, t.1.2⟩, t.2) = done at h ⊢
  obtain ⟨z, y⟩ := p
  by_cases hz : z = x
  · subst hz
    rw [if_pos rfl]
    by_cases hy : 1 ≤ y ∧ y ≤ 13
    · rw [StartRows.get_drop hx hy, filledRows, hcolor, h.packed.below y hy.1 hy.2]
      simp only [hrows]
      rfl
    · by_cases e : y = 14
      · subst e
        rw [StartRows.get_drop_top hx, ← hrows]
        exact h.packed.above 14 (by omega)
      · have hout : ¬ Cell.inField ⟨z, y⟩ = true := by
          rw [Cell.inField_iff]
          dsimp only
          omega
        rw [StartRows.get_of_not_inField hout, StartRows.get_of_not_inField hout]
  · rw [if_neg hz]
    exact h.beside _ hz

theorem get_foldl_carryColumn (ho : o.OnPuyos f) {xs : List Nat} (hxs : ∀ x ∈ xs, 1 ≤ x ∧ x ≤ 6)
    (hnodup : xs.Nodup) (hcolumns : ∀ x ∈ xs, t.1.1.column? x = f.column? x)
    (hrows : ∀ x ∈ xs, ∀ y, t.2.get ⟨x, y⟩ = o.get ⟨x, y⟩) (p : Cell) :
    (xs.foldl carryColumn t).2.get p = if p.x ∈ xs then (o.drop f).get p else t.2.get p := by
  induction xs generalizing t with
  | nil => rw [if_neg List.not_mem_nil, List.foldl_nil]
  | cons x xs ih =>
    obtain ⟨hx, hxs⟩ := List.forall_mem_cons.mp hxs
    obtain ⟨hnew, hnodup⟩ := List.nodup_cons.mp hnodup
    obtain ⟨hcolumn, hcolumns⟩ := List.forall_mem_cons.mp hcolumns
    obtain ⟨hrow, hrows⟩ := List.forall_mem_cons.mp hrows
    have hget := get_carryColumn ho hx hcolumn hrow
    have hne : ∀ z ∈ xs, z ≠ x := fun z hz e => hnew (e ▸ hz)
    have hcolumns' : ∀ z ∈ xs, (carryColumn t x).1.1.column? z = f.column? z := by
      intro z hz
      rw [fst_carryColumn, column?_compactColumn (hne z hz)]
      exact hcolumns z hz
    have hrows' : ∀ z ∈ xs, ∀ y, (carryColumn t x).2.get ⟨z, y⟩ = o.get ⟨z, y⟩ := by
      intro z hz y
      rw [hget, if_neg (hne z hz)]
      exact hrows z hz y
    rw [List.foldl_cons, ih hxs hnodup hcolumns' hrows', hget]
    by_cases hp : p.x ∈ xs
    · rw [if_pos hp, if_pos (List.mem_cons_of_mem x hp)]
    · rw [if_neg hp]
      simp only [List.mem_cons, hp, or_false]

/-- where only puyos have start rows, the loop does to both arrays what gravity does -/
theorem dropCarrying_eq (ho : o.OnPuyos f) : f.dropCarrying o = (f.drop, o.drop f) := by
  refine Prod.ext (fst_dropCarrying f o) (StartRows.ext_get fun p hp => ?_)
  have hxs : ∀ x ∈ fieldColumns, 1 ≤ x ∧ x ≤ 6 := fun x hx => (mem_fieldColumns_iff x).mp hx
  have hx : p.x ∈ fieldColumns := (mem_fieldColumns_iff p.x).mpr ((Cell.inField_iff p).mp hp).1
  refine (get_foldl_carryColumn ho hxs (by decide) (fun _ _ => rfl) (fun _ _ _ => rfl) p).trans ?_
  rw [if_pos hx]

end Field

/-! ## start rows are those of puyos -/

namespace StartRows

variable {f : Field} {o : StartRows}

theorem onPuyos_ofField (f : Field) : (ofField f).OnPuyos f := by
  intro p he
  by_cases hp : p.inField = true
  · rw [get_ofField f p hp, if_pos he]
  · exact get_of_not_inField hp

theorem OnPuyos.clear (ho : o.OnPuyos f) (doomed : List Cell) :
    (o.clear doomed).OnPuyos (f.clear doomed) := by
  intro p he
  by_cases hp : p.inField = true
  · obtain ⟨hx, hy⟩ := (Cell.inField_iff p).mp hp
    rw [get_clear o doomed p hp]
    by_cases hd : p ∈ doomed
    · rw [if_pos hd]
    · rw [if_neg hd]
      refine ho p ?_
      rwa [Field.colorAt, Field.color_clear f doomed p.x p.y hx hy, if_neg hd] at he
  · exact get_of_not_inField hp

theorem OnPuyos.drop (ho : o.OnPuyos f) : (o.drop f).OnPuyos f.drop.1 := by
  intro p he
  by_cases hp : p.inField = true
  · obtain ⟨x, y⟩ := p
    obtain ⟨hx, hy⟩ := (Cell.inField_iff _).mp hp
    dsimp only at hx hy
    by_cases e : y = 14
    · subst e
      rw [get_drop_top hx]
      refine ho _ ?_
      rwa [Field.colorAt, Field.color_drop_top hx] at he
    · have hy13 : 1 ≤ y ∧ y ≤ 13 := by omega
      rw [get_drop hx hy13]
      refine List.getD_eq_default _ _ (Nat.le_of_not_lt fun hlt => ?_)
      -- a row below the number of puyos holds one
      rw [List.length_map] at hlt
      obtain ⟨c, hc⟩ := f.exists_column? hx
      have hd := f.column?_drop x
      rw [hc] at hd
      have hcolor : f.drop.1.color x y = f.color x (f.filledRows x)[y - 1] := by
        rw [Field.color_of_column? hd, Column.color_drop c y hy13.1 hy13.2, Field.puyos_eq hc,
          List.getD_eq_getElem _ _ (by rwa [List.length_map]), List.getElem_map]
      have hfilled := (Field.mem_filledRows_iff f x _).mp (List.getElem_mem hlt)
      exact hfilled.2 (hcolor.symm.trans he)
  · exact get_of_not_inField hp

end StartRows

/-! ## chains -/

namespace Field

/-- at most `fuel` further steps of a chain with the loop in place, after the outcome `r` and the
track `t` so far -/
def cascadeCarrying :
    Nat → Field → StartRows → ChainResult → EraseTrack → Field × ChainResult × EraseTrack
  | 0, f, _, r, t => (f, r, t)
  | fuel + 1, f, o, r, t =>
    match f.vanish? (r.chains + 1) with
    | none => (f, r, t)
    | some v =>
      let fallen := v.field.dropCarrying (o.clear v.doomed)
      cascadeCarrying fuel fallen.1.1 fallen.2 (r.afterStep v.score fallen.1.2)
        (o.mark (r.chains + 1) v.doomed t)

/-- the field after its chain with the loop in place, the outcome, and the track with the steps of
the chain noted -/
def simulateCarrying (f : Field) (t : EraseTrack) : Field × ChainResult × EraseTrack :=
  let fallen := f.dropCarrying (.ofField f)
  cascadeCarrying stepBound fallen.1.1 fallen.2 .zero t

theorem cascadeCarrying_eq (fuel : Nat) {f : Field} {o : StartRows} (ho : o.OnPuyos f)
    (r : ChainResult) (t : EraseTrack) :
    cascadeCarrying fuel f o r t = cascadeTracked fuel f o r t := by
  induction fuel generalizing f o r t with
  | zero => rfl
  | succ fuel ih =>
    unfold cascadeCarrying cascadeTracked
    cases hv : f.vanish? (r.chains + 1) with
    | none => rfl
    | some v =>
      have hclear : (o.clear v.doomed).OnPuyos v.field := by
        rw [field_of_vanish? hv]
        exact ho.clear v.doomed
      dsimp only
      rw [dropCarrying_eq hclear]
      exact ih hclear.drop _ _

/-- **A tracked chain moves start rows as it moves puyos.**  On every field, with gravity as a loop
that changes the colors and the start rows of a column in place, a chain ends with the field, the
outcome and the track of `simulateTracked`. -/
theorem simulateCarrying_eq (f : Field) (t : EraseTrack) :
    f.simulateCarrying t = f.simulateTracked t := by
  have ho := StartRows.onPuyos_ofField f
  unfold simulateCarrying simulateTracked
  rw [dropCarrying_eq ho]
  exact cascadeCarrying_eq stepBound ho.drop _ t

end Field

end PuyoChain
