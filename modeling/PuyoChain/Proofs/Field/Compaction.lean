import Mathlib.Data.Nat.Basic
import Mathlib.Order.Basic
import PuyoChain.Proofs.Field.Operations
import PuyoChain.Proofs.Field.Origins

/-!
# Gravity as compaction in place

Gravity as a loop that moves the puyos of a column down in place, row by row: it reads the column
and writes into it at the same time.

* `Column.puyosUpTo`        how many puyos there are up to a row; a puyo falls past the empty cells
                            below it (`Column.fall_drop_le_iff`);
* `PackedUpTo`              the entries of an array are moved down past the blanks, up to a row;
* `Compaction`              the loop on its way up a column;
* `Compaction.Through`      what it has done when it is through with the rows up to one;
* `Field.dropInPlace`       the loop on all columns, which does what `drop` does (`dropInPlace_eq`);
* `Field.FallsBy`           some puyo falls by a number of rows;
* `Field.drop_compacts`     what gravity makes of the columns, and the longest fall that it answers.
-/

namespace PuyoChain

/-! ## rows that pass a test -/

theorem countP_rowsUpTo_succ (p : Nat → Bool) (n : Nat) :
    (rowsUpTo (n + 1)).countP p = (rowsUpTo n).countP p + if p (n + 1) then 1 else 0 := by
  rw [rowsUpTo_succ, List.countP_append, List.countP_singleton]

theorem countP_rowsUpTo_le (p : Nat → Bool) {y n : Nat} (h : y ≤ n) :
    (rowsUpTo y).countP p ≤ (rowsUpTo n).countP p :=
  ((List.range_sublist.mpr h).map _).countP_le

theorem take_rowsUpTo {i n : Nat} (h : i ≤ n) : (rowsUpTo n).take i = rowsUpTo i := by
  rw [rowsUpTo, ← List.map_take, List.take_range, Nat.min_eq_left h]
  rfl

/-- a row that passes a test comes after as many rows as pass it below -/
theorem getElem?_filter_rowsUpTo (p : Nat → Bool) (n i y : Nat) :
    ((rowsUpTo n).filter p)[i]? = some y ↔
      y ∈ (rowsUpTo n).filter p ∧ (rowsUpTo y).countP p = i + 1 := by
  rw [List.mem_filter, mem_rowsUpTo_iff]
  induction n with
  | zero =>
    refine ⟨nofun, fun h => ?_⟩
    omega
  | succ n ih =>
    have hlen : ((rowsUpTo n).filter p).length = (rowsUpTo n).countP p :=
      List.countP_eq_length_filter.symm
    have hlast := countP_rowsUpTo_succ p n
    rw [rowsUpTo_succ, List.filter_append]
    by_cases hi : i < ((rowsUpTo n).filter p).length
    · rw [List.getElem?_append_left hi, ih]
      refine ⟨fun ⟨⟨hy, hp⟩, hc⟩ => ⟨⟨by omega, hp⟩, hc⟩, fun ⟨⟨hy, hp⟩, hc⟩ => ?_⟩
      by_cases e : y = n + 1
      · rw [e] at hp hc
        rw [if_pos hp] at hlast
        omega
      · exact ⟨⟨by omega, hp⟩, hc⟩
    · -- only the new row can be at this index
      have hnew : ∀ y, 1 ≤ y ∧ y ≤ n + 1 → (rowsUpTo y).countP p = i + 1 → y = n + 1 := by
        intro y hy hc
        by_contra e
        have hle := countP_rowsUpTo_le p (show y ≤ n by omega)
        omega
      rw [List.getElem?_append_right (Nat.le_of_not_lt hi)]
      by_cases hp : p (n + 1) = true
      · rw [if_pos hp] at hlast
        rw [List.filter_cons_of_pos hp, List.filter_nil, List.getElem?_singleton,
          Option.ite_none_right_eq_some, Option.some.injEq]
        constructor
        · rintro ⟨h0, rfl⟩
          exact ⟨⟨by omega, hp⟩, by omega⟩
        · intro ⟨⟨hy, _⟩, hc⟩
          obtain rfl := hnew y hy hc
          exact ⟨by omega, rfl⟩
      · rw [List.filter_cons_of_neg hp, List.filter_nil, List.getElem?_nil]
        refine ⟨nofun, fun ⟨⟨hy, hpy⟩, hc⟩ => ?_⟩
        rw [hnew y hy hc] at hpy
        exact absurd hpy hp

/-! ## how far entries fall -/

/-- no entry falls further than a number if all of them have at most so many blanks below -/
theorem fall_settle_le_iff {α : Type} (blank : α) (isBlank : α → Bool) (gap : Nat) (l : List α)
    (n : Nat) : (settle blank isBlank gap l).2 ≤ n ↔
      ∀ i a, l[i]? = some a → isBlank a = false → gap + (l.take i).countP isBlank ≤ n := by
  induction l generalizing gap with
  | nil => simp [settle]
  | cons b l ih =>
    have hsucc : (∀ i a, (b :: l)[i]? = some a → isBlank a = false →
        gap + ((b :: l).take i).countP isBlank ≤ n) ↔ (isBlank b = false → gap ≤ n) ∧
          ∀ i a, l[i]? = some a → isBlank a = false →
            gap + ((l.take i).countP isBlank + if isBlank b then 1 else 0) ≤ n := by
      constructor
      · intro h
        refine ⟨h 0 b rfl, fun i a ha hb => ?_⟩
        have hi := h (i + 1) a ha hb
        rwa [List.take_succ_cons, List.countP_cons] at hi
      · rintro ⟨hzero, hsucc⟩ i a ha hb
        cases i with
        | zero =>
          obtain rfl := Option.some.inj ha
          exact hzero hb
        | succ i =>
          rw [List.take_succ_cons, List.countP_cons]
          exact hsucc i a ha hb
    rw [hsucc, settle]
    by_cases hb : isBlank b = true
    · rw [if_pos hb, ih, if_pos hb, and_iff_right (by simp [hb])]
      simp only [Nat.add_assoc, Nat.add_comm 1]
    · rw [if_neg hb, if_neg hb, Nat.max_le, ih]
      simp only [Nat.add_zero]
      rw [forall_prop_of_true (by simpa using hb)]

namespace Column

/-- the number of puyos in the rows 1 to `y` -/
def puyosUpTo (c : Column) (y : Nat) : Nat := (rowsUpTo y).countP fun z => c.color z != .empty

theorem puyosUpTo_succ (c : Column) (y : Nat) :
    c.puyosUpTo (y + 1) = c.puyosUpTo y + if c.color (y + 1) = .empty then 0 else 1 := by
  rw [puyosUpTo, countP_rowsUpTo_succ]
  by_cases h : c.color (y + 1) = .empty
  · simp [puyosUpTo, h]
  · simp [puyosUpTo, h]

theorem puyosUpTo_le (c : Column) (y : Nat) : c.puyosUpTo y ≤ y := by
  have h := List.countP_le_length (p := fun z => c.color z != .empty) (l := rowsUpTo y)
  rwa [rowsUpTo, List.length_map, List.length_range] at h

theorem countP_empty_rowsUpTo (c : Column) (y : Nat) :
    (rowsUpTo y).countP (fun z => c.color z == .empty) + c.puyosUpTo y = y := by
  induction y with
  | zero => rfl
  | succ y ih =>
    rw [countP_rowsUpTo_succ, puyosUpTo_succ]
    by_cases h : c.color (y + 1) = .empty
    · rw [if_pos (by simp [h]), if_pos h]
      omega
    · rw [if_neg (by simp [h]), if_neg h]
      omega

/-- a puyo falls past the empty cells below it -/
theorem fall_drop_le_iff (c : Column) (n : Nat) : c.drop.2 ≤ n ↔
    ∀ y, 1 ≤ y → y ≤ 13 → c.color y ≠ .empty → y ≤ c.puyosUpTo y + n := by
  have hrow : ∀ i, i < 13 → ((rowsUpTo 13).map c.color)[i]? = some (c.color (i + 1)) := by
    intro i hi
    simp [rowsUpTo, hi]
  have hbelow : ∀ i, i < 13 → (((rowsUpTo 13).map c.color).take i).countP (· == .empty) +
      c.puyosUpTo i = i := by
    intro i hi
    rw [← List.map_take, List.countP_map, take_rowsUpTo (Nat.le_of_lt hi)]
    exact c.countP_empty_rowsUpTo i
  show (settle .empty (· == .empty) 0 (c.cells.toList.take 13)).2 ≤ n ↔ _
  rw [fall_settle_le_iff, ← map_color_rowsUpTo]
  constructor
  · intro h y hy hy' hc
    obtain ⟨i, rfl⟩ : ∃ i, y = i + 1 := ⟨y - 1, by omega⟩
    have hi := h i _ (hrow i hy') (by simpa using hc)
    have hb := hbelow i hy'
    rw [puyosUpTo_succ, if_neg hc]
    omega
  · intro h i a ha hne
    have hi : i < 13 := by
      have hlt := (List.getElem?_eq_some_iff.mp ha).1
      simpa [rowsUpTo] using hlt
    obtain rfl := Option.some.inj ((hrow i hi).symm.trans ha)
    have hc : c.color (i + 1) ≠ .empty := by simpa using hne
    have hb := hbelow i hi
    have hy := h (i + 1) (by omega) hi hc
    rw [puyosUpTo_succ, if_neg hc] at hy
    omega

/-- below a puyo of a settled column there are puyos only -/
theorem Settled.puyosUpTo {c : Column} (hs : c.Settled) {y : Nat} (hy : y ≤ 13)
    (hne : c.color y ≠ .empty) : c.puyosUpTo y = y := by
  induction y with
  | zero => rfl
  | succ y ih =>
    rw [puyosUpTo_succ, if_neg hne]
    by_cases h0 : y = 0
    · rw [h0]
      rfl
    · rw [ih (by omega) fun he => hne (hs y (by omega) (by omega) he)]

/-! ## the loop on one column -/

/-- the rows 1 to `n` that hold puyos -/
def filled (c : Column) (n : Nat) : List Nat := (rowsUpTo n).filter fun y => c.color y != .empty

theorem length_filled (c : Column) (n : Nat) : (c.filled n).length = c.puyosUpTo n :=
  List.countP_eq_length_filter.symm

theorem map_filled_succ {α : Type} (c : Column) (g : Nat → α) (n : Nat) : (c.filled (n + 1)).map g =
    (c.filled n).map g ++ if c.color (n + 1) = .empty then [] else [g (n + 1)] := by
  rw [filled, rowsUpTo_succ, List.filter_append, List.map_append]
  by_cases h : c.color (n + 1) = .empty
  · simp [filled, h]
  · simp [filled, h]

theorem map_color_filled (c : Column) : (c.filled 13).map c.color = c.puyos := by
  rw [puyos, ← map_color_rowsUpTo, List.filter_map]
  rfl

end Column

/-- an array that was as in `before` holds the entries of a list in its rows 1 to `n`, from the
first row on and with blanks above them, and is still the same in the rows above -/
structure PackedUpTo {α : Type} (blank : α) (before now : Nat → α) (entries : List α) (n : Nat) :
    Prop where
  below : ∀ y, 1 ≤ y → y ≤ n → now y = entries.getD (y - 1) blank
  above : ∀ y, n < y → now y = before y

namespace PackedUpTo

variable {α : Type} {blank : α} {before now now' : Nat → α} {entries : List α} {n : Nat}

theorem start (blank : α) (before : Nat → α) : PackedUpTo blank before before [] 0 where
  below := fun y hy hy' => absurd hy (by omega)
  above := fun _ _ => rfl

variable (h : PackedUpTo blank before now entries n)
include h

/-- a blank is passed over -/
theorem skip (hlen : entries.length ≤ n) (hb : before (n + 1) = blank) :
    PackedUpTo blank before now entries (n + 1) where
  below := fun y hy hy' => by
    by_cases e : y = n + 1
    · rw [e, h.above _ (Nat.lt_succ_self n), hb, List.getD_eq_default _ _ (by omega)]
    · exact h.below y hy (by omega)
  above := fun y hy => h.above y (by omega)

/-- an entry with no blank below stays -/
theorem stay (hlen : entries.length = n) :
    PackedUpTo blank before now (entries ++ [before (n + 1)]) (n + 1) where
  below := fun y hy hy' => by
    by_cases e : y = n + 1
    · rw [e, h.above _ (Nat.lt_succ_self n), List.getD_append_right _ _ _ _ (by omega),
        show n + 1 - 1 - entries.length = 0 by omega]
      rfl
    · rw [List.getD_append _ _ _ _ (by omega)]
      exact h.below y hy (by omega)
  above := fun y hy => h.above y (by omega)

/-- an entry with blanks below moves down past them -/
theorem move (hlen : entries.length < n)
    (hnow : ∀ y, now' y =
      if y = n + 1 then blank else if y = entries.length + 1 then before (n + 1) else now y) :
    PackedUpTo blank before now' (entries ++ [before (n + 1)]) (n + 1) where
  below := fun y hy hy' => by
    rw [hnow]
    by_cases e : y = n + 1
    · rw [if_pos e, List.getD_eq_default _ _ (by simp; omega)]
    · rw [if_neg e]
      by_cases e' : y = entries.length + 1
      · rw [if_pos e', List.getD_append_right _ _ _ _ (by omega),
          show y - 1 - entries.length = 0 by omega]
        rfl
      · rw [if_neg e', h.below y hy (by omega)]
        by_cases hlt : y < entries.length + 1
        · rw [List.getD_append _ _ _ _ (by omega)]
        · rw [List.getD_eq_default _ _ (by omega), List.getD_eq_default _ _ (by simp; omega)]
  above := fun y hy => by
    rw [hnow, if_neg (by omega), if_neg (by omega)]
    exact h.above y (by omega)

end PackedUpTo

/-- the loop of gravity on its way up a column -/
structure Compaction where
  column : Column
  /-- the row into which the next puyo moves -/
  next : Nat
  /-- the longest fall so far -/
  fall : Nat

/-- moves the puyo in row `y`, if there is one, down to the next row -/
def Compaction.step (s : Compaction) (y : Nat) : Compaction :=
  let a := s.column.color y
  if a = .empty then s
  else if y = s.next then { s with next := s.next + 1 }
  else ⟨(s.column.put s.next a).put y .empty, s.next + 1, max s.fall (y - s.next)⟩

/-- the loop, started on column `c` with a longest fall before it, is through with rows 1 to `n` -/
structure Compaction.Through (c : Column) (before n : Nat) (s : Compaction) : Prop where
  next : s.next = c.puyosUpTo n + 1
  packed : PackedUpTo .empty c.color s.column.color ((c.filled n).map c.color) n
  fall : ∀ k, s.fall ≤ k ↔
    before ≤ k ∧ ∀ y, 1 ≤ y → y ≤ n → c.color y ≠ .empty → y ≤ c.puyosUpTo y + k

namespace Compaction

variable {c : Column} {before n : Nat} {s : Compaction}

theorem through_start (c : Column) (before : Nat) : Through c before 0 ⟨c, 1, before⟩ where
  next := rfl
  packed := .start .empty c.color
  fall := fun k => ⟨fun h => ⟨h, fun y hy hy' => absurd hy (by omega)⟩, fun h => h.1⟩

theorem Through.fall_succ (h : Through c before n s) (k : Nat) :
    (before ≤ k ∧ ∀ y, 1 ≤ y → y ≤ n + 1 → c.color y ≠ .empty → y ≤ c.puyosUpTo y + k) ↔
      s.fall ≤ k ∧ (c.color (n + 1) ≠ .empty → n + 1 ≤ c.puyosUpTo (n + 1) + k) := by
  rw [h.fall k, and_assoc]
  refine and_congr_right fun _ => ⟨fun hall => ⟨fun y hy hy' => hall y hy (by omega),
    hall (n + 1) (by omega) (Nat.le_refl _)⟩, fun ⟨hall, hnew⟩ y hy hy' => ?_⟩
  by_cases e : y = n + 1
  · rw [e]
    exact hnew
  · exact hall y hy (by omega)

/-- the next row is the one above the puyos so far -/
theorem Through.next_eq (h : Through c before n s) {α : Type} (g : Nat → α) :
    s.next = ((c.filled n).map g).length + 1 := by
  rw [h.next, List.length_map, c.length_filled]

/-- the loop reads what the column held before it -/
theorem Through.read (h : Through c before n s) : s.column.color (n + 1) = c.color (n + 1) :=
  h.packed.above (n + 1) (Nat.lt_succ_self n)

theorem Through.step (h : Through c before n s) (hn : n < 13) :
    Through c before (n + 1) (s.step (n + 1)) := by
  have hle := c.puyosUpTo_le n
  have hnext := h.next
  have hlen := h.next_eq c.color
  have hup := c.puyosUpTo_succ n
  have hin := c.map_filled_succ c.color n
  unfold Compaction.step
  dsimp only
  rw [h.read]
  by_cases ha : c.color (n + 1) = .empty
  · rw [if_pos ha] at hup hin
    rw [List.append_nil] at hin
    rw [if_pos ha]
    refine ⟨by rw [hup, hnext], ?_, fun k => ?_⟩
    · rw [hin]
      exact h.packed.skip (by omega) ha
    · rw [h.fall_succ, and_iff_left (absurd ha)]
  · rw [if_neg ha] at hup hin
    rw [if_neg ha]
    by_cases hstay : n + 1 = s.next
    · rw [if_pos hstay]
      refine ⟨by rw [hup, ← hnext], ?_, fun k => ?_⟩
      · rw [hin]
        exact h.packed.stay (by omega)
      · rw [h.fall_succ, and_iff_left fun _ => by omega]
    · rw [if_neg hstay]
      refine ⟨by rw [hup, ← hnext], ?_, fun k => ?_⟩
      · rw [hin]
        refine h.packed.move (by omega) fun y => ?_
        rw [Column.color_put _ _ _ (by omega), Column.color_put _ _ _ (by omega), hlen]
      · rw [h.fall_succ, Nat.max_le, forall_prop_of_true ha, hup, hnext]
        refine and_congr_right fun _ => ?_
        omega

theorem through_run (c : Column) (before : Nat) (hn : n ≤ 13) :
    Through c before n ((rowsUpTo n).foldl step ⟨c, 1, before⟩) := by
  induction n with
  | zero => exact through_start c before
  | succ n ih =>
    rw [rowsUpTo_succ, List.foldl_append]
    exact (ih (by omega)).step hn

end Compaction

/-- the column after the loop with its height counted again, and the longest fall -/
def Column.compact (c : Column) (before : Nat) : Column × Nat :=
  let s := (rowsUpTo 13).foldl Compaction.step ⟨c, 1, before⟩
  (s.column.recount, s.fall)

/-- the loop does to a column what gravity does -/
theorem Column.compact_eq (c : Column) (before : Nat) :
    c.compact before = (c.drop.1, max before c.drop.2) := by
  have h := Compaction.through_run c before (Nat.le_refl 13)
  unfold compact
  generalize (rowsUpTo 13).foldl Compaction.step ⟨c, 1, before⟩ = s at h ⊢
  refine Prod.ext ?_ (eq_of_forall_ge_iff fun k => ?_)
  · refine (exact_recount _).ext (exact_drop c) fun y hy hy' => ?_
    rw [color_recount]
    by_cases e : y = 14
    · rw [e, h.packed.above 14 (by omega), color_drop_top]
    · rw [h.packed.below y hy (by omega), map_color_filled, color_drop c y hy (by omega)]
  · rw [Nat.max_le, c.fall_drop_le_iff]
    exact h.fall k

namespace Field

variable {f g : Field} {x : Nat}

/-! ## all columns -/

/-- the loop on column `x` of a field, with the longest fall before it -/
def compactColumn (s : Field × Nat) (x : Nat) : Field × Nat :=
  (s.1.column? x).elim s fun c =>
    (s.1.modify x fun _ => (c.compact s.2).1, (c.compact s.2).2)

/-- gravity as a loop that changes the field in place, and answers the longest fall -/
def dropInPlace (f : Field) : Field × Nat := fieldColumns.foldl compactColumn (f, 0)

theorem compactColumn_eq {c : Column} (hc : g.column? x = some c) (n : Nat) :
    compactColumn (g, n) x = (g.modify x fun _ => c.drop.1, max n c.drop.2) := by
  rw [compactColumn, hc, Option.elim_some, Column.compact_eq]

/-- the other columns stay -/
theorem column?_compactColumn {t : Field × Nat} {z : Nat} (h : z ≠ x) :
    (compactColumn t x).1.column? z = t.1.column? z := by
  unfold compactColumn
  cases t.1.column? x with
  | none => rfl
  | some c =>
    dsimp only [Option.elim_some]
    rw [column?_modify, if_neg h]

theorem foldl_compactColumn {xs : List Nat} (hxs : ∀ x ∈ xs, 1 ≤ x ∧ x ≤ 6) (hnodup : xs.Nodup)
    (g : Field) (n : Nat) :
    (∀ z, (xs.foldl compactColumn (g, n)).1.column? z =
      if z ∈ xs then (g.column? z).map fun c => c.drop.1 else g.column? z) ∧
    ∀ k, (xs.foldl compactColumn (g, n)).2 ≤ k ↔
      n ≤ k ∧ ∀ x ∈ xs, ∀ c, g.column? x = some c → c.drop.2 ≤ k := by
  induction xs generalizing g n with
  | nil => simp
  | cons x xs ih =>
    obtain ⟨hx, hxs⟩ := List.forall_mem_cons.mp hxs
    obtain ⟨hnew, hnodup⟩ := List.nodup_cons.mp hnodup
    obtain ⟨c, hc⟩ := g.exists_column? hx
    have hmodify := g.column?_modify x fun _ => c.drop.1
    rw [List.foldl_cons, compactColumn_eq hc]
    obtain ⟨hcolumns, hfall⟩ := ih hxs hnodup (g.modify x fun _ => c.drop.1) (max n c.drop.2)
    refine ⟨fun z => ?_, fun k => ?_⟩
    · rw [hcolumns, hmodify]
      by_cases e : z = x
      · rw [e, if_neg hnew, if_pos rfl, if_pos List.mem_cons_self, hc]
        rfl
      · rw [if_neg e]
        simp only [List.mem_cons, e, false_or]
    · have hlater : (∀ z ∈ xs, ∀ d, (g.modify x fun _ => c.drop.1).column? z = some d →
          d.drop.2 ≤ k) ↔ ∀ z ∈ xs, ∀ d, g.column? z = some d → d.drop.2 ≤ k := by
        refine forall₂_congr fun z hz => ?_
        rw [hmodify, if_neg]
        rintro rfl
        exact hnew hz
      rw [hfall, hlater, Nat.max_le, and_assoc, List.forall_mem_cons, hc]
      simp

/-- the longest fall is that of a column -/
theorem fall_drop_le_iff (f : Field) (n : Nat) :
    f.drop.2 ≤ n ↔ ∀ x c, f.column? x = some c → c.drop.2 ≤ n := by
  show (f.settledColumns.toList.map Prod.snd).foldl max 0 ≤ n ↔ f.Every fun c => c.drop.2 ≤ n
  rw [foldl_max_le_iff, and_iff_right (Nat.zero_le n), every_iff, List.forall_mem_map,
    settledColumns, Vector.toList_ofFn]
  simp only [List.mem_ofFn, forall_exists_index, forall_apply_eq_imp_iff]

theorem dropInPlace_eq (f : Field) : f.dropInPlace = f.drop := by
  have hxs : ∀ x ∈ fieldColumns, 1 ≤ x ∧ x ≤ 6 := fun x hx => (mem_fieldColumns_iff x).mp hx
  obtain ⟨hcolumns, hfall⟩ := foldl_compactColumn hxs (by decide) f 0
  refine Prod.ext (ext_column? fun z => ?_) (eq_of_forall_ge_iff fun k => ?_)
  · refine (hcolumns z).trans ?_
    rw [column?_drop]
    by_cases hz : z ∈ fieldColumns
    · rw [if_pos hz]
    · rw [if_neg hz, column?_of_not_column (by rwa [← mem_fieldColumns_iff])]
      rfl
  · rw [fall_drop_le_iff]
    refine (hfall k).trans ?_
    rw [and_iff_right (Nat.zero_le k)]
    refine forall_congr' fun x => ⟨fun h c hc => ?_, fun h _ => h⟩
    exact h ((mem_fieldColumns_iff x).mpr (column_of_column? hc)) c hc

/-! ## puyos that fall -/

/-- some puyo falls by `n` rows: the one with `i` puyos below it in its column, which therefore comes
to rest in row `i + 1` -/
def FallsBy (f : Field) (n : Nat) : Prop :=
  ∃ x i, (1 ≤ x ∧ x ≤ 6) ∧ (f.filledRows x)[i]? = some (i + 1 + n)

theorem getElem?_filledRows {c : Column} (hc : f.column? x = some c) (i y : Nat) :
    (f.filledRows x)[i]? = some y ↔
      ((1 ≤ y ∧ y ≤ 13) ∧ c.color y ≠ .empty) ∧ c.puyosUpTo y = i + 1 := by
  have hcolor : f.color x = c.color := funext fun y => color_of_column? hc y
  rw [filledRows, getElem?_filter_rowsUpTo, hcolor, List.mem_filter, mem_rowsUpTo_iff, bne_iff_ne]
  rfl

theorem forall_fallsBy_le_iff (f : Field) (n : Nat) :
    (∀ m, f.FallsBy m → m ≤ n) ↔ f.drop.2 ≤ n := by
  rw [fall_drop_le_iff]
  constructor
  · intro h x c hc
    rw [Column.fall_drop_le_iff]
    intro y hy hy' hne
    have hle := c.puyosUpTo_le y
    obtain ⟨i, hi⟩ : ∃ i, c.puyosUpTo y = i + 1 := by
      obtain ⟨z, rfl⟩ : ∃ z, y = z + 1 := ⟨y - 1, by omega⟩
      exact ⟨c.puyosUpTo z, by rw [Column.puyosUpTo_succ, if_neg hne]⟩
    have hfalls : f.FallsBy (y - (i + 1)) := by
      refine ⟨x, i, column_of_column? hc, ?_⟩
      rw [Nat.add_sub_cancel' (by omega)]
      exact (getElem?_filledRows hc i y).mpr ⟨⟨⟨hy, hy'⟩, hne⟩, hi⟩
    have hm := h _ hfalls
    omega
  · rintro h m ⟨x, i, hx, hget⟩
    obtain ⟨c, hc⟩ := f.exists_column? hx
    obtain ⟨⟨hrow, hne⟩, hi⟩ := (getElem?_filledRows hc i _).mp hget
    have hle := (c.fall_drop_le_iff n).mp (h x c hc) _ hrow.1 hrow.2 hne
    omega

/-- the longest fall is that of a puyo, if there is one -/
theorem fallsBy_fall_drop (f : Field) (h : f.drop.2 ≠ 0) : f.FallsBy f.drop.2 := by
  by_contra hn
  have hless : ∀ m, f.FallsBy m → m ≤ f.drop.2 - 1 := by
    intro m hm
    have hle := (f.forall_fallsBy_le_iff f.drop.2).mpr (Nat.le_refl _) m hm
    have hne : m ≠ f.drop.2 := fun e => hn (e ▸ hm)
    omega
  have hle := (f.forall_fallsBy_le_iff _).mp hless
  omega

theorem map_color_drop_eq_append (hx : 1 ≤ x ∧ x ≤ 6) (f : Field) :
    (rowsUpTo 13).map (f.drop.1.color x) = (f.filledRows x).map (f.color x) ++
      List.replicate (13 - (f.filledRows x).length) .empty := by
  obtain ⟨c, hc⟩ := f.exists_column? hx
  have hd := f.column?_drop x
  rw [hc] at hd
  have hcolor : f.drop.1.color x = c.drop.1.color := funext fun y => color_of_column? hd y
  have hpuyos := puyos_eq hc
  have hlen := congrArg List.length hpuyos
  rw [List.length_map] at hlen
  rw [hcolor, Column.map_color_rowsUpTo, Column.toList_drop, ← hpuyos, ← hlen]
  exact List.take_left' (by have := c.length_puyos_le; simp; omega)

/-- nothing falls a second time -/
theorem drop_drop (f : Field) : f.drop.1.drop = (f.drop.1, 0) := by
  refine Prod.ext (f.exact_drop.drop_of_settled f.settled_drop) (Nat.le_zero.mp ?_)
  refine (fall_drop_le_iff _ 0).mpr fun x c hc => (c.fall_drop_le_iff 0).mpr ?_
  intro y _ hy' hne
  rw [(f.settled_drop x c hc).puyosUpTo hy' hne]
  exact Nat.le_refl y

/-- **Gravity compacts every column and keeps its order.**  On every field, the loop in place does
what gravity does: a column has its puyos of rows 1 to 13 in their order from the floor on, and
nothing above them; row 14 stays as it is, and the believed heights are the true ones then.  The
answer is the longest way that a puyo falls, and a second time nothing falls. -/
theorem drop_compacts (f : Field) :
    f.dropInPlace = f.drop ∧
    (∀ x, 1 ≤ x ∧ x ≤ 6 →
      (rowsUpTo 13).map (f.drop.1.color x) = (f.filledRows x).map (f.color x) ++
        List.replicate (13 - (f.filledRows x).length) .empty ∧
      f.drop.1.color x 14 = f.color x 14 ∧
      f.drop.1.IsTopRow x (f.drop.1.height x)) ∧
    (∀ n, f.FallsBy n → n ≤ f.drop.2) ∧ (f.drop.2 = 0 ∨ f.FallsBy f.drop.2) ∧
    f.drop.1.drop = (f.drop.1, 0) := by
  refine ⟨f.dropInPlace_eq, fun x hx => ⟨map_color_drop_eq_append hx f, color_drop_top hx f,
    f.exact_drop.isTopRow hx⟩, (f.forall_fallsBy_le_iff _).mpr (Nat.le_refl _), ?_, f.drop_drop⟩
  by_cases h : f.drop.2 = 0
  · exact Or.inl h
  · exact Or.inr (f.fallsBy_fall_drop h)

end Field

end PuyoChain
