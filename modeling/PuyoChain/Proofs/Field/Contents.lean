import Mathlib.Data.Finset.Card
import Mathlib.Data.Finset.Fold
import Mathlib.Data.Finset.SymmDiff
import PuyoChain.Proofs.Field.Columns
import PuyoChain.Proofs.Zobrist

/-!
# What the cells of a field hold, and its hash

* `Content`             a color in a cell of the map, with its key;
* `Field.occupied`, `Field.contents`   the cells of a field that are not empty, and what they hold;
* `xorKeys`             the exclusive or of the keys of contents, in whatever order;
* `xorOf`               the exclusive or over a list, as a loop works it out.

The hash of a covered field is `xorKeys` of its contents (`Covered.zobristHash_eq`): above a believed
height all is empty, and the empty cells below it add nothing.  The hashes of two fields differ by
the keys of the contents that only one of them has (`xorKeys_symmDiff`), and of one or two different
contents these do not cancel out (`xorKeys_ne_zero`).
-/

namespace PuyoChain

/-- a color that a cell of the map holds -/
structure Content where
  cell : Cell
  color : Color
  deriving DecidableEq

def Content.key (c : Content) : UInt64 := Zobrist.key c.cell.x c.cell.y c.color

/-- the exclusive or of the keys of contents -/
def xorKeys (s : Finset Content) : UInt64 := s.fold (· ^^^ ·) 0 Content.key

/-- the cells of the field, column by column -/
def fieldCells : List Cell := fieldColumns.flatMap fun x => (rowsUpTo 14).map fun y => ⟨x, y⟩

/-- the cells of the field that are not empty -/
def Field.occupied (f : Field) : List Cell := fieldCells.filter fun p => f.colorAt p != .empty

/-- what the cells of a field hold that are not empty -/
def Field.contents (f : Field) : Finset Content :=
  (f.occupied.map fun p => ⟨p, f.colorAt p⟩).toFinset

/-! ## exclusive ors over lists -/

section
variable {α β : Type}

/-- the exclusive or of the values of a list -/
def xorOf (g : α → UInt64) (l : List α) : UInt64 := l.foldl (fun h a => h ^^^ g a) 0

variable {g g' : α → UInt64} {l : List α}

theorem foldl_xor (g : α → UInt64) (h : UInt64) (l : List α) :
    l.foldl (fun h a => h ^^^ g a) h = h ^^^ xorOf g l := by
  induction l generalizing h with
  | nil => exact UInt64.xor_zero.symm
  | cons a l ih =>
    rw [xorOf, List.foldl_cons, List.foldl_cons, ih, ih (0 ^^^ g a), UInt64.zero_xor,
      UInt64.xor_assoc]

theorem xorOf_cons (g : α → UInt64) (a : α) (l : List α) : xorOf g (a :: l) = g a ^^^ xorOf g l := by
  rw [xorOf, List.foldl_cons, foldl_xor, UInt64.zero_xor]

theorem xorOf_append (g : α → UInt64) (l m : List α) :
    xorOf g (l ++ m) = xorOf g l ^^^ xorOf g m := by
  rw [xorOf, List.foldl_append, foldl_xor]
  rfl

theorem xorOf_map (g : α → UInt64) (r : β → α) (l : List β) :
    xorOf g (l.map r) = xorOf (fun b => g (r b)) l := List.foldl_map

theorem xorOf_flatMap (g : α → UInt64) (r : β → List α) (l : List β) :
    xorOf g (l.flatMap r) = xorOf (fun b => xorOf g (r b)) l := by
  induction l with
  | nil => rfl
  | cons b l ih => rw [List.flatMap_cons, xorOf_append, xorOf_cons, ih]

theorem xorOf_congr (h : ∀ a ∈ l, g a = g' a) : xorOf g l = xorOf g' l := by
  induction l with
  | nil => rfl
  | cons a l ih =>
    rw [xorOf_cons, xorOf_cons, h a List.mem_cons_self, ih fun b hb => h b (List.mem_cons_of_mem a hb)]

/-- what is left out by a test may be left out of the loop, if its values are 0 -/
theorem xorOf_filter {p : α → Bool} (h : ∀ a ∈ l, p a = false → g a = 0) :
    xorOf g (l.filter p) = xorOf g l := by
  induction l with
  | nil => rfl
  | cons a l ih =>
    have hl := ih fun b hb => h b (List.mem_cons_of_mem a hb)
    by_cases ha : p a = true
    · rw [List.filter_cons_of_pos ha, xorOf_cons, xorOf_cons, hl]
    · have hzero := h a List.mem_cons_self (Bool.eq_false_of_not_eq_true ha)
      rw [List.filter_cons_of_neg ha, xorOf_cons, hzero, UInt64.zero_xor, hl]

theorem xorOf_rowsUpTo {g : Nat → UInt64} {h n : Nat} (hn : h ≤ n)
    (hg : ∀ y, h < y → y ≤ n → g y = 0) : xorOf g (rowsUpTo n) = xorOf g (rowsUpTo h) := by
  induction hn with
  | refl => rfl
  | @step n hn ih =>
    have htop := hg (n + 1) (Nat.lt_succ_of_le hn) (Nat.le_refl _)
    rw [rowsUpTo_succ, xorOf_append, ih fun y hy hy' => hg y hy (Nat.le_succ_of_le hy'), xorOf_cons,
      htop, UInt64.zero_xor]
    exact UInt64.xor_zero

end

/-- over a list without repetition the order does not count -/
theorem xorOf_key {l : List Content} (h : l.Nodup) : xorOf Content.key l = xorKeys l.toFinset := by
  induction l with
  | nil => rfl
  | cons c l ih =>
    obtain ⟨hc, hl⟩ := List.nodup_cons.mp h
    rw [List.toFinset_cons, xorKeys, Finset.fold_insert (fun hmem => hc (List.mem_toFinset.mp hmem)),
      xorOf_cons, ih hl]
    rfl

/-! ## the hash of a field -/

theorem mem_fieldCells_iff (p : Cell) : p ∈ fieldCells ↔ p.inField = true := by
  rw [Cell.inField_iff]
  exact mem_flatMap_rowsUpTo_iff 14 p

theorem nodup_fieldCells : fieldCells.Nodup := by decide +kernel

namespace Field

variable {f g : Field}

theorem mem_occupied_iff (f : Field) (p : Cell) :
    p ∈ f.occupied ↔ p.inField = true ∧ f.colorAt p ≠ .empty := by
  rw [occupied, List.mem_filter, mem_fieldCells_iff, bne_iff_ne]

theorem nodup_occupied (f : Field) : f.occupied.Nodup := nodup_fieldCells.filter _

theorem mem_contents_iff (f : Field) (c : Content) : c ∈ f.contents ↔
    c.cell.inField = true ∧ c.color ≠ .empty ∧ f.colorAt c.cell = c.color := by
  rw [contents, List.mem_toFinset, List.mem_map]
  constructor
  · rintro ⟨p, hp, rfl⟩
    obtain ⟨hin, hne⟩ := (f.mem_occupied_iff p).mp hp
    exact ⟨hin, hne, rfl⟩
  · rintro ⟨hin, hne, hcolor⟩
    have hmem : c.cell ∈ f.occupied := (f.mem_occupied_iff _).mpr ⟨hin, hcolor.trans_ne hne⟩
    exact ⟨c.cell, hmem, congrArg (Content.mk c.cell) hcolor⟩

theorem contents_congr (h : ∀ p : Cell, p.inField = true → f.colorAt p = g.colorAt p) :
    f.contents = g.contents := by
  ext c
  rw [mem_contents_iff, mem_contents_iff]
  exact and_congr_right fun hin => by rw [h c.cell hin]

theorem cellHash_of_empty {x y : Nat} (h : f.color x y = .empty) : f.cellHash x y = 0 := if_pos h

theorem cellHash_of_ne_empty {x y : Nat} (h : f.color x y ≠ .empty) :
    f.cellHash x y = Zobrist.key x y (f.color x y) := if_neg h

/-- a believed height that is too high or exact changes nothing about the hash of a column -/
theorem Covered.columnHash_eq (hf : f.Covered) {x : Nat} (hx : 1 ≤ x ∧ x ≤ 6) :
    f.columnHash x = xorOf (f.cellHash x) (rowsUpTo 14) :=
  (xorOf_rowsUpTo (hf.height_le x) fun _ hy hy' =>
    cellHash_of_empty (hf.color_eq_empty hx hy hy')).symm

theorem Covered.zobristHash_eq (hf : f.Covered) : f.zobristHash = xorKeys f.contents := by
  have hempty : ∀ p ∈ fieldCells, (f.colorAt p != .empty) = false → f.cellHash p.x p.y = 0 :=
    fun p _ hp => cellHash_of_empty (bne_eq_false_iff_eq.mp hp)
  have hoccupied : ∀ p ∈ f.occupied, f.cellHash p.x p.y = Content.key ⟨p, f.colorAt p⟩ :=
    fun p hp => cellHash_of_ne_empty ((f.mem_occupied_iff p).mp hp).2
  have hnodup : (f.occupied.map fun p => Content.mk p (f.colorAt p)).Nodup :=
    f.nodup_occupied.map fun _ _ h => (Content.mk.inj h).1
  calc f.zobristHash
      = xorOf (fun x => xorOf (f.cellHash x) (rowsUpTo 14)) fieldColumns :=
        xorOf_congr fun x hx => hf.columnHash_eq ((mem_fieldColumns_iff x).mp hx)
    _ = xorOf (fun p : Cell => f.cellHash p.x p.y) fieldCells := by
        rw [fieldCells, xorOf_flatMap]
        exact xorOf_congr fun x _ => (xorOf_map ..).symm
    _ = xorOf (fun p : Cell => f.cellHash p.x p.y) f.occupied := (xorOf_filter hempty).symm
    _ = xorOf (fun p => Content.key ⟨p, f.colorAt p⟩) f.occupied := xorOf_congr hoccupied
    _ = xorOf Content.key (f.occupied.map fun p => ⟨p, f.colorAt p⟩) := (xorOf_map ..).symm
    _ = xorKeys f.contents := xorOf_key hnodup

end Field

/-! ## small differences -/

theorem xorKeys_union_inter (s t : Finset Content) :
    xorKeys (s ∪ t) ^^^ xorKeys (s ∩ t) = xorKeys s ^^^ xorKeys t := Finset.fold_union_inter

/-- the keys of what two sets have in common cancel out -/
theorem xorKeys_symmDiff (s t : Finset Content) :
    xorKeys (symmDiff s t) = xorKeys s ^^^ xorKeys t := by
  have hunion : symmDiff s t ∪ s ∩ t = s ∪ t := symmDiff_sup_inf s t
  have hinter : symmDiff s t ∩ (s ∩ t) = ∅ := (disjoint_symmDiff_inf s t).eq_bot
  have hparts := xorKeys_union_inter (symmDiff s t) (s ∩ t)
  rw [hunion, hinter] at hparts
  calc xorKeys (symmDiff s t)
      = xorKeys (symmDiff s t) ^^^ xorKeys (s ∩ t) ^^^ xorKeys (s ∩ t) := by
        rw [UInt64.xor_assoc, UInt64.xor_self, UInt64.xor_zero]
    _ = xorKeys (s ∪ t) ^^^ xorKeys (s ∩ t) := by
        rw [← hparts]
        exact congrArg (· ^^^ xorKeys (s ∩ t)) UInt64.xor_zero
    _ = xorKeys s ^^^ xorKeys t := xorKeys_union_inter s t

theorem Content.key_ne_zero {c : Content} (h : c.cell.inField = true) : c.key ≠ 0 := by
  rw [Cell.inField_iff] at h
  exact Zobrist.key_ne_zero (by omega) (by omega)

theorem Content.key_inj {c d : Content} (hc : c.cell.inField = true) (hd : d.cell.inField = true)
    (h : c.key = d.key) : c = d := by
  rw [Cell.inField_iff] at hc hd
  obtain ⟨hx, hy, ha⟩ := Zobrist.key_inj (by omega) (by omega) (by omega) (by omega) h
  obtain ⟨⟨x, y⟩, a⟩ := c
  obtain ⟨⟨x', y'⟩, b⟩ := d
  cases hx
  cases hy
  cases ha
  rfl

theorem xorKeys_ne_zero {s : Finset Content} (hs : ∀ c ∈ s, c.cell.inField = true)
    (h : s.card = 1 ∨ s.card = 2) : xorKeys s ≠ 0 := by
  rcases h with h | h
  · obtain ⟨c, rfl⟩ := Finset.card_eq_one.mp h
    rw [xorKeys, Finset.fold_singleton, UInt64.xor_zero]
    exact Content.key_ne_zero (hs c (Finset.mem_singleton_self c))
  · obtain ⟨c, d, hne, rfl⟩ := Finset.card_eq_two.mp h
    have hc := hs c (Finset.mem_insert_self ..)
    have hd := hs d (Finset.mem_insert_of_mem (Finset.mem_singleton_self d))
    rw [xorKeys, Finset.fold_insert (by simpa using hne), Finset.fold_singleton, UInt64.xor_zero]
    intro hzero
    exact hne (Content.key_inj hc hd (UInt64.xor_eq_zero_iff.mp hzero))

namespace Field

variable {f g : Field}

theorem zobristHash_ne (hf : f.Covered) (hg : g.Covered)
    (h : (symmDiff f.contents g.contents).card = 1 ∨ (symmDiff f.contents g.contents).card = 2) :
    f.zobristHash ≠ g.zobristHash := by
  intro e
  refine xorKeys_ne_zero (fun c hc => ?_) h ?_
  · rcases Finset.mem_symmDiff.mp hc with hc | hc
    · exact ((f.mem_contents_iff c).mp hc.1).1
    · exact ((g.mem_contents_iff c).mp hc.1).1
  · rw [xorKeys_symmDiff, ← hf.zobristHash_eq, ← hg.zobristHash_eq, e, UInt64.xor_self]

end Field

end PuyoChain
