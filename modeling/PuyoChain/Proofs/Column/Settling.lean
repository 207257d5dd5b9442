import Mathlib.Data.List.GetD
import PuyoChain.Cell
import PuyoChain.Proofs.Column.Height

/-!
# What gravity does to a column

* `Column.Settled`   rows 1 to 13 hold no puyo above an empty cell;
* `Column.puyos`     the puyos of rows 1 to 13, lowest first.

Gravity writes `puyos` from the floor up and leaves row 14 alone (`color_drop`, `color_drop_top`);
no puyo falls more than 12 rows (`fall_drop_le`).
The result is settled (`settled_drop`), and an exact settled column stays as it is
(`Exact.drop_of_settled`).  A puyo that was stacked below row 14 comes to rest on top of the others
(`drop_stack`), one in row 14 stays there; either way it can be taken off the fallen column
(`Exact.pop_drop_stack`).
-/

namespace PuyoChain

/-! ## lists with blanks -/

/-- blanks after a list read like what is beyond its end -/
theorem getD_append_replicate {α : Type} (l : List α) (n i : Nat) (blank : α) :
    (l ++ List.replicate n blank).getD i blank = l.getD i blank := by
  by_cases hi : i < l.length
  · rw [List.getD_append _ _ _ _ hi]
  · rw [List.getD_append_right _ _ _ _ (by omega), List.getD_eq_default l _ (by omega),
      List.getD_eq_getElem?_getD, List.getElem?_getD_replicate_default_eq]

section
variable {l : List Color}

theorem filter_eq_nil_of_blank (h : ∀ i, l.getD i .empty = .empty) :
    l.filter (· != .empty) = [] := by
  rw [List.filter_eq_nil_iff]
  intro a ha
  obtain ⟨i, hi, rfl⟩ := List.getElem_of_mem ha
  have := h i
  rw [List.getD_eq_getElem _ _ hi] at this
  simp [this]

theorem getD_filter_of_settled (h : ∀ i, l.getD i .empty = .empty → l.getD (i + 1) .empty = .empty)
    (i : Nat) : (l.filter (· != .empty)).getD i .empty = l.getD i .empty := by
  induction l generalizing i with
  | nil => rfl
  | cons a l ih =>
    by_cases e : a = .empty
    · have hb : ∀ j, (a :: l).getD j .empty = .empty := by
        intro j
        induction j with
        | zero => exact e
        | succ j ihj => exact h j ihj
      rw [filter_eq_nil_of_blank hb, hb i]
      rfl
    · rw [List.filter_cons_of_pos (by simp [e])]
      cases i with
      | zero => rfl
      | succ i => exact ih (fun j => h (j + 1)) i

theorem filter_set_of_blank_from {n : Nat} (hn : n < l.length)
    (h : ∀ i, n ≤ i → l.getD i .empty = .empty) {a : Color} (ha : a ≠ .empty) :
    (l.set n a).filter (· != .empty) = l.filter (· != .empty) ++ [a] := by
  induction l generalizing n with
  | nil => exact absurd hn (Nat.not_lt_zero n)
  | cons b l ih =>
    cases n with
    | zero =>
      have hl : l.filter (· != .empty) = [] :=
        filter_eq_nil_of_blank fun i => h (i + 1) (Nat.zero_le _)
      rw [filter_eq_nil_of_blank (l := b :: l) fun i => h i (Nat.zero_le _), List.set_cons_zero,
        List.filter_cons_of_pos (by simp [ha]), hl]
      rfl
    | succ n =>
      have ih' := ih (Nat.lt_of_succ_lt_succ hn) fun i hi => h (i + 1) (Nat.succ_le_succ hi)
      rw [List.set_cons_succ, List.filter_cons, List.filter_cons, ih']
      split <;> rfl

end

/-! ## the longest fall -/

theorem foldl_max_le_iff (ns : List Nat) (b n : Nat) :
    ns.foldl max b ≤ n ↔ b ≤ n ∧ ∀ m ∈ ns, m ≤ n := by
  induction ns generalizing b with
  | nil => simp
  | cons m ns ih => rw [List.foldl_cons, ih, List.forall_mem_cons, Nat.max_le, and_assoc]

/-- an entry that falls to the ground falls past all others at most -/
theorem fall_settle_le {α : Type} (blank : α) (isBlank : α → Bool) (gap : Nat) (l : List α) :
    (settle blank isBlank gap l).2 ≤ gap + l.length - 1 := by
  induction l generalizing gap with
  | nil => exact Nat.zero_le _
  | cons a l ih =>
    unfold settle
    rw [List.length_cons]
    split
    · have := ih (gap + 1)
      omega
    · have := ih gap
      exact Nat.max_le.mpr ⟨by omega, by omega⟩

namespace Column

/-- rows 1 to 13 hold no puyo above an empty cell -/
def Settled (c : Column) : Prop :=
  ∀ y, 1 ≤ y → y < 13 → c.color y = .empty → c.color (y + 1) = .empty

instance (c : Column) : Decidable c.Settled :=
  decidable_of_iff (∀ y ∈ rowsUpTo 12, c.color y = .empty → c.color (y + 1) = .empty)
    ⟨fun h y h1 h12 => h y ((mem_rowsUpTo_iff 12 y).mpr ⟨h1, by omega⟩), fun h y hy => by
      rw [mem_rowsUpTo_iff] at hy
      exact h y hy.1 (by omega)⟩

/-- the puyos of rows 1 to 13, lowest first -/
def puyos (c : Column) : List Color := (c.cells.toList.take 13).filter (· != .empty)

theorem color_eq_getD (c : Column) (y : Nat) (h : 1 ≤ y) (h' : y ≤ 14) :
    c.color y = c.cells.toList.getD (y - 1) .empty := by
  unfold color
  rw [dif_pos ⟨h, h'⟩, List.getD_eq_getElem _ _ (by simp; omega), Vector.getElem_toList]

theorem getD_take (c : Column) (i : Nat) :
    (c.cells.toList.take 13).getD i .empty = if i < 13 then c.color (i + 1) else .empty := by
  by_cases h : i < 13
  · rw [if_pos h, color_eq_getD c (i + 1) (by omega) (by omega), Nat.add_sub_cancel,
      List.getD_eq_getElem _ _ (by simp; omega), List.getD_eq_getElem _ _ (by simp; omega),
      List.getElem_take]
  · rw [if_neg h, List.getD_eq_default]
    simp
    omega

theorem map_color_rowsUpTo (c : Column) : (rowsUpTo 13).map c.color = c.cells.toList.take 13 := by
  refine List.ext_getElem (by simp [rowsUpTo]) fun i h _ => ?_
  have hi : i < 13 := by simpa [rowsUpTo] using h
  have hcolor : c.color (i + 1) = c.cells[i] := by
    unfold color
    rw [dif_pos (by omega)]
    rfl
  simp [rowsUpTo, hcolor]

theorem length_puyos_le (c : Column) : c.puyos.length ≤ 13 := by
  have h := List.length_filter_le (· != Color.empty) (c.cells.toList.take 13)
  have h' := List.length_take_le 13 c.cells.toList
  unfold puyos
  omega

theorem puyo_ne_empty (c : Column) {i : Nat} (h : i < c.puyos.length) :
    c.puyos.getD i .empty ≠ .empty := by
  rw [List.getD_eq_getElem _ _ h]
  intro e
  have hm : c.puyos[i] ∈ (c.cells.toList.take 13).filter (· != .empty) := List.getElem_mem h
  rw [e, List.mem_filter] at hm
  exact absurd hm.2 (by decide)

/-! ## the fallen column -/

theorem toList_drop (c : Column) :
    c.drop.1.cells.toList = (c.puyos ++ List.replicate (13 - c.puyos.length) .empty) ++
      c.cells.toList.drop 13 := by
  show (settle .empty (· == .empty) 0 (c.cells.toList.take 13)).1 ++ c.cells.toList.drop 13 = _
  have hlen := settle_length Color.empty (· == .empty) 0 (c.cells.toList.take 13)
  have hent := settle_entries Color.empty (· == .empty) 0 (c.cells.toList.take 13)
  have hp : (c.cells.toList.take 13).filter (fun a => !(a == .empty)) = c.puyos := rfl
  rw [hp] at hent
  rw [hent] at hlen ⊢
  congr 3
  simp only [List.length_append, List.length_replicate, List.length_take, Vector.length_toList]
    at hlen
  omega

theorem color_drop (c : Column) (y : Nat) (h : 1 ≤ y) (h' : y ≤ 13) :
    c.drop.1.color y = c.puyos.getD (y - 1) .empty := by
  rw [color_eq_getD _ y h (by omega), toList_drop, List.getD_append _ _ _ _ (by simp; omega),
    getD_append_replicate]

theorem color_drop_top (c : Column) : c.drop.1.color 14 = c.color 14 := by
  have hl := c.length_puyos_le
  have e : (c.puyos ++ List.replicate (13 - c.puyos.length) Color.empty).length = 13 := by
    simp
    omega
  rw [color_eq_getD _ 14 (by omega) (by omega), color_eq_getD c 14 (by omega) (by omega),
    toList_drop, List.getD_append_right _ _ _ _ (by omega), e]
  simp [List.getD_eq_getElem?_getD]

theorem fall_drop_le (c : Column) : c.drop.2 ≤ 12 := by
  have hle := fall_settle_le Color.empty (· == .empty) 0 (c.cells.toList.take 13)
  have hlen := List.length_take_le 13 c.cells.toList
  exact Nat.le_trans hle (by omega)

theorem settled_drop (c : Column) : c.drop.1.Settled := by
  intro y h h' he
  rw [color_drop c y h (by omega)] at he
  rw [color_drop c (y + 1) (by omega) (by omega), List.getD_eq_default]
  by_contra hn
  exact c.puyo_ne_empty (i := y - 1) (by omega) he

theorem height_drop {c : Column} (h : c.color 14 = .empty) :
    c.drop.1.height = c.puyos.length := by
  have hl := c.length_puyos_le
  show c.drop.1.top = _
  refine c.drop.1.top_eq _ (by omega) ?_ fun y hy hy' => ?_
  · by_cases e : c.puyos.length = 0
    · exact Or.inl e
    · rw [color_drop c _ (by omega) hl]
      exact Or.inr (c.puyo_ne_empty (by omega))
  · by_cases e : y = 14
    · rw [e, color_drop_top, h]
    · rw [color_drop c y (by omega) (by omega), List.getD_eq_default _ _ (by omega)]

/-- there are no more puyos than rows up to one above which all is empty -/
theorem length_puyos_le_of_empty_above {c : Column} {n : Nat}
    (h : ∀ y, n < y → y ≤ 13 → c.color y = .empty) : c.puyos.length ≤ n := by
  have habove : ((c.cells.toList.take 13).drop n).filter (· != .empty) = [] := by
    refine filter_eq_nil_of_blank fun i => ?_
    rw [List.getD_eq_getElem?_getD, List.getElem?_drop, ← List.getD_eq_getElem?_getD, getD_take]
    split
    · exact h (n + i + 1) (by omega) (by omega)
    · rfl
  have hle := List.length_filter_le (· != Color.empty) ((c.cells.toList.take 13).take n)
  have hn := List.length_take_le n (c.cells.toList.take 13)
  unfold puyos
  rw [← List.take_append_drop n (c.cells.toList.take 13), List.filter_append, habove,
    List.append_nil]
  omega

theorem color_drop_of_empty_above {c : Column} {n : Nat}
    (h : ∀ y, n < y → y ≤ 13 → c.color y = .empty) (y : Nat) (hy : n < y) (hy' : y ≤ 13) :
    c.drop.1.color y = .empty := by
  have hl := length_puyos_le_of_empty_above h
  rw [color_drop c y (by omega) hy']
  exact List.getD_eq_default _ _ (by omega)

theorem height_drop_le {c : Column} (hc : c.Covered) (h : c.height < 14) :
    c.drop.1.height ≤ c.height := by
  rw [height_drop (hc.2 14 h (by omega))]
  exact length_puyos_le_of_empty_above fun y hy hy' => hc.2 y hy (by omega)

theorem Settled.getD_puyos {c : Column} (hs : c.Settled) (i : Nat) (h : i < 13) :
    c.puyos.getD i .empty = c.color (i + 1) := by
  unfold puyos
  rw [getD_filter_of_settled fun j hj => ?_, getD_take, if_pos h]
  rw [getD_take] at hj ⊢
  by_cases e : j + 1 < 13
  · rw [if_pos (by omega)] at hj
    rw [if_pos e]
    exact hs (j + 1) (by omega) e hj
  · rw [if_neg e]

/-- gravity only counts the height of a settled column -/
theorem Settled.drop {c : Column} (hs : c.Settled) : c.drop.1 = c.recount := by
  refine (exact_drop c).ext (exact_recount c) fun y h h' => ?_
  rw [color_recount]
  by_cases e : y = 14
  · rw [e, color_drop_top]
  · rw [color_drop c y h (by omega), hs.getD_puyos (y - 1) (by omega), Nat.sub_add_cancel h]

theorem Exact.drop_of_settled {c : Column} (hc : c.Exact) (hs : c.Settled) : c.drop.1 = c := by
  rw [hs.drop, hc.recount]

/-! ## gravity on a stacked column -/

theorem Exact.settled_stack {c : Column} (hc : c.Exact) (hs : c.Settled) (h : c.height < 14)
    (a : Color) : (c.stack a).Settled := by
  intro y hy hy' he
  rw [color_stack h] at he ⊢
  have above := hc.covered.2
  by_cases e : y = c.height
  · rw [if_neg (by omega), e] at he
    exact absurd he (hc.color_ne_empty (by omega))
  · rw [if_neg (by omega)]
    by_cases e' : y = c.height + 1
    · exact above (y + 1) (by omega) (by omega)
    · rw [if_neg e'] at he
      exact hs y hy hy' he

theorem cells_stack {c : Column} (h : c.height < 14) (a : Color) :
    (c.stack a).cells.toList = c.cells.toList.set c.height a := by
  unfold stack put
  rw [dif_pos ⟨by omega, by omega⟩]
  exact Vector.toList_set h

theorem puyos_stack {c : Column} (hc : c.Covered) (h : c.height < 13) {a : Color}
    (ha : a ≠ .empty) : (c.stack a).puyos = c.puyos ++ [a] := by
  unfold puyos
  rw [cells_stack (by omega), List.take_set]
  refine filter_set_of_blank_from ?_ (fun i hi => ?_) ha
  · simp
    omega
  · rw [getD_take]
    split
    · exact hc.2 (i + 1) (by omega) (by omega)
    · rfl

theorem puyos_stack_of_height_eq {c : Column} (h : c.height = 13) (a : Color) :
    (c.stack a).puyos = c.puyos := by
  unfold puyos
  rw [cells_stack (by omega), List.take_set, h]
  congr 1
  exact List.set_eq_of_length_le (by simp)

/-- a puyo stacked below row 14 falls on top of the fallen column -/
theorem drop_stack {c : Column} (hc : c.Covered) (h : c.height < 13) {a : Color}
    (ha : a ≠ .empty) : (c.stack a).drop.1 = c.drop.1.stack a := by
  have h14 : c.color 14 = .empty := hc.2 14 (by omega) (by omega)
  have hh := height_drop h14
  have hp := puyos_stack hc h ha
  have hl : (c.stack a).puyos.length ≤ 13 := length_puyos_le _
  rw [hp, List.length_append, List.length_singleton] at hl
  refine (exact_drop _).ext ((exact_drop c).stack (by omega) ha) fun y hy hy' => ?_
  rw [color_stack (by omega), hh]
  by_cases e : y = 14
  · rw [e, color_drop_top, color_drop_top, if_neg (by omega), color_stack (by omega),
      if_neg (by omega)]
  · rw [color_drop _ y hy (by omega), color_drop c y hy (by omega), hp]
    by_cases e1 : y - 1 < c.puyos.length
    · rw [List.getD_append _ _ _ _ e1, if_neg (by omega)]
    · rw [List.getD_append_right _ _ _ _ (by omega)]
      by_cases e2 : y = c.puyos.length + 1
      · rw [if_pos e2, show y - 1 - c.puyos.length = 0 by omega]
        rfl
      · rw [if_neg e2, List.getD_eq_default _ _ (by simp; omega),
          List.getD_eq_default _ _ (by omega)]

/-- a puyo stacked in row 14 changes nothing below -/
theorem color_drop_stack_of_height_eq {c : Column} (h : c.height = 13) (a : Color) (y : Nat)
    (hy : 1 ≤ y) (hy' : y ≤ 13) : (c.stack a).drop.1.color y = c.drop.1.color y := by
  rw [color_drop _ y hy hy', color_drop c y hy hy', puyos_stack_of_height_eq h]

/-- a stacked puyo does not move the others -/
theorem color_drop_stack {c : Column} (hc : c.Covered) (h : c.height < 14) {a : Color}
    (ha : a ≠ .empty) (y : Nat) (hy : 1 ≤ y) (hy' : y ≤ 13) (hne : c.drop.1.color y ≠ .empty) :
    (c.stack a).drop.1.color y = c.drop.1.color y := by
  by_cases e : c.height < 13
  · have hle := height_drop_le hc h
    rw [drop_stack hc e ha, color_stack (by omega), if_neg]
    rintro rfl
    exact hne ((exact_drop c).covered.2 _ (by omega) (by omega))
  · exact color_drop_stack_of_height_eq (by omega) a y hy hy'

/-- what was stacked on an exact column comes off again after gravity -/
theorem Exact.pop_drop_stack {c : Column} (hc : c.Exact) (h : c.height < 14) {a : Color}
    (ha : a ≠ .empty) : (c.stack a).drop.1.pop = c.drop.1 := by
  have h14 : c.color 14 = .empty := hc.covered.2 14 h (by omega)
  have hh := height_drop h14
  have hl := c.length_puyos_le
  by_cases e : c.height < 13
  · rw [drop_stack hc.covered e ha]
    exact (exact_drop c).pop_stack (by omega) a
  · -- the puyo stands in row 14 and does not fall
    have e13 : c.height = 13 := by omega
    have ht : (c.stack a).color 14 = a := by rw [color_stack h, if_pos (by omega)]
    have htop : (c.stack a).drop.1.height = 14 := by
      show (c.stack a).drop.1.top = 14
      refine (c.stack a).drop.1.top_eq 14 (by omega) (Or.inr ?_) fun y hy hy' => absurd hy (by omega)
      rw [color_drop_top, ht]
      exact ha
    rw [pop_of_height_ne_zero (by omega), htop]
    refine (exact_recount _).ext (exact_drop c) fun y hy hy' => ?_
    rw [color_recount, color_put _ _ _ ⟨by omega, by omega⟩]
    by_cases ey : y = 14
    · rw [if_pos ey, ey, color_drop_top, h14]
    · rw [if_neg ey, color_drop_stack_of_height_eq e13 a y hy (by omega)]

end Column

end PuyoChain
