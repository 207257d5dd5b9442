import PuyoChain.Proofs.Field.Reading

/-!
# The text form of a field and back

* `Field.Unwalled`         no cell of a field holds a wall;
* `spelledBy_toChars`      the text form of a field with true heights and no wall spells it, for line
                           ends stand only between its rows (`cellText_charsFrom`);
* `ofText_reads_spellings` so a text is read just if it spells a field, and every such field is read
                           from its own text form.
-/

namespace PuyoChain

namespace Field

variable {f : Field} {cs : List Char}

/-- no cell of the field holds a wall -/
def Unwalled (f : Field) : Prop := ∀ x y, 1 ≤ x → x ≤ 6 → 1 ≤ y → y ≤ 14 → f.color x y ≠ .wall

theorem SpelledBy.unwalled (h : f.SpelledBy cs) : f.Unwalled := by
  intro x y h1 h6 hy hy' hwall
  have hletters : ∀ c, (c, Color.wall) ∉ cellLetters := by
    intro c hc
    have hall : ∀ e ∈ cellLetters, e.2 ≠ .wall := by decide
    exact hall _ hc rfl
  by_cases hrow : y ≤ cs.length / 6
  · obtain ⟨c, _, hc⟩ := h.named x y h1 h6 hy hrow
    rw [hwall] at hc
    exact hletters c hc
  · rw [h.above x y h1 h6 (by omega) hy'] at hwall
    cases hwall

theorem toChar_mem_cellLetters {a : Color} (h : a ≠ .wall) : (a.toChar, a) ∈ cellLetters := by
  cases a with
  | wall => exact absurd rfl h
  | empty | garbage | red | blue | yellow | green => decide

/-- the rows from `n` down to 1 -/
def rowsFrom (f : Field) (n : Nat) : List Char := (rowsUpTo n).reverse.flatMap f.rowChars

theorem rowsFrom_succ (f : Field) (n : Nat) :
    f.rowsFrom (n + 1) = f.rowChars (n + 1) ++ f.rowsFrom n := by
  rw [rowsFrom, rowsUpTo_succ, List.reverse_append, List.reverse_singleton, List.flatMap_append,
    List.flatMap_singleton]
  rfl

theorem length_rowsFrom (f : Field) (n : Nat) : (f.rowsFrom n).length = 6 * n := by
  induction n with
  | zero => rfl
  | succ n ih =>
    have hrow : (f.rowChars (n + 1)).length = 6 := rfl
    rw [rowsFrom_succ, List.length_append, ih, hrow]
    omega

theorem textRow_rowsFrom (f : Field) (n : Nat) {y : Nat} (hy : 1 ≤ y) (hn : y ≤ n) :
    textRow (f.rowsFrom n) y = f.rowChars y := by
  rw [textRow, length_rowsFrom]
  induction n with
  | zero => omega
  | succ n ih =>
    have hrow : (f.rowChars (n + 1)).length = 6 := rfl
    rw [rowsFrom_succ]
    by_cases e : y = n + 1
    · rw [e, Nat.sub_self, List.drop_zero, ← hrow]
      exact List.take_left
    · have hskip : 6 * (n + 1) - 6 * y = (f.rowChars (n + 1)).length + (6 * n - 6 * y) := by omega
      rw [hskip, List.drop_length_add_append]
      exact ih (by omega)

/-- line ends stand only between rows -/
theorem cellText_charsFrom (f : Field) (n : Nat) : cellText (f.charsFrom n) = f.rowsFrom n := by
  have hrow : ∀ y, cellText (f.rowChars y) = f.rowChars y := by
    intro y
    rw [cellText, List.filter_eq_self, rowChars, List.forall_mem_map]
    intro x _
    cases f.color x y <;> decide
  induction n with
  | zero => rfl
  | succ n ih =>
    rw [rowsFrom_succ, ← ih]
    cases n with
    | zero =>
      show cellText (f.rowChars 1) = _
      rw [hrow]
      exact (List.append_nil _).symm
    | succ n =>
      show cellText (f.rowChars (n + 2) ++ ['\n'] ++ f.charsFrom (n + 1)) = _
      rw [cellText, List.filter_append, List.filter_append]
      show cellText (f.rowChars (n + 2)) ++ [] ++ cellText (f.charsFrom (n + 1)) = _
      rw [hrow, List.append_nil]

theorem height_le_topRow (f : Field) {x : Nat} (hx : 1 ≤ x ∧ x ≤ 6) : f.height x ≤ f.topRow := by
  have hall := (foldl_max_le_iff (fieldColumns.map f.height) 0 f.topRow).mp (Nat.le_refl _)
  exact hall.2 _ (List.mem_map_of_mem ((mem_fieldColumns_iff x).mpr hx))

theorem Covered.topRow_le (hf : f.Covered) : f.topRow ≤ 14 := by
  refine (foldl_max_le_iff _ 0 14).mpr ⟨Nat.zero_le _, fun n hn => ?_⟩
  obtain ⟨x, _, rfl⟩ := List.mem_map.mp hn
  exact hf.height_le x

/-- the text form of a field spells it -/
theorem spelledBy_toChars (hf : f.Exact) (hw : f.Unwalled) : f.SpelledBy (cellText f.toChars) := by
  have hcov := hf.covered
  have htop := hcov.topRow_le
  have hlen := f.length_rowsFrom f.topRow
  rw [toChars, cellText_charsFrom]
  refine ⟨by omega, by omega, fun x y h1 h6 hy hy' => ?_, fun x y h1 h6 hy hy' => ?_, hf⟩
  · refine ⟨(f.color x y).toChar, ?_, toChar_mem_cellLetters (hw x y h1 h6 hy (by omega))⟩
    have hcolumn : fieldColumns[x - 1]? = some x := by
      have hall : ∀ x ∈ fieldColumns, fieldColumns[x - 1]? = some x := by decide
      exact hall x ((mem_fieldColumns_iff x).mpr ⟨h1, h6⟩)
    rw [f.textRow_rowsFrom _ hy (by omega), rowChars, List.getElem?_map, hcolumn]
    rfl
  · have hle := f.height_le_topRow ⟨h1, h6⟩
    exact hcov.color_eq_empty ⟨h1, h6⟩ (by omega) hy'

theorem ofText_text (hf : f.Exact) (hw : f.Unwalled) : ofText f.text = .ok f := by
  rw [ofText, text, String.toList_ofList]
  exact ofChars_eq_ok_iff.mpr (spelledBy_toChars hf hw)

/-- **The text form is read exactly, and back.**  A text is read just if, without its line ends, it
fills whole rows, at most 14, with characters that name cells; each cell then has the color of its
character, and the believed heights are the true ones.  Otherwise the error tells of the number of
characters, else of the number of rows, else of the first character that names no cell, bottom row
first and each row from the left.  A field with true heights and no wall is read from its text form,
and so fields that are read are told apart by their text forms. -/
theorem ofText_reads_spellings :
    (∀ s : String, (∃ f, ofText s = .ok f) ↔
      (cellText s.toList).length % 6 = 0 ∧ (cellText s.toList).length / 6 ≤ 14 ∧
        ∀ c ∈ cellText s.toList, c ∈ cellChars) ∧
    (∀ (s : String) (f : Field), ofText s = .ok f ↔ f.SpelledBy (cellText s.toList)) ∧
    (∀ (s : String) (e : ParseError), ofText s = .error e ↔
      ((cellText s.toList).length % 6 ≠ 0 ∧ e = .raggedField (cellText s.toList).length) ∨
      ((cellText s.toList).length % 6 = 0 ∧ 14 < (cellText s.toList).length / 6 ∧
        e = .tooTall ((cellText s.toList).length / 6)) ∨
      ((cellText s.toList).length % 6 = 0 ∧ (cellText s.toList).length / 6 ≤ 14 ∧
        ∃ c, firstBad? (readingOrder (cellText s.toList)) = some c ∧ e = .invalidChar c)) ∧
    (∀ f : Field, f.Exact → f.Unwalled → ofText f.text = .ok f) ∧
    ∀ (s t : String) (f g : Field), ofText s = .ok f → ofText t = .ok g →
      (f = g ↔ f.text = g.text) := by
  refine ⟨fun s => ⟨fun ⟨f, hf⟩ => ?_, fun ⟨h6, h14, hall⟩ => ?_⟩, fun s f => ofChars_eq_ok_iff,
    fun s e => ofChars_eq_error_iff, fun f => ofText_text, fun s t f g hs ht => ?_⟩
  · have h := ofChars_eq_ok_iff.mp hf
    have hwhole := h.whole
    have hgood := (firstBad?_eq_none_iff _).mp h.firstBad?
    refine ⟨hwhole, h.fits, fun c hc => hgood c ?_⟩
    exact (mem_readingOrder_iff (n := (cellText s.toList).length / 6) (by omega) c).mpr hc
  · obtain ⟨f, hf, _⟩ := exists_spelledBy h6 h14 ((firstBad?_eq_none_iff _).mpr fun c hc =>
      hall c ((mem_readingOrder_iff (n := (cellText s.toList).length / 6) (by omega) c).mp hc))
    exact ⟨f, hf⟩
  · refine ⟨fun e => by rw [e], fun e => ?_⟩
    have hf := ofChars_eq_ok_iff.mp hs
    have hg := ofChars_eq_ok_iff.mp ht
    have hread := ofText_text hf.exact hf.unwalled
    rw [e, ofText_text hg.exact hg.unwalled] at hread
    exact (Except.ok.inj hread).symm

/-- a puyo in the top row, one on the floor, and garbage that hangs between -/
def puyosApart : Field := ((empty.set 2 14 .red).set 4 1 .blue).set 4 13 .garbage

theorem ofText_reads_spellings_puyosApart :
    puyosApart.Exact ∧ puyosApart.Unwalled ∧ ofText puyosApart.text = .ok puyosApart ∧
      ofText "\nr.....\r" = .ok (empty.set 1 1 .red) ∧
      (puyosApart = empty.set 1 1 .red ↔ puyosApart.text = (empty.set 1 1 .red).text) ∧
      ofText "RX....X" = .error (.raggedField 7) ∧
      ofText "X.....\n..#..Y" = .error (.invalidChar '#') := by
  have hexact : puyosApart.Exact := by decide +kernel
  have hcells : ∀ x ∈ fieldColumns, ∀ y ∈ rowsUpTo 14, puyosApart.color x y ≠ .wall := by
    decide +kernel
  have hwall : puyosApart.Unwalled := fun x y h1 h6 hy hy' =>
    hcells x ((mem_fieldColumns_iff x).mpr ⟨h1, h6⟩) y ((mem_rowsUpTo_iff 14 y).mpr ⟨hy, hy'⟩)
  have hsingle : ofText "\nr.....\r" = .ok (empty.set 1 1 .red) := by rfl
  obtain ⟨_, _, herror, hback, htold⟩ := ofText_reads_spellings
  have hread := hback _ hexact hwall
  exact ⟨hexact, hwall, hread, hsingle, htold _ _ _ _ hread hsingle,
    (herror _ _).mpr (Or.inl ⟨by decide, rfl⟩),
    (herror _ _).mpr (Or.inr (Or.inr ⟨by decide, by decide, '#', by decide, rfl⟩))⟩

end Field

end PuyoChain
