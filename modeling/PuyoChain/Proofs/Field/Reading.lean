import Mathlib.Data.List.Forall2
import PuyoChain.Field.Text
import PuyoChain.Proofs.Field.Columns

/-!
# Reading a field from its text

* `cellLetters`        the characters that name the content of a cell, with their colors;
* `cellText`, `textRow`   a text without its line ends, and its rows from the end;
* `readingOrder`       the characters in the order in which they are read;
* `Field.SpelledBy`    the field that a text spells;
* `ofChars_eq_ok_iff`, `ofChars_eq_error_iff`   a text is read just if it spells a field, and what is
                       wrong with it otherwise.

Rows are cut off from the start of the text and read from its end (`reverse_textRows`).  The colors
of rows are read all or, at the first character that names none, not at all (`exists_rowsOfChars`,
`rowsOfChars_of_firstBad?`).
-/

namespace PuyoChain

/-! ## characters -/

/-- the characters that name the content of a cell, with the colors that they name -/
def cellLetters : List (Char × Color) := [
  (' ', .empty), ('.', .empty), ('O', .garbage), ('o', .garbage), ('R', .red), ('r', .red),
  ('B', .blue), ('b', .blue), ('Y', .yellow), ('y', .yellow), ('G', .green), ('g', .green)]

/-- the characters that name the content of a cell -/
def cellChars : List Char := cellLetters.map Prod.fst

theorem mem_cellChars_iff (c : Char) : c ∈ cellChars ↔ ∃ a, (c, a) ∈ cellLetters := by
  simp only [cellChars, List.mem_map, Prod.exists, exists_and_right, exists_eq_right]

theorem cellOfChar_of_mem {c : Char} {a : Color} (h : (c, a) ∈ cellLetters) :
    cellOfChar c = .ok a := by
  have hall : ∀ e ∈ cellLetters, Color.ofChar? e.1 = some e.2 ∧ e.2 ≠ .wall := by decide
  obtain ⟨hcolor, hwall⟩ := hall _ h
  dsimp only at hcolor hwall
  rw [cellOfChar, hcolor]
  cases a with
  | wall => exact absurd rfl hwall
  | empty | garbage | red | blue | yellow | green => rfl

theorem cellOfChar_of_not_mem {c : Char} (h : c ∉ cellChars) :
    cellOfChar c = .error (.invalidChar c) := by
  simp only [cellChars, cellLetters, List.map_cons, List.map_nil, List.mem_cons, List.not_mem_nil,
    or_false, not_or] at h
  unfold cellOfChar Color.ofChar?
  simp only [h, decide_false, Bool.or_self, Bool.false_eq_true, if_false]
  by_cases hw : c = '#'
  · rw [if_pos hw]
  · rw [if_neg hw]

/-- a character names one color -/
theorem color_unique {c : Char} {a b : Color} (ha : (c, a) ∈ cellLetters)
    (hb : (c, b) ∈ cellLetters) : a = b := by
  have h := (cellOfChar_of_mem ha).symm.trans (cellOfChar_of_mem hb)
  exact Except.ok.inj h

/-! ## rows of characters -/

/-- the first character of a text that names no cell content -/
def firstBad? (cs : List Char) : Option Char := cs.find? fun c => decide (c ∉ cellChars)

theorem firstBad?_eq_none_iff (cs : List Char) : firstBad? cs = none ↔ ∀ c ∈ cs, c ∈ cellChars := by
  simp [firstBad?]

/-- a row of characters names a row of colors -/
def Names (cs : List Char) (as : List Color) : Prop :=
  List.Forall₂ (fun c a => (c, a) ∈ cellLetters) cs as

theorem exists_cellsOfChars {cs : List Char} (h : firstBad? cs = none) :
    ∃ as, cellsOfChars cs = .ok as ∧ Names cs as := by
  rw [firstBad?_eq_none_iff] at h
  induction cs with
  | nil => exact ⟨[], rfl, .nil⟩
  | cons c cs ih =>
    obtain ⟨hc, hcs⟩ := List.forall_mem_cons.mp h
    obtain ⟨a, ha⟩ := (mem_cellChars_iff c).mp hc
    obtain ⟨as, has, hnames⟩ := ih hcs
    refine ⟨a :: as, ?_, .cons ha hnames⟩
    rw [cellsOfChars, cellOfChar_of_mem ha, has]
    rfl

theorem cellsOfChars_of_firstBad? {cs : List Char} {c : Char} (h : firstBad? cs = some c) :
    cellsOfChars cs = .error (.invalidChar c) := by
  induction cs with
  | nil => cases h
  | cons d cs ih =>
    by_cases hd : d ∈ cellChars
    · obtain ⟨a, ha⟩ := (mem_cellChars_iff d).mp hd
      have htail : firstBad? cs = some c := by
        rwa [firstBad?, List.find?_cons_of_neg (by simpa using hd)] at h
      rw [cellsOfChars, cellOfChar_of_mem ha, ih htail]
      rfl
    · rw [firstBad?, List.find?_cons_of_pos (by simpa using hd)] at h
      rw [cellsOfChars, cellOfChar_of_not_mem hd, Option.some.inj h]
      rfl

theorem firstBad?_append (cs ds : List Char) :
    firstBad? (cs ++ ds) = (firstBad? cs).or (firstBad? ds) := List.find?_append

theorem exists_rowsOfChars {rows : List (List Char)} (h : firstBad? rows.flatten = none) :
    ∃ css, rowsOfChars rows = .ok css ∧ List.Forall₂ Names rows css := by
  induction rows with
  | nil => exact ⟨[], rfl, .nil⟩
  | cons row rows ih =>
    rw [List.flatten_cons, firstBad?_append, Option.or_eq_none_iff] at h
    obtain ⟨as, has, hrow⟩ := exists_cellsOfChars h.1
    obtain ⟨css, hcss, hrows⟩ := ih h.2
    refine ⟨as :: css, ?_, .cons hrow hrows⟩
    rw [rowsOfChars, has, hcss]
    rfl

theorem rowsOfChars_of_firstBad? {rows : List (List Char)} {c : Char}
    (h : firstBad? rows.flatten = some c) : rowsOfChars rows = .error (.invalidChar c) := by
  induction rows with
  | nil => cases h
  | cons row rows ih =>
    rw [List.flatten_cons, firstBad?_append] at h
    cases hrow : firstBad? row with
    | none =>
      obtain ⟨as, has, _⟩ := exists_cellsOfChars hrow
      rw [hrow, Option.none_or] at h
      rw [rowsOfChars, has, ih h]
      rfl
    | some d =>
      rw [hrow, Option.some_or] at h
      rw [rowsOfChars, cellsOfChars_of_firstBad? hrow, Option.some.inj h]
      rfl

/-! ## the rows of a text -/

/-- a text without its line ends -/
def cellText (cs : List Char) : List Char := cs.filter fun c => c != '\n' && c != '\r'

/-- the `y`-th row of six characters from the end of a text -/
def textRow (cs : List Char) (y : Nat) : List Char := (cs.drop (cs.length - 6 * y)).take 6

/-- the characters of a text as they are read, bottom row first and each row from the left -/
def readingOrder (cs : List Char) : List Char := (rowsUpTo (cs.length / 6)).flatMap (textRow cs)

variable {cs : List Char} {n : Nat}

theorem length_textRow (h : cs.length = 6 * n) {y : Nat} (hy : 1 ≤ y ∧ y ≤ n) :
    (textRow cs y).length = 6 := by
  rw [textRow, List.length_take, List.length_drop]
  omega

theorem flatten_textRows (h : cs.length = 6 * n) : (textRows n cs).flatten = cs := by
  induction n generalizing cs with
  | zero => exact (List.eq_nil_of_length_eq_zero h).symm
  | succ n ih =>
    have hrest : (cs.drop 6).length = 6 * n := by
      rw [List.length_drop]
      omega
    rw [textRows, List.flatten_cons, ih hrest, List.take_append_drop]

/-- the rows cut off from the start are those read from the end -/
theorem reverse_textRows (h : cs.length = 6 * n) :
    (textRows n cs).reverse = (rowsUpTo n).map (textRow cs) := by
  induction n generalizing cs with
  | zero => rfl
  | succ n ih =>
    have hrest : (cs.drop 6).length = 6 * n := by
      rw [List.length_drop]
      omega
    have hlast : textRow cs (n + 1) = cs.take 6 := by
      rw [textRow, h, Nat.sub_self, List.drop_zero]
    rw [textRows, List.reverse_cons, ih hrest, rowsUpTo_succ, List.map_append, List.map_singleton,
      hlast]
    refine congrArg (· ++ _) (List.map_congr_left fun y hy => ?_)
    rw [mem_rowsUpTo_iff] at hy
    rw [textRow, textRow, List.drop_drop, List.length_drop]
    congr 2
    omega

theorem flatten_reverse_textRows (h : cs.length = 6 * n) :
    (textRows n cs).reverse.flatten = readingOrder cs := by
  have hn : cs.length / 6 = n := by omega
  rw [reverse_textRows h, readingOrder, hn, List.flatMap]

theorem mem_readingOrder_iff (h : cs.length = 6 * n) (c : Char) : c ∈ readingOrder cs ↔ c ∈ cs := by
  rw [← flatten_reverse_textRows h]
  conv_rhs => rw [← flatten_textRows h]
  simp only [List.mem_flatten, List.mem_reverse]

namespace Field

theorem exact_ofRows (rows : List (List Color)) : (ofRows rows).Exact := by
  intro x c hc
  unfold column? at hc
  split at hc
  · rw [← Option.some.inj hc]
    unfold ofRows
    rw [Vector.getElem_ofFn]
    exact Column.exact_recount _
  · cases hc

/-! ## what a text spells -/

/-- the field that a text without line ends spells: the character of a cell names its color, and the
rows above the text are empty -/
structure SpelledBy (f : Field) (cs : List Char) : Prop where
  whole : cs.length % 6 = 0
  fits : cs.length / 6 ≤ 14
  named : ∀ x y, 1 ≤ x → x ≤ 6 → 1 ≤ y → y ≤ cs.length / 6 →
    ∃ c, (textRow cs y)[x - 1]? = some c ∧ (c, f.color x y) ∈ cellLetters
  above : ∀ x y, 1 ≤ x → x ≤ 6 → cs.length / 6 < y → y ≤ 14 → f.color x y = .empty
  exact : f.Exact

variable {f g : Field}

theorem SpelledBy.unique (hf : f.SpelledBy cs) (hg : g.SpelledBy cs) : f = g := by
  have hcolor : ∀ x y, 1 ≤ x → x ≤ 6 → 1 ≤ y → y ≤ 14 → f.color x y = g.color x y := by
    intro x y h1 h6 hy hy'
    by_cases hrow : y ≤ cs.length / 6
    · obtain ⟨c, hc, hfc⟩ := hf.named x y h1 h6 hy hrow
      obtain ⟨d, hd, hgd⟩ := hg.named x y h1 h6 hy hrow
      obtain rfl := Option.some.inj (hc.symm.trans hd)
      exact color_unique hfc hgd
    · rw [hf.above x y h1 h6 (by omega) hy', hg.above x y h1 h6 (by omega) hy']
  exact hf.exact.ext_color hg.exact hcolor

/-- every character of a spelling stands for a cell -/
theorem SpelledBy.firstBad? (h : f.SpelledBy cs) : firstBad? (readingOrder cs) = none := by
  rw [firstBad?_eq_none_iff]
  intro c hc
  obtain ⟨y, hy, hc⟩ := List.mem_flatMap.mp hc
  rw [mem_rowsUpTo_iff] at hy
  have hwhole : cs.length = 6 * (cs.length / 6) := by
    have hrows := h.whole
    omega
  have hlen := length_textRow hwhole hy
  obtain ⟨i, hi, rfl⟩ := List.getElem_of_mem hc
  rw [hlen] at hi
  obtain ⟨d, hd, hletter⟩ := h.named (i + 1) y (by omega) (by omega) hy.1 hy.2
  rw [Nat.add_sub_cancel, List.getElem?_eq_getElem (by omega)] at hd
  rw [Option.some.inj hd]
  exact (mem_cellChars_iff d).mpr ⟨_, hletter⟩

/-! ## reading -/

theorem color_ofRows (rows : List (List Color)) {x y : Nat} (hx : 1 ≤ x ∧ x ≤ 6)
    (hy : 1 ≤ y ∧ y ≤ 14) :
    (ofRows rows).color x y = (rows.getD (y - 1) []).getD (x - 1) .empty := by
  unfold color
  rw [dif_pos hx]
  unfold ofRows
  rw [Vector.getElem_ofFn, Column.color_recount]
  unfold Column.color
  rw [dif_pos hy, Vector.getElem_ofFn]

theorem spelledBy_ofRows {css : List (List Color)} {n : Nat} (hlen : cs.length = 6 * n)
    (hn : n ≤ 14) (h : List.Forall₂ Names ((rowsUpTo n).map (textRow cs)) css) :
    (ofRows css).SpelledBy cs := by
  have hrows : cs.length / 6 = n := by omega
  have hcss : css.length = n := by
    rw [← h.length_eq]
    simp [rowsUpTo]
  refine ⟨by omega, by omega, fun x y h1 h6 hy hy' => ?_, fun x y h1 h6 hy hy' => ?_,
    exact_ofRows css⟩
  · rw [hrows] at hy'
    have hrow : Names (textRow cs y) (css.getD (y - 1) []) := by
      have hget := h.get (i := y - 1) (by simp [rowsUpTo]; omega) (by omega)
      have hpred : y - 1 + 1 = y := by omega
      rw [List.getD_eq_getElem css _ (by omega)]
      simpa [rowsUpTo, hpred] using hget
    have hwidth := length_textRow hlen ⟨hy, hy'⟩
    have hwidth' := hrow.length_eq
    refine ⟨(textRow cs y).get ⟨x - 1, by omega⟩, List.getElem?_eq_getElem _, ?_⟩
    rw [color_ofRows css ⟨h1, h6⟩ ⟨hy, by omega⟩, List.getD_eq_getElem _ _ (by omega)]
    exact hrow.get (by omega) (by omega)
  · rw [color_ofRows css ⟨h1, h6⟩ ⟨by omega, hy'⟩, List.getD_eq_default css _ (by omega)]
    rfl

theorem ofChars_of_whole (h6 : (cellText cs).length % 6 = 0) (h14 : (cellText cs).length / 6 ≤ 14) :
    ofChars cs =
      (rowsOfChars (textRows ((cellText cs).length / 6) (cellText cs)).reverse).map ofRows := by
  show (if (cellText cs).length % 6 ≠ 0 then _
    else if (cellText cs).length / 6 > 14 then _ else _) = _
  rw [if_neg (not_not.mpr h6), if_neg (Nat.not_lt.mpr h14)]
  rfl

theorem ofChars_of_ragged (h : (cellText cs).length % 6 ≠ 0) :
    ofChars cs = .error (.raggedField (cellText cs).length) := if_pos h

theorem ofChars_of_tall (h6 : (cellText cs).length % 6 = 0) (h14 : 14 < (cellText cs).length / 6) :
    ofChars cs = .error (.tooTall ((cellText cs).length / 6)) := by
  show (if (cellText cs).length % 6 ≠ 0 then _
    else if (cellText cs).length / 6 > 14 then _ else _) = _
  rw [if_neg (not_not.mpr h6), if_pos h14]
  rfl

section
variable (h6 : (cellText cs).length % 6 = 0) (h14 : (cellText cs).length / 6 ≤ 14)
include h6 h14

theorem ofChars_of_firstBad? {c : Char} (h : firstBad? (readingOrder (cellText cs)) = some c) :
    ofChars cs = .error (.invalidChar c) := by
  rw [← flatten_reverse_textRows (n := (cellText cs).length / 6) (by omega)] at h
  rw [ofChars_of_whole h6 h14, rowsOfChars_of_firstBad? h]
  rfl

theorem exists_spelledBy (h : firstBad? (readingOrder (cellText cs)) = none) :
    ∃ f, ofChars cs = .ok f ∧ f.SpelledBy (cellText cs) := by
  have hlen : (cellText cs).length = 6 * ((cellText cs).length / 6) := by omega
  rw [← flatten_reverse_textRows hlen] at h
  obtain ⟨css, hcss, hnames⟩ := exists_rowsOfChars h
  rw [reverse_textRows hlen] at hnames
  refine ⟨ofRows css, ?_, spelledBy_ofRows hlen h14 hnames⟩
  rw [ofChars_of_whole h6 h14, hcss]
  rfl

end

/-- a text is read just if it spells a field, and as this field -/
theorem ofChars_eq_ok_iff : ofChars cs = .ok f ↔ f.SpelledBy (cellText cs) := by
  constructor
  · intro h
    by_cases h6 : (cellText cs).length % 6 = 0
    · by_cases h14 : (cellText cs).length / 6 ≤ 14
      · cases hbad : firstBad? (readingOrder (cellText cs)) with
        | none =>
          obtain ⟨g, hg, hspelled⟩ := exists_spelledBy h6 h14 hbad
          rw [hg] at h
          rwa [← Except.ok.inj h]
        | some c =>
          rw [ofChars_of_firstBad? h6 h14 hbad] at h
          cases h
      · rw [ofChars_of_tall h6 (by omega)] at h
        cases h
    · rw [ofChars_of_ragged h6] at h
      cases h
  · intro h
    obtain ⟨g, hg, hspelled⟩ := exists_spelledBy h.whole h.fits h.firstBad?
    rw [hg, h.unique hspelled]

theorem exact_ofText {s : String} (h : ofText s = .ok f) : f.Exact := (ofChars_eq_ok_iff.mp h).exact

/-- reading fails for the number of characters first, then for the number of rows, and then at the
first character that names no cell content -/
theorem ofChars_eq_error_iff {e : ParseError} : ofChars cs = .error e ↔
    ((cellText cs).length % 6 ≠ 0 ∧ e = .raggedField (cellText cs).length) ∨
    ((cellText cs).length % 6 = 0 ∧ 14 < (cellText cs).length / 6 ∧
      e = .tooTall ((cellText cs).length / 6)) ∨
    ((cellText cs).length % 6 = 0 ∧ (cellText cs).length / 6 ≤ 14 ∧
      ∃ c, firstBad? (readingOrder (cellText cs)) = some c ∧ e = .invalidChar c) := by
  by_cases h6 : (cellText cs).length % 6 = 0
  · by_cases h14 : (cellText cs).length / 6 ≤ 14
    · cases hbad : firstBad? (readingOrder (cellText cs)) with
      | none =>
        obtain ⟨f, hf, _⟩ := exists_spelledBy h6 h14 hbad
        rw [hf]
        simp [h6]
        omega
      | some c =>
        rw [ofChars_of_firstBad? h6 h14 hbad]
        simp [h6, h14, Nat.not_lt.mpr h14, eq_comm]
    · rw [ofChars_of_tall h6 (by omega)]
      simp [h6, h14, Nat.lt_of_not_le h14, eq_comm]
  · rw [ofChars_of_ragged h6]
    simp [h6, eq_comm]

end Field

end PuyoChain
