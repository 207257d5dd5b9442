import Mathlib.Data.List.Basic
import Mathlib.Data.List.TakeWhile
import Mathlib.Data.Nat.Digits.Defs
import Mathlib.Tactic.Ring
import PuyoChain.Proofs.Additions.Built

/-!
# Reading a list of additions from its text

* `AllBlank`               a run of blanks; `trim` takes one off at either end (`exists_trim`);
* `Numeral`                decimal digits, perhaps after a plus sign, and the number they make up;
* `colorLetters`           the characters that name the color of an addition;
* `Addition.SpelledBy`     the text of one entry;
* `Additions.Spells`       a text of entries with blanks before, between and after them;
* `Additions.Extends`      a text spells what one list has more than another, and there is room;
* `readFrom_eq_ok_iff`     so a text is read after the characters that are pending;
* `ofText_reads_entries`   a text is read just if it spells a list that is not too long, and every
                           such list is read from its own text form.

An entry has no closing parenthesis but its last character, so the first one in a text ends the
first entry (`spells_close_iff`).
-/

namespace PuyoChain

/-! ## blanks -/

/-- nothing but blanks -/
def AllBlank (cs : List Char) : Prop := ∀ c ∈ cs, isBlank c = true

section
variable {u v cs : List Char}

theorem AllBlank.nil : AllBlank [] := nofun

theorem AllBlank.cons {c : Char} (hc : isBlank c = true) (hu : AllBlank u) : AllBlank (c :: u) :=
  List.forall_mem_cons.mpr ⟨hc, hu⟩

theorem AllBlank.not_mem {c : Char} (hu : AllBlank u) (hc : isBlank c = false) : c ∉ u := by
  intro h
  rw [hu c h] at hc
  cases hc

theorem AllBlank.reverse (hu : AllBlank u) : AllBlank u.reverse :=
  fun c hc => hu c (List.mem_reverse.mp hc)

theorem exists_dropBlanks (cs : List Char) : ∃ u, AllBlank u ∧ cs = u ++ dropBlanks cs :=
  ⟨cs.takeWhile isBlank, fun _ hc => List.mem_takeWhile_imp hc,
    List.takeWhile_append_dropWhile.symm⟩

/-- what trimming takes off is blank -/
theorem exists_trim (cs : List Char) :
    ∃ u v, AllBlank u ∧ AllBlank v ∧ cs = u ++ trim cs ++ v := by
  obtain ⟨u, hu, hleft⟩ := exists_dropBlanks cs
  obtain ⟨v, hv, hright⟩ := exists_dropBlanks (dropBlanks cs).reverse
  refine ⟨u, v.reverse, hu, hv.reverse, ?_⟩
  have hback := congrArg List.reverse hright
  rw [List.reverse_reverse, List.reverse_append] at hback
  rw [List.append_assoc]
  conv_lhs => rw [hleft, hback]
  rfl

theorem not_blank_of_dropBlanks {c : Char} {ds : List Char} (h : dropBlanks cs = c :: ds) :
    isBlank c = false := by
  have hhead := List.head?_dropWhile_not isBlank cs
  rw [show cs.dropWhile isBlank = c :: ds from h] at hhead
  simpa using hhead

/-- a character that trimming leaves alone is not blank -/
theorem not_blank_of_trim {c : Char} (h : trim cs = [c]) : isBlank c = false := by
  have hback : dropBlanks (dropBlanks cs).reverse = [c] := by
    have hrev := congrArg List.reverse h
    rwa [trim, dropBlanksRight, List.reverse_reverse] at hrev
  exact not_blank_of_dropBlanks hback

theorem dropBlanks_append (hu : AllBlank u) (hne : cs ≠ []) (hcs : ∀ c ∈ cs, isBlank c = false)
    (ds : List Char) : dropBlanks (u ++ (cs ++ ds)) = cs ++ ds := by
  obtain ⟨c, cs, rfl⟩ := List.exists_cons_of_ne_nil hne
  rw [dropBlanks, List.dropWhile_append_of_pos hu]
  exact dropBlanks_of_not_blank (hcs c List.mem_cons_self) _

/-- a text without blanks is what trimming leaves of it between blanks -/
theorem trim_append (hu : AllBlank u) (hv : AllBlank v) (hne : cs ≠ [])
    (hcs : ∀ c ∈ cs, isBlank c = false) : trim (u ++ cs ++ v) = cs := by
  have hcs' : ∀ c ∈ cs.reverse, isBlank c = false := fun c hc => hcs c (List.mem_reverse.mp hc)
  have hback : dropBlanks (v.reverse ++ (cs.reverse ++ [])) = cs.reverse ++ [] :=
    dropBlanks_append hv.reverse (by simpa using hne) hcs' []
  rw [List.append_nil] at hback
  rw [trim, List.append_assoc, dropBlanks_append hu hne hcs, dropBlanksRight, List.reverse_append,
    hback, List.reverse_reverse]

end

/-! ## numbers -/

/-- the value of a digit -/
def digitValue (c : Char) : Nat := c.toNat - '0'.toNat

/-- one or more decimal digits, perhaps after a plus sign, and the number that they make up -/
inductive Numeral : List Char → Nat → Prop where
  | mk {sign ds : List Char} (hsign : sign = [] ∨ sign = ['+']) (hne : ds ≠ [])
      (hds : ∀ d ∈ ds, d.isDigit = true) :
      Numeral (sign ++ ds) (Nat.ofDigits 10 (ds.reverse.map digitValue))

theorem isDigit_iff (c : Char) : c.isDigit = true ↔ '0' ≤ c ∧ c ≤ '9' := by
  simp [Char.isDigit, Char.le_def]

theorem digit?_eq_some_iff (c : Char) (n : Nat) :
    digit? c = some n ↔ c.isDigit = true ∧ digitValue c = n := by
  rw [isDigit_iff]
  unfold digit?
  split
  · rename_i h
    simp only [Option.some.injEq, h, and_self, true_and]
    rfl
  · rename_i h
    simp only [reduceCtorEq, h, false_and]

theorem not_blank_of_isDigit {c : Char} (h : c.isDigit = true) : isBlank c = false := by
  rw [isDigit_iff, Char.le_def, Char.le_def, UInt32.le_iff_toNat_le, UInt32.le_iff_toNat_le] at h
  have hlow : 48 ≤ c.toNat := h.1
  have hhigh : c.toNat ≤ 57 := h.2
  rw [isBlank, Bool.eq_false_iff, ne_eq, inRanges_iff]
  simp only [blanks, List.mem_cons, List.not_mem_nil, or_false]
  rintro ⟨r, hr, hc⟩
  rcases hr with rfl | rfl | rfl | rfl | rfl | rfl | rfl | rfl | rfl | rfl <;> dsimp only at hc <;>
    omega

/-- the digits of `n` stand before those that are read -/
theorem digitsFrom_eq_some_iff (cs : List Char) (n m : Nat) :
    digitsFrom n cs = some m ↔ (∀ c ∈ cs, c.isDigit = true) ∧
      n * 10 ^ cs.length + Nat.ofDigits 10 (cs.reverse.map digitValue) = m := by
  induction cs generalizing n with
  | nil => simp [digitsFrom]
  | cons c cs ih =>
    have hvalue : n * 10 ^ (c :: cs).length + Nat.ofDigits 10 ((c :: cs).reverse.map digitValue) =
        (10 * n + digitValue c) * 10 ^ cs.length + Nat.ofDigits 10 (cs.reverse.map digitValue) := by
      rw [List.reverse_cons, List.map_append, Nat.ofDigits_append, List.length_map,
        List.length_reverse, List.map_singleton, Nat.ofDigits_singleton, List.length_cons]
      ring
    rw [digitsFrom, Option.bind_eq_some_iff, hvalue, List.forall_mem_cons, and_assoc]
    constructor
    · rintro ⟨d, hd, h⟩
      obtain ⟨hc, rfl⟩ := (digit?_eq_some_iff c d).mp hd
      exact ⟨hc, (ih _).mp h⟩
    · rintro ⟨hc, h⟩
      exact ⟨_, (digit?_eq_some_iff c _).mpr ⟨hc, rfl⟩, (ih _).mpr h⟩

theorem digitsFrom_zero_eq_some_iff (cs : List Char) (m : Nat) :
    digitsFrom 0 cs = some m ↔ (∀ c ∈ cs, c.isDigit = true) ∧
      Nat.ofDigits 10 (cs.reverse.map digitValue) = m := by
  rw [digitsFrom_eq_some_iff, Nat.zero_mul, Nat.zero_add]

theorem decimal?_eq_some_iff (cs : List Char) (n : Nat) :
    decimal? cs = some n ↔ Numeral cs n ∧ n < wordBound := by
  have hbound : decimal? cs = some n ↔
      ((if cs.head? = some '+' then cs.tail else cs) ≠ [] ∧
        digitsFrom 0 (if cs.head? = some '+' then cs.tail else cs) = some n) ∧ n < wordBound := by
    unfold decimal?
    generalize (if cs.head? = some '+' then cs.tail else cs) = ds
    cases ds with
    | nil => simp
    | cons d ds => simp [Option.filter_eq_some_iff]
  rw [hbound, digitsFrom_zero_eq_some_iff]
  refine and_congr_left fun _ => ⟨?_, ?_⟩
  · rintro ⟨hne, hds, rfl⟩
    by_cases hplus : cs.head? = some '+'
    · rw [if_pos hplus] at hne hds ⊢
      obtain ⟨ds, rfl⟩ := List.head?_eq_some_iff.mp hplus
      exact @Numeral.mk ['+'] ds (Or.inr rfl) hne hds
    · rw [if_neg hplus] at hne hds ⊢
      exact @Numeral.mk [] cs (Or.inl rfl) hne hds
  · rintro @⟨sign, ds, hsign, hne, hds⟩
    rcases hsign with rfl | rfl
    · have hplus : ([] ++ ds).head? ≠ some '+' := by
        intro h
        have := hds '+' (List.mem_of_mem_head? h)
        revert this
        decide
      rw [if_neg hplus]
      exact ⟨hne, hds, rfl⟩
    · exact ⟨hne, hds, rfl⟩

theorem Numeral.ne_nil {cs : List Char} {n : Nat} (h : Numeral cs n) : cs ≠ [] := by
  cases h with
  | mk _ hne _ => exact List.append_ne_nil_of_right_ne_nil _ hne

/-- a numeral is made of digits and the plus sign -/
theorem Numeral.digit_or_plus {cs : List Char} {n : Nat} (h : Numeral cs n) {c : Char}
    (hc : c ∈ cs) : c.isDigit = true ∨ c = '+' := by
  obtain ⟨hsign, _, hds⟩ := h
  rcases List.mem_append.mp hc with hc | hc
  · rcases hsign with rfl | rfl
    · cases hc
    · exact Or.inr (List.mem_singleton.mp hc)
  · exact Or.inl (hds c hc)

theorem Numeral.not_blank {cs : List Char} {n : Nat} (h : Numeral cs n) :
    ∀ c ∈ cs, isBlank c = false := by
  intro c hc
  rcases h.digit_or_plus hc with hdigit | rfl
  · exact not_blank_of_isDigit hdigit
  · decide

theorem Numeral.not_mem {cs : List Char} {n : Nat} (h : Numeral cs n) {c : Char}
    (hc : c.isDigit = false) (hplus : c ≠ '+') : c ∉ cs := by
  intro hmem
  rcases h.digit_or_plus hmem with hdigit | rfl
  · rw [hc] at hdigit
    cases hdigit
  · exact hplus rfl

/-- the text form of a column is a numeral -/
theorem numeral_toDigits {x : Nat} (hx : 1 ≤ x ∧ x ≤ 6) : Numeral (Nat.toDigits 10 x) x := by
  have hall : ∀ x ∈ fieldColumns, decimal? (Nat.toDigits 10 x) = some x := by decide
  exact ((decimal?_eq_some_iff _ _).mp (hall x ((mem_fieldColumns_iff x).mpr hx))).1

/-! ## entries -/

/-- the characters that name the color of an addition -/
def colorLetters : List (Char × Color) := [
  ('.', .empty), ('#', .wall), ('O', .garbage), ('o', .garbage), ('R', .red), ('r', .red),
  ('B', .blue), ('b', .blue), ('Y', .yellow), ('y', .yellow), ('G', .green), ('g', .green)]

theorem ofChar_of_mem {c : Char} {a : Color} (h : (c, a) ∈ colorLetters) :
    Color.ofChar c = .ok a := by
  have hall : ∀ e ∈ colorLetters, Color.ofChar? e.1 = some e.2 := by decide
  rw [Color.ofChar, hall _ h]

theorem mem_colorLetters {c : Char} {a : Color} (hblank : isBlank c = false)
    (h : Color.ofChar c = .ok a) : (c, a) ∈ colorLetters := by
  by_cases hmem : ∃ b, (c, b) ∈ colorLetters
  · obtain ⟨b, hb⟩ := hmem
    rw [ofChar_of_mem hb] at h
    rwa [← Except.ok.inj h]
  · have hspace : c ≠ ' ' := by
      rintro rfl
      revert hblank
      decide
    have hne : ∀ e ∈ colorLetters, c ≠ e.1 := by
      rintro ⟨d, b⟩ he rfl
      exact hmem ⟨b, he⟩
    simp only [colorLetters, List.forall_mem_cons] at hne
    have hnone : Color.ofChar? c = none := by
      unfold Color.ofChar?
      simp [hne, hspace]
    rw [Color.ofChar, hnone] at h
    cases h

theorem colorLetters_solid {c : Char} {a : Color} (h : (c, a) ∈ colorLetters) :
    isBlank c = false ∧ c ≠ ')' := by
  have hall : ∀ e ∈ colorLetters, isBlank e.1 = false ∧ e.1 ≠ ')' := by decide
  exact hall _ h

theorem splitComma_eq_some_iff (cs as bs : List Char) :
    splitComma cs = some (as, bs) ↔ cs = as ++ ',' :: bs ∧ ',' ∉ as := by
  induction cs generalizing as with
  | nil => simp [splitComma]
  | cons c cs ih =>
    unfold splitComma
    by_cases hc : c = ','
    · rw [if_pos hc]
      cases as with
      | nil => simp [hc]
      | cons a as =>
        simp only [Option.some.injEq, Prod.mk.injEq, reduceCtorEq, false_and, List.cons_append,
          List.cons.injEq, List.mem_cons, not_or, false_iff]
        rintro ⟨⟨rfl, _⟩, hne, _⟩
        exact hne hc.symm
    · rw [if_neg hc]
      cases as with
      | nil =>
        simp [hc]
      | cons a as =>
        have hstep := ih as
        simp only [Option.map_eq_some_iff, Prod.mk.injEq, List.cons.injEq, Prod.exists,
          List.cons_append, List.mem_cons, not_or]
        constructor
        · rintro ⟨as', bs', hsplit, ⟨rfl, rfl⟩, rfl⟩
          obtain ⟨rfl, hmem⟩ := hstep.mp hsplit
          exact ⟨⟨rfl, rfl⟩, Ne.symm hc, hmem⟩
        · rintro ⟨⟨rfl, hcs⟩, _, hmem⟩
          exact ⟨as, bs, hstep.mpr ⟨hcs, hmem⟩, ⟨rfl, rfl⟩, rfl⟩

theorem entryParts?_eq_some_iff (cs : List Char) (n : Nat) (letter : Char) :
    entryParts? ('(' :: (cs ++ [')'])) = some (n, letter) ↔
      ∃ as bs, cs = as ++ ',' :: bs ∧ ',' ∉ as ∧ decimal? (trim as) = some n ∧
        trim bs = [letter] := by
  show (splitComma (cs ++ [')']).dropLast).bind _ = _ ↔ _
  rw [List.dropLast_concat]
  simp only [Option.bind_eq_some_iff, Prod.exists, splitComma_eq_some_iff]
  constructor
  · rintro ⟨as, bs, ⟨hcs, hcomma⟩, k, hk, h⟩
    refine ⟨as, bs, hcs, hcomma, ?_⟩
    split at h
    · rename_i c hc
      cases h
      exact ⟨hk, hc⟩
    · cases h
  · rintro ⟨as, bs, hcs, hcomma, hn, hletter⟩
    refine ⟨as, bs, ⟨hcs, hcomma⟩, n, hn, ?_⟩
    rw [hletter]

theorem eq_open_of_entryParts? {c : Char} {cs : List Char} {parts : Nat × Char}
    (h : entryParts? (c :: cs) = some parts) : c = '(' := by
  unfold entryParts? at h
  split at h
  · rename_i heq
    cases heq
    rfl
  · cases h

/-- the text of one entry: a number and a letter between parentheses, with a comma between them and
blanks around both -/
inductive Addition.SpelledBy : Addition → List Char → Prop where
  | mk {u v w z number : List Char} {letter : Char} {x : Nat} {color : Color} (hu : AllBlank u)
      (hv : AllBlank v) (hw : AllBlank w) (hz : AllBlank z) (hx : Numeral number x)
      (hcolumn : 1 ≤ x ∧ x ≤ 6) (hcolor : (letter, color) ∈ colorLetters) :
      SpelledBy ⟨x, color⟩
        ('(' :: ((u ++ number ++ v ++ ',' :: (w ++ [letter] ++ z)) ++ [')']))

namespace Addition

variable {a : Addition} {cs : List Char}

/-- an entry ends with its first closing parenthesis -/
theorem SpelledBy.exists_body (h : a.SpelledBy cs) :
    ∃ body, cs = '(' :: (body ++ [')']) ∧ ')' ∉ body := by
  obtain ⟨hu, hv, hw, hz, hx, _, hcolor⟩ := h
  refine ⟨_, rfl, ?_⟩
  have hblank : isBlank ')' = false := by decide
  have hnumber := hx.not_mem (c := ')') (by decide) (by decide)
  have hletter := (colorLetters_solid hcolor).2
  simp only [List.mem_append, List.mem_cons, List.not_mem_nil, or_false, not_or]
  exact ⟨⟨⟨hu.not_mem hblank, hnumber⟩, hv.not_mem hblank⟩, by decide,
    ⟨hw.not_mem hblank, Ne.symm hletter⟩, hz.not_mem hblank⟩

theorem SpelledBy.entryParts? (h : a.SpelledBy cs) :
    ∃ letter, entryParts? cs = some (a.x, letter) ∧ Color.ofChar letter = .ok a.color ∧
      1 ≤ a.x ∧ a.x ≤ 6 := by
  obtain ⟨hu, hv, hw, hz, hx, hcolumn, hcolor⟩ := h
  rename_i u v w z number letter x color
  refine ⟨letter, (entryParts?_eq_some_iff _ _ _).mpr ⟨_, _, rfl, ?_, ?_, ?_⟩,
    ofChar_of_mem hcolor, hcolumn⟩
  · have hblank : isBlank ',' = false := by decide
    have hnumber := hx.not_mem (c := ',') (by decide) (by decide)
    simp only [List.mem_append, not_or]
    exact ⟨⟨hu.not_mem hblank, hnumber⟩, hv.not_mem hblank⟩
  · rw [trim_append hu hv hx.ne_nil hx.not_blank, decimal?_eq_some_iff]
    refine ⟨hx, ?_⟩
    show x < wordBound
    unfold wordBound
    omega
  · refine trim_append hw hz (List.cons_ne_nil _ _) ?_
    simpa using (colorLetters_solid hcolor).1

theorem spelledBy_of_entryParts? {body : List Char} {x : Nat} {letter : Char} {color : Color}
    (h : PuyoChain.entryParts? ('(' :: (body ++ [')'])) = some (x, letter))
    (hcolor : Color.ofChar letter = .ok color) (hx : 1 ≤ x ∧ x ≤ 6) :
    SpelledBy ⟨x, color⟩ ('(' :: (body ++ [')'])) := by
  obtain ⟨as, bs, rfl, _, hnumber, hletter⟩ := (entryParts?_eq_some_iff _ _ _).mp h
  obtain ⟨u, v, hu, hv, has⟩ := exists_trim as
  obtain ⟨w, z, hw, hz, hbs⟩ := exists_trim bs
  have hnumeral := ((decimal?_eq_some_iff _ _).mp hnumber).1
  have hmem := mem_colorLetters (not_blank_of_trim hletter) hcolor
  have h := SpelledBy.mk hu hv hw hz hnumeral hx hmem
  rwa [← has, ← hletter, ← hbs] at h

end Addition

namespace Additions

variable {l m : Additions}

theorem add_eq_some_iff {x : Nat} {c : Color} :
    l.add x c = some m ↔
      (1 ≤ x ∧ x ≤ 6) ∧ l.size + 1 ≤ capacity ∧ m.entries = l.entries ++ [⟨x, c⟩] := by
  obtain ⟨entries⟩ := m
  unfold add addCopies
  split
  · rename_i h
    simp [h, eq_comm]
  · rename_i h
    simp only [reduceCtorEq, false_iff]
    rintro ⟨hx, hsize, _⟩
    exact h ⟨hx, hsize⟩

theorem addEntry_eq_ok_iff_parts {entry : List Char} :
    l.addEntry entry = .ok m ↔ ∃ x letter color, entryParts? entry = some (x, letter) ∧
      Color.ofChar letter = .ok color ∧ l.add x color = some m := by
  unfold addEntry
  constructor
  · intro h
    split at h
    · cases h
    · rename_i x letter hparts
      cases hcolor : Color.ofChar letter with
      | error e =>
        rw [hcolor] at h
        cases h
      | ok color =>
        rw [hcolor] at h
        change (if ¬ (1 ≤ x ∧ x ≤ 6) then _ else _) = _ at h
        split at h
        · cases h
        · split at h
          · rename_i k hk
            exact ⟨x, letter, color, hparts, hcolor, by rw [hk, Except.ok.inj h]⟩
          · cases h
  · rintro ⟨x, letter, color, hparts, hcolor, hadd⟩
    rw [hparts]
    dsimp only
    rw [hcolor]
    show (if ¬ (1 ≤ x ∧ x ≤ 6) then _ else _) = _
    rw [if_neg (not_not.mpr (add_eq_some_iff.mp hadd).1), hadd]

/-- an entry is added just if the text spells one and the list has room -/
theorem addEntry_eq_ok_iff {pending : List Char} :
    l.addEntry (pending ++ [')']) = .ok m ↔
      ∃ a : Addition, a.SpelledBy (pending ++ [')']) ∧ l.size + 1 ≤ capacity ∧
        m.entries = l.entries ++ [a] := by
  rw [addEntry_eq_ok_iff_parts]
  constructor
  · rintro ⟨x, letter, color, hparts, hcolor, hadd⟩
    obtain ⟨hx, hsize, hm⟩ := add_eq_some_iff.mp hadd
    cases pending with
    | nil => cases hparts
    | cons c body =>
      obtain rfl := eq_open_of_entryParts? hparts
      exact ⟨⟨x, color⟩, Addition.spelledBy_of_entryParts? hparts hcolor hx, hsize, hm⟩
  · rintro ⟨a, ha, hsize, hm⟩
    obtain ⟨letter, hparts, hcolor, hx⟩ := ha.entryParts?
    exact ⟨a.x, letter, a.color, hparts, hcolor, add_eq_some_iff.mpr ⟨hx, hsize, hm⟩⟩

/-! ## lists -/

/-- before the first occurrence of a character two texts agree, and after it -/
theorem eq_of_append_cons {as bs cs ds : List Char} {c : Char} (ha : c ∉ as) (hb : c ∉ bs)
    (h : as ++ c :: cs = bs ++ c :: ds) : as = bs ∧ cs = ds := by
  have hlen := congrArg (List.idxOf c) h
  rw [List.idxOf_append_of_notMem ha, List.idxOf_append_of_notMem hb, List.idxOf_cons_self,
    List.idxOf_cons_self] at hlen
  obtain ⟨hstart, hrest⟩ := List.append_inj h hlen
  exact ⟨hstart, (List.cons.inj hrest).2⟩

/-- a text of entries, with blanks before, between and after them -/
inductive Spells : List Char → List Addition → Prop where
  | blanks {w : List Char} (hw : AllBlank w) : Spells w []
  | entry {w entry cs : List Char} {a : Addition} {as : List Addition} (hw : AllBlank w)
      (ha : a.SpelledBy entry) (hcs : Spells cs as) : Spells (w ++ entry ++ cs) (a :: as)

/-- the start of an entry: no blank in front, and no closing parenthesis -/
structure Pending (cs : List Char) : Prop where
  notBlank : ∀ c ∈ cs.head?, isBlank c = false
  notClosed : ')' ∉ cs

variable {cs pending : List Char} {as : List Addition}

theorem Pending.nil : Pending [] := ⟨nofun, nofun⟩

theorem spells_cons_blank {c : Char} (hc : isBlank c = true) :
    Spells (c :: cs) as ↔ Spells cs as := by
  constructor
  · intro h
    generalize hds : c :: cs = ds at h
    cases h with
    | blanks hw =>
      rw [← hds] at hw
      exact .blanks (List.forall_mem_cons.mp hw).2
    | @entry w entry cs' a as hw ha hcs =>
      cases w with
      | nil =>
        obtain ⟨body, rfl, _⟩ := ha.exists_body
        obtain ⟨rfl, _⟩ := List.cons.inj hds
        exact absurd hc (by decide)
      | cons d w =>
        obtain ⟨rfl, rfl⟩ := List.cons.inj hds
        exact .entry (List.forall_mem_cons.mp hw).2 ha hcs
  · intro h
    cases h with
    | blanks hw => exact .blanks (hw.cons hc)
    | entry hw ha hcs => exact .entry (hw.cons hc) ha hcs

/-- up to its first closing parenthesis a text is one entry -/
theorem spells_close_iff (hp : Pending pending) :
    Spells (pending ++ ')' :: cs) as ↔
      ∃ a bs, as = a :: bs ∧ a.SpelledBy (pending ++ [')']) ∧ Spells cs bs := by
  constructor
  · intro h
    generalize hds : pending ++ ')' :: cs = ds at h
    cases h with
    | blanks hw =>
      exact absurd (hw ')' (by simp [← hds])) (by decide)
    | @entry w entry cs' a as hw ha hcs =>
      obtain ⟨body, rfl, hbody⟩ := ha.exists_body
      have hnot : ')' ∉ w ++ '(' :: body := by
        simp [hbody, hw.not_mem (c := ')') (by decide)]
      have hcut : w ++ '(' :: (body ++ [')']) ++ cs' = (w ++ '(' :: body) ++ ')' :: cs' := by simp
      obtain ⟨hpre, hrest⟩ := eq_of_append_cons hp.notClosed hnot (hds.trans hcut)
      have hw' : w = [] := by
        cases w with
        | nil => rfl
        | cons c w =>
          have hc := hp.notBlank c (by simp [hpre])
          rw [hw c List.mem_cons_self] at hc
          cases hc
      subst hw'
      refine ⟨a, as, rfl, ?_, ?_⟩
      · rwa [hpre]
      · rwa [hrest]
  · rintro ⟨a, bs, rfl, ha, hcs⟩
    have h := Spells.entry AllBlank.nil ha hcs
    rwa [List.nil_append, List.append_assoc, List.singleton_append] at h

/-- without a closing parenthesis nothing is spelled but blanks -/
theorem Pending.spells_iff (hp : Pending pending) : Spells pending as ↔ pending = [] ∧ as = [] := by
  constructor
  · intro h
    cases h with
    | blanks hw =>
      refine ⟨?_, rfl⟩
      cases pending with
      | nil => rfl
      | cons c cs =>
        have hc := hp.notBlank c rfl
        rw [hw c List.mem_cons_self] at hc
        cases hc
    | entry hw ha hcs =>
      obtain ⟨body, rfl, _⟩ := ha.exists_body
      exact absurd (by simp) hp.notClosed
  · rintro ⟨rfl, rfl⟩
    exact .blanks AllBlank.nil

theorem Pending.snoc {c : Char} (hp : Pending pending) (hclose : c ≠ ')')
    (hblank : pending = [] → isBlank c = false) : Pending (pending ++ [c]) := by
  refine ⟨fun d hd => ?_, ?_⟩
  · cases pending with
    | nil =>
      obtain rfl : c = d := Option.some.inj hd
      exact hblank rfl
    | cons e es => exact hp.notBlank d hd
  · rw [List.mem_append, List.mem_singleton, not_or]
    exact ⟨hp.notClosed, Ne.symm hclose⟩

/-- the text spells the additions of one list after those of another, and there is room for them -/
def Extends (l : Additions) (cs : List Char) (m : Additions) : Prop :=
  ∃ as, Spells cs as ∧ l.size + as.length ≤ capacity ∧ m.entries = l.entries ++ as

theorem extends_cons_blank {c : Char} (hc : isBlank c = true) :
    l.Extends (c :: cs) m ↔ l.Extends cs m := by
  unfold Extends
  simp only [spells_cons_blank hc]

theorem Pending.extends_iff (hp : Pending pending) (hl : l.size ≤ capacity) :
    l.Extends pending m ↔ pending = [] ∧ l = m := by
  unfold Extends
  simp only [hp.spells_iff]
  constructor
  · rintro ⟨_, ⟨rfl, rfl⟩, _, hm⟩
    rw [List.append_nil] at hm
    exact ⟨rfl, by cases l; cases m; exact congrArg _ hm.symm⟩
  · rintro ⟨rfl, rfl⟩
    exact ⟨[], ⟨rfl, rfl⟩, hl, (List.append_nil _).symm⟩

theorem size_of_entries_eq {k : Additions} {a : Addition} (h : k.entries = l.entries ++ [a]) :
    k.size = l.size + 1 := by
  rw [size, h, List.length_append]
  rfl

theorem extends_close_iff (hp : Pending pending) :
    l.Extends (pending ++ ')' :: cs) m ↔
      ∃ k, l.addEntry (pending ++ [')']) = .ok k ∧ k.size ≤ capacity ∧ k.Extends cs m := by
  unfold Extends
  simp only [spells_close_iff hp, addEntry_eq_ok_iff]
  constructor
  · rintro ⟨_, ⟨a, as, rfl, ha, has⟩, hfit, hm⟩
    have hk := size_of_entries_eq (l := l) (k := ⟨l.entries ++ [a]⟩) rfl
    rw [List.length_cons] at hfit
    refine ⟨⟨l.entries ++ [a]⟩, ⟨a, ha, by omega, rfl⟩, by omega, as, has, by omega, ?_⟩
    rw [hm, List.append_assoc, List.singleton_append]
  · rintro ⟨k, ⟨a, ha, hroom, hk⟩, _, as, has, hfit, hm⟩
    rw [size_of_entries_eq hk] at hfit
    refine ⟨a :: as, ⟨a, as, rfl, ha, has⟩, ?_, ?_⟩
    · rw [List.length_cons]
      omega
    · rw [hm, hk, List.append_assoc, List.singleton_append]

/-! ## reading -/

theorem readFrom_nil_eq_ok_iff : readFrom [] pending l = .ok m ↔ pending = [] ∧ l = m := by
  unfold readFrom
  cases pending with
  | nil => simp
  | cons c cs => simp

theorem readFrom_close_eq_ok_iff : readFrom (')' :: cs) pending l = .ok m ↔
    ∃ k, l.addEntry (pending.reverse ++ [')']) = .ok k ∧ readFrom cs [] k = .ok m := by
  rw [readFrom, if_pos rfl, List.reverse_cons]
  cases l.addEntry (pending.reverse ++ [')']) with
  | error e => simp
  | ok k => simp

theorem readFrom_eq_ok_iff (hp : Pending pending.reverse) (hl : l.size ≤ capacity) :
    readFrom cs pending l = .ok m ↔ l.Extends (pending.reverse ++ cs) m := by
  induction cs generalizing pending l with
  | nil => rw [readFrom_nil_eq_ok_iff, List.append_nil, hp.extends_iff hl, List.reverse_eq_nil_iff]
  | cons c cs ih =>
    by_cases hclose : c = ')'
    · rw [hclose, readFrom_close_eq_ok_iff, extends_close_iff hp]
      refine exists_congr fun k => and_congr_right fun hk => ?_
      have hsize : k.size ≤ capacity := by
        obtain ⟨a, _, hroom, hentries⟩ := addEntry_eq_ok_iff.mp hk
        rwa [size_of_entries_eq hentries]
      have hempty : Pending ([] : List Char).reverse := Pending.nil
      rw [ih hempty hsize, and_iff_right hsize]
      rfl
    · unfold readFrom
      rw [if_neg hclose]
      by_cases hblank : (pending.isEmpty && isBlank c) = true
      · rw [if_pos hblank]
        rw [Bool.and_eq_true, List.isEmpty_iff] at hblank
        obtain ⟨rfl, hc⟩ := hblank
        exact (ih hp hl).trans (extends_cons_blank hc).symm
      · have hstarted : Pending (c :: pending).reverse := by
          rw [List.reverse_cons]
          refine hp.snoc hclose fun hnil => ?_
          rw [List.reverse_eq_nil_iff.mp hnil] at hblank
          simpa using hblank
        rw [if_neg hblank, ih hstarted hl, List.reverse_cons, List.append_assoc,
          List.singleton_append]

theorem ne_close_of_blank {c : Char} (hc : isBlank c = true) : c ≠ ')' := by
  rintro rfl
  exact absurd hc (by decide)

/-- blanks alone end nothing: what is pending stays so -/
theorem readFrom_blanks_eq_ok_iff {v : List Char} (hv : AllBlank v) :
    readFrom v pending l = .ok m ↔ pending = [] ∧ l = m := by
  induction v generalizing pending with
  | nil => exact readFrom_nil_eq_ok_iff
  | cons c v ih =>
    obtain ⟨hc, hv⟩ := List.forall_mem_cons.mp hv
    rw [readFrom, if_neg (ne_close_of_blank hc)]
    cases pending with
    | nil => rw [if_pos (by simpa using hc), ih hv]
    | cons d ds =>
      rw [if_neg (by simp), ih hv]
      simp

/-- blanks at the end do not matter -/
theorem readFrom_append_blanks {v : List Char} (hv : AllBlank v) :
    readFrom (cs ++ v) pending l = .ok m ↔ readFrom cs pending l = .ok m := by
  induction cs generalizing pending l with
  | nil => rw [List.nil_append, readFrom_blanks_eq_ok_iff hv, readFrom_nil_eq_ok_iff]
  | cons c cs ih =>
    rw [List.cons_append]
    by_cases hclose : c = ')'
    · simp only [hclose, readFrom_close_eq_ok_iff, ih]
    · simp only [readFrom, if_neg hclose]
      split
      · exact ih
      · exact ih

/-- blanks at the start do not matter -/
theorem readFrom_blanks_append {u : List Char} (hu : AllBlank u) :
    readFrom (u ++ cs) [] l = readFrom cs [] l := by
  induction u with
  | nil => rfl
  | cons c u ih =>
    obtain ⟨hc, hu⟩ := List.forall_mem_cons.mp hu
    rw [List.cons_append, readFrom, if_neg (ne_close_of_blank hc), if_pos (by simpa using hc),
      ih hu]

theorem readFrom_trim_eq_ok_iff :
    readFrom (trim cs) [] l = .ok m ↔ readFrom cs [] l = .ok m := by
  obtain ⟨u, v, hu, hv, hcs⟩ := exists_trim cs
  conv_rhs => rw [hcs, List.append_assoc, readFrom_blanks_append hu]
  exact (readFrom_append_blanks hv).symm

theorem ofText_eq_ok_iff (s : String) :
    ofText s = .ok l ↔ Spells s.toList l.entries ∧ l.size ≤ capacity := by
  have hempty : Pending ([] : List Char).reverse := Pending.nil
  show readFrom (trim s.toList) [] empty = .ok l ↔ _
  rw [readFrom_trim_eq_ok_iff, readFrom_eq_ok_iff hempty (Nat.zero_le _)]
  show (∃ as, Spells s.toList as ∧ 0 + as.length ≤ capacity ∧ l.entries = [] ++ as) ↔ _
  simp only [Nat.zero_add, List.nil_append]
  constructor
  · rintro ⟨as, has, hfit, rfl⟩
    exact ⟨has, hfit⟩
  · rintro ⟨hspells, hfit⟩
    exact ⟨_, hspells, hfit, rfl⟩

/-! ## the text form -/

theorem spelledBy_toChars {a : Addition} (ha : 1 ≤ a.x ∧ a.x ≤ 6) : a.SpelledBy a.toChars := by
  have hcolor : (a.color.toChar, a.color) ∈ colorLetters := by
    cases a.color <;> decide
  have h := Addition.SpelledBy.mk AllBlank.nil AllBlank.nil AllBlank.nil AllBlank.nil
    (numeral_toDigits ha) ha hcolor
  simpa [Addition.toChars] using h

theorem spells_toChars {as : List Addition} (has : ∀ a ∈ as, 1 ≤ a.x ∧ a.x ≤ 6) :
    Spells (toChars ⟨as⟩) as := by
  induction as with
  | nil => exact .blanks AllBlank.nil
  | cons a as ih =>
    obtain ⟨ha, has⟩ := List.forall_mem_cons.mp has
    exact .entry (w := []) AllBlank.nil (spelledBy_toChars ha) (ih has)

theorem ofText_text (hsize : l.size ≤ capacity) (hx : ∀ a ∈ l.entries, 1 ≤ a.x ∧ a.x ≤ 6) :
    ofText l.text = .ok l := by
  refine (ofText_eq_ok_iff _).mpr ⟨?_, hsize⟩
  rw [text, String.toList_ofList]
  exact spells_toChars hx

/-- **The text form of a list is read exactly, and back.**  A text is read just if it is a sequence
of at most 84 entries with blanks before, between and after them, and the list then has these
entries in this order.  A list of at most 84 additions to columns of the field is read from its own
text form. -/
theorem ofText_reads_entries :
    (∀ s : String, (∃ l, ofText s = .ok l) ↔ ∃ as, Spells s.toList as ∧ as.length ≤ 84) ∧
    (∀ (s : String) (l : Additions), ofText s = .ok l ↔ Spells s.toList l.entries ∧ l.size ≤ 84) ∧
    ∀ l : Additions, l.size ≤ 84 → (∀ a ∈ l.entries, 1 ≤ a.x ∧ a.x ≤ 6) →
      ofText l.text = .ok l := by
  refine ⟨fun s => ⟨?_, ?_⟩, fun s l => ofText_eq_ok_iff s, fun l => ofText_text⟩
  · rintro ⟨l, hl⟩
    exact ⟨l.entries, (ofText_eq_ok_iff s).mp hl⟩
  · rintro ⟨as, has, hfit⟩
    exact ⟨⟨as⟩, (ofText_eq_ok_iff s).mpr ⟨has, hfit⟩⟩

/-- a wall, an empty cell and two normal puyos -/
def mixedAdditions : Additions := ⟨[⟨6, .wall⟩, ⟨1, .empty⟩, ⟨3, .green⟩, ⟨3, .red⟩]⟩

theorem ofText_reads_entries_mixed :
    mixedAdditions.size ≤ 84 ∧ (∀ a ∈ mixedAdditions.entries, 1 ≤ a.x ∧ a.x ≤ 6) ∧
      ofText mixedAdditions.text = .ok mixedAdditions ∧
      ofText " ( +006 ,# )(1,.)\n( 3 , g)(3,R) " = .ok mixedAdditions := by
  have hx : ∀ a ∈ mixedAdditions.entries, 1 ≤ a.x ∧ a.x ≤ 6 := by decide
  exact ⟨by decide, hx, ofText_reads_entries.2.2 _ (by decide) hx, by rfl⟩

end Additions

end PuyoChain
