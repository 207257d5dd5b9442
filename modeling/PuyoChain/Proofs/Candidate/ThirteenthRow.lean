import Mathlib.Algebra.Group.Nat.Defs
import Mathlib.Logic.Function.Basic
import PuyoChain.Candidate.Key
import PuyoChain.Proofs.Field.Resting
import PuyoChain.Proofs.Search.Visiting

/-!
# What the search through row 13 shows

* `oneEachFrom`      the candidates with nothing or one puyo of each color on the columns of a list;
* `thirteenthRow`    those on the full columns of a field;
* `colorChoices`     the ways to choose nothing or a normal color for each column of a list
                     (`mem_colorChoices_iff`, `nodup_colorChoices`), `5 ^ n` for `n` columns
                     (`length_colorChoices`);
* `topped`           the candidate that puts the chosen puyos on a field;
* `oneEachFrom_eq`   on columns of height 12 the search loses no choice: there is room for every
                     puyo, on the field and in the list.

`visitThirteenthRow` shows one candidate for each choice to any visitor, in order
(`visitThirteenthRow_shows_product`).
-/

namespace PuyoChain

/-- the candidates of the additions `l` with nothing or one puyo of each color on the columns of a
list -/
def oneEachFrom (f : Field) : List Nat → Additions → List Candidate
  | [], l => ((f.stackAll? l).map fun g => ⟨g, l⟩).toList
  | x :: xs, l =>
    oneEachFrom f xs l ++ Color.normals.flatMap fun a => oneEachFrom f xs ((l.add x a).getD l)

/-- the candidates with nothing or one puyo in row 13 of the allowed columns that are full up to it -/
def thirteenthRow (f : Field) (allowed : ColumnMask) : List Candidate :=
  oneEachFrom f (fullColumns f allowed) .empty

section
variable {σ : Type} (f : Field) (visit : Visitor σ Candidate)

theorem visitOneEach_eq_each (xs : List Nat) (l : Additions) (s : σ) :
    visitOneEach f visit xs l s = each visit (oneEachFrom f xs l) s := by
  induction xs generalizing l s with
  | nil =>
    unfold visitOneEach oneEachFrom
    cases f.stackAll? l with
    | none => rfl
    | some g => exact (each_singleton visit ⟨g, l⟩ s).symm
  | cons x xs ih =>
    rw [visitOneEach, oneEachFrom, each_append, ih]
    apply Flow.andThen_congr
    intro s
    rw [each_flatMap]
    exact each_congr (fun a _ s => ih ((l.add x a).getD l) s) s

theorem visitThirteenthRow_eq_each (allowed : ColumnMask) (s : σ) :
    visitThirteenthRow f allowed visit s = each visit (thirteenthRow f allowed) s :=
  visitOneEach_eq_each f visit _ _ s

end

/-! ## choices of colors -/

/-- `m` chooses nothing or a normal color for each column of a list, and nothing elsewhere -/
def ChoosesOn (xs : List Nat) (m : Nat → Option Color) : Prop :=
  ∀ x a, m x = some a → x ∈ xs ∧ a.isNormal = true

/-- the ways to choose nothing or a normal color for each column of a list -/
def colorChoices : List Nat → List (Nat → Option Color)
  | [] => [fun _ => none]
  | x :: xs => colorChoices xs ++
      Color.normals.flatMap fun a => (colorChoices xs).map fun m => Function.update m x (some a)

/-- one puyo for each column of a list that has a chosen color -/
def chosen (m : Nat → Option Color) (xs : List Nat) : List Addition :=
  xs.filterMap fun x => (m x).map (⟨x, ·⟩)

theorem ChoosesOn.eq_none {xs : List Nat} {m : Nat → Option Color} (h : ChoosesOn xs m) {x : Nat}
    (hx : x ∉ xs) : m x = none := by
  cases e : m x with
  | none => rfl
  | some a => exact absurd (h x a e).1 hx

theorem choosesOn_nil_iff (m : Nat → Option Color) : ChoosesOn [] m ↔ m = fun _ => none := by
  constructor
  · intro h
    funext x
    exact h.eq_none List.not_mem_nil
  · rintro rfl x a e
    cases e

/-- a choice for a list that starts with `x` chooses nothing for `x` or one color -/
theorem choosesOn_cons_iff {x : Nat} {xs : List Nat} (hx : x ∉ xs) (m : Nat → Option Color) :
    ChoosesOn (x :: xs) m ↔ ChoosesOn xs m ∨
      ∃ a, a.isNormal = true ∧ ∃ m', ChoosesOn xs m' ∧ Function.update m' x (some a) = m := by
  constructor
  · intro h
    cases e : m x with
    | none =>
      refine Or.inl fun z b hz => ⟨?_, (h z b hz).2⟩
      refine (List.mem_cons.mp (h z b hz).1).resolve_left ?_
      rintro rfl
      rw [e] at hz
      cases hz
    | some a =>
      refine Or.inr ⟨a, (h x a e).2, Function.update m x none, fun z b hz => ?_, ?_⟩
      · have hne : z ≠ x := by
          rintro rfl
          rw [Function.update_self] at hz
          cases hz
        rw [Function.update_of_ne hne] at hz
        exact ⟨(List.mem_cons.mp (h z b hz).1).resolve_left hne, (h z b hz).2⟩
      · rw [Function.update_idem, ← e, Function.update_eq_self]
  · rintro (h | ⟨a, ha, m', h, rfl⟩) z b hz
    · exact ⟨List.mem_cons_of_mem x (h z b hz).1, (h z b hz).2⟩
    · by_cases e : z = x
      · subst e
        rw [Function.update_self] at hz
        obtain rfl := Option.some.inj hz
        exact ⟨List.mem_cons_self, ha⟩
      · rw [Function.update_of_ne e] at hz
        exact ⟨List.mem_cons_of_mem x (h z b hz).1, (h z b hz).2⟩

theorem mem_colorChoices_iff {xs : List Nat} (h : xs.Nodup) {m : Nat → Option Color} :
    m ∈ colorChoices xs ↔ ChoosesOn xs m := by
  induction xs generalizing m with
  | nil => rw [choosesOn_nil_iff, colorChoices, List.mem_singleton]
  | cons x xs ih =>
    obtain ⟨hx, hxs⟩ := List.nodup_cons.mp h
    simp only [colorChoices, List.mem_append, List.mem_flatMap, List.mem_map, ih hxs,
      choosesOn_cons_iff hx, Color.mem_normals_iff]

/-- no way to choose is listed twice -/
theorem nodup_colorChoices {xs : List Nat} (h : xs.Nodup) : (colorChoices xs).Nodup := by
  induction xs with
  | nil => exact List.nodup_singleton _
  | cons x xs ih =>
    obtain ⟨hx, hxs⟩ := List.nodup_cons.mp h
    have hnone : ∀ m ∈ colorChoices xs, m x = none := fun m hm =>
      ((mem_colorChoices_iff hxs).mp hm).eq_none hx
    refine (ih hxs).append (List.nodup_flatMap.mpr ⟨fun a _ => ?_, ?_⟩) ?_
    · -- the color for `x` taken back, the choices for the other columns are left
      refine (ih hxs).map_on fun m hm m' hm' e => ?_
      have hback : Function.update (Function.update m x (some a)) x none =
          Function.update (Function.update m' x (some a)) x none := by rw [e]
      rw [Function.update_idem, Function.update_idem] at hback
      rwa [← hnone m hm, Function.update_eq_self, hnone m hm, ← hnone m' hm',
        Function.update_eq_self] at hback
    · have hcolors : Color.normals.Nodup := by decide
      refine hcolors.pairwise_of_forall_ne fun a _ b _ hne m hm hm' => hne ?_
      obtain ⟨_, _, rfl⟩ := List.mem_map.mp hm
      obtain ⟨_, _, e⟩ := List.mem_map.mp hm'
      have hx' := congrFun e x
      rw [Function.update_self, Function.update_self] at hx'
      exact (Option.some.inj hx').symm
    · intro m hm hm'
      obtain ⟨a, _, hmap⟩ := List.mem_flatMap.mp hm'
      obtain ⟨_, _, rfl⟩ := List.mem_map.mp hmap
      have hx' := hnone _ hm
      rw [Function.update_self] at hx'
      cases hx'

/-- every column has five things to choose from -/
theorem length_colorChoices (xs : List Nat) : (colorChoices xs).length = 5 ^ xs.length := by
  induction xs with
  | nil => rfl
  | cons x xs ih =>
    simp only [colorChoices, List.length_append, List.length_flatMap, List.length_map, ih,
      Color.normals, List.map_cons, List.map_nil, List.sum_cons, List.sum_nil, List.length_cons]
    omega

/-- to choose nothing at all comes first -/
theorem head?_colorChoices (xs : List Nat) : (colorChoices xs).head? = some fun _ => none := by
  induction xs with
  | nil => rfl
  | cons x xs ih => rw [colorChoices, List.head?_append, ih, Option.some_or]

/-! ## the puyos of a choice -/

theorem mem_chosen_iff (m : Nat → Option Color) (xs : List Nat) (a : Addition) :
    a ∈ chosen m xs ↔ a.x ∈ xs ∧ m a.x = some a.color := by
  simp only [chosen, List.mem_filterMap, Option.map_eq_some_iff]
  constructor
  · rintro ⟨x, hx, c, e, rfl⟩
    exact ⟨hx, e⟩
  · intro ⟨hx, e⟩
    exact ⟨a.x, hx, a.color, e, rfl⟩

theorem chosen_cons_none {m : Nat → Option Color} {x : Nat} (h : m x = none) (xs : List Nat) :
    chosen m (x :: xs) = chosen m xs :=
  List.filterMap_cons_none (by rw [h, Option.map_none])

theorem chosen_cons_some {m : Nat → Option Color} {x : Nat} {a : Color} (h : m x = some a)
    (xs : List Nat) : chosen m (x :: xs) = ⟨x, a⟩ :: chosen m xs :=
  List.filterMap_cons_some (by rw [h, Option.map_some])

theorem map_x_chosen (m : Nat → Option Color) (xs : List Nat) :
    (chosen m xs).map Addition.x = xs.filter fun x => (m x).isSome := by
  induction xs with
  | nil => rfl
  | cons x xs ih =>
    cases e : m x with
    | none => rw [chosen_cons_none e, ih, List.filter_cons_of_neg (by simp [e])]
    | some a => rw [chosen_cons_some e, List.map_cons, ih, List.filter_cons_of_pos (by simp [e])]

/-- the color for a column that is not in the list does not matter -/
theorem chosen_update_of_not_mem {x : Nat} {xs : List Nat} (hx : x ∉ xs) (m : Nat → Option Color)
    (c : Option Color) : chosen (Function.update m x c) xs = chosen m xs := by
  refine List.filterMap_congr fun z hz => ?_
  rw [Function.update_of_ne (ne_of_mem_of_not_mem hz hx)]

/-- a column that is not in the list gets no puyo -/
theorem filter_chosen_of_not_mem {xs : List Nat} {x : Nat} (hx : x ∉ xs)
    (m : Nat → Option Color) : (chosen m xs).filter (fun a => a.x == x) = [] := by
  refine List.filter_eq_nil_iff.mpr fun a ha e => hx ?_
  rw [← beq_iff_eq.mp e]
  exact ((mem_chosen_iff m xs a).mp ha).1

/-- a column of the list gets the puyo that is chosen for it -/
theorem filter_chosen {xs : List Nat} (h : xs.Nodup) {x : Nat} (hx : x ∈ xs)
    (m : Nat → Option Color) :
    (chosen m xs).filter (fun a => a.x == x) = ((m x).map (⟨x, ·⟩)).toList := by
  induction xs with
  | nil => cases hx
  | cons z xs ih =>
    obtain ⟨hz, hxs⟩ := List.nodup_cons.mp h
    rcases List.mem_cons.mp hx with rfl | hlater
    · have hnil := filter_chosen_of_not_mem hz m
      cases e : m x with
      | none => rw [chosen_cons_none e, hnil]; rfl
      | some a => rw [chosen_cons_some e, List.filter_cons_of_pos (by simp), hnil]; rfl
    · have hne : z ≠ x := fun e => hz (e ▸ hlater)
      cases e : m z with
      | none => rw [chosen_cons_none e, ih hxs hlater]
      | some a =>
        rw [chosen_cons_some e, List.filter_cons_of_neg (by simp [hne]), ih hxs hlater]

/-- the candidate that puts the chosen puyos on a field -/
def topped (f : Field) (xs : List Nat) (m : Nat → Option Color) : Candidate :=
  ⟨f.placeAll (chosen m xs), ⟨chosen m xs⟩⟩

/-! ## columns that are full up to row 13 -/

variable {f : Field}

/-- additions to other columns leave room for one on a column of height 12 -/
theorem Field.Fits.concat {as : List Addition} (has : f.Fits as) {x : Nat}
    (hx : 1 ≤ x ∧ x ≤ 6) (h12 : f.height x = 12) (hother : ∀ b ∈ as, b.x ≠ x) (a : Color) :
    f.Fits (as ++ [⟨x, a⟩]) := by
  refine has.append ⟨hx, ?_, trivial⟩
  rw [Field.height_placeAll has.column, h12, List.countP_eq_zero.mpr (by simpa using hother)]
  decide

/-- on columns of height 12 the search shows one candidate for each choice, since neither the field
nor the list runs out of room -/
theorem oneEachFrom_eq (hf : f.Covered) {xs : List Nat} {l : Additions} (hxs : xs.Nodup)
    (h12 : ∀ x ∈ xs, (1 ≤ x ∧ x ≤ 6) ∧ f.height x = 12) (hl : f.Fits l.entries)
    (hother : ∀ b ∈ l.entries, b.x ∉ xs) (hcap : l.size + xs.length ≤ Additions.capacity) :
    oneEachFrom f xs l = (colorChoices xs).map fun m =>
      ⟨f.placeAll (l.entries ++ chosen m xs), ⟨l.entries ++ chosen m xs⟩⟩ := by
  induction xs generalizing l with
  | nil =>
    show ((f.stackAll? l).map _).toList = [_]
    rw [Field.stackAll?_of_fits hf hl]
    show [_] = [(⟨f.placeAll (l.entries ++ []), ⟨l.entries ++ []⟩⟩ : Candidate)]
    rw [List.append_nil]
  | cons x xs ih =>
    obtain ⟨hx, hxs⟩ := List.nodup_cons.mp hxs
    obtain ⟨⟨hxcol, hx12⟩, h12⟩ := List.forall_mem_cons.mp h12
    rw [List.length_cons] at hcap
    have hlater : ∀ b ∈ l.entries, b.x ∉ xs := fun b hb h =>
      hother b hb (List.mem_cons_of_mem x h)
    rw [oneEachFrom, colorChoices, List.map_append, List.map_flatMap]
    congr 1
    · rw [ih hxs h12 hl hlater (by omega)]
      refine List.map_congr_left fun m hm => ?_
      rw [chosen_cons_none (((mem_colorChoices_iff hxs).mp hm).eq_none hx)]
    · refine List.flatMap_congr fun a _ => ?_
      have hadd : l.add x a = some ⟨l.entries ++ [⟨x, a⟩]⟩ := if_pos ⟨hxcol, by omega⟩
      have hfits : f.Fits (l.entries ++ [⟨x, a⟩]) :=
        hl.concat hxcol hx12 (fun b hb e => hother b hb (e ▸ List.mem_cons_self)) a
      have hothers : ∀ b ∈ l.entries ++ [⟨x, a⟩], b.x ∉ xs :=
        List.forall_mem_append.mpr ⟨hlater, List.forall_mem_singleton.mpr hx⟩
      have hsize := Additions.size_addCopies hadd
      rw [hadd, Option.getD_some, List.map_map, ih hxs h12 hfits hothers (by omega)]
      refine List.map_congr_left fun m _ => ?_
      rw [Function.comp_apply, chosen_cons_some (Function.update_self x (some a) m),
        chosen_update_of_not_mem hx, List.append_assoc]
      rfl

theorem mem_fullColumns_iff (f : Field) (allowed : ColumnMask) (x : Nat) :
    x ∈ fullColumns f allowed ↔ allowed.contains x = true ∧ f.height x = 12 := by
  rw [fullColumns, List.mem_filter, ColumnMask.mem_toList_iff, beq_iff_eq]

theorem pairwise_fullColumns (f : Field) (allowed : ColumnMask) :
    (fullColumns f allowed).Pairwise (· < ·) := by
  have hcolumns : fieldColumns.Pairwise (· < ·) := by decide
  exact (hcolumns.filter _).filter _

theorem nodup_fullColumns (f : Field) (allowed : ColumnMask) : (fullColumns f allowed).Nodup :=
  (pairwise_fullColumns f allowed).imp Nat.ne_of_lt

theorem full_of_mem_fullColumns {allowed : ColumnMask} {x : Nat}
    (h : x ∈ fullColumns f allowed) : (1 ≤ x ∧ x ≤ 6) ∧ f.height x = 12 := by
  refine ⟨?_, ((mem_fullColumns_iff f allowed x).mp h).2⟩
  exact (mem_fieldColumns_iff x).mp (List.mem_filter.mp (List.mem_filter.mp h).1).1

theorem thirteenthRow_eq (hf : f.Covered) (allowed : ColumnMask) :
    thirteenthRow f allowed =
      (colorChoices (fullColumns f allowed)).map (topped f (fullColumns f allowed)) := by
  have hlen : (fullColumns f allowed).length ≤ 6 :=
    Nat.le_trans (List.length_filter_le _ _) (List.length_filter_le _ fieldColumns)
  refine oneEachFrom_eq hf (nodup_fullColumns f allowed) (fun x => full_of_mem_fullColumns)
    f.fits_nil (fun b hb => absurd hb List.not_mem_nil) ?_
  show 0 + _ ≤ 84
  omega

theorem column?_placeAll_chosen {xs : List Nat} (hxs : xs.Nodup) {m : Nat → Option Color}
    (hm : ChoosesOn xs m) (x : Nat) : (f.placeAll (chosen m xs)).column? x =
      (f.placeAll ((m x).map (⟨x, ·⟩)).toList).column? x := by
  rw [Field.column?_placeAll_filter]
  by_cases hx : x ∈ xs
  · rw [filter_chosen hxs hx]
  · rw [filter_chosen_of_not_mem hx, hm.eq_none hx]
    rfl

/-- a chosen puyo stands in row 13, and all else is as before -/
theorem topped_column {xs : List Nat} (hxs : xs.Nodup)
    (h12 : ∀ x ∈ xs, (1 ≤ x ∧ x ≤ 6) ∧ f.height x = 12) {m : Nat → Option Color}
    (hm : ChoosesOn xs m) (x : Nat) :
    (∀ y, (topped f xs m).field.color x y =
      if y = 13 then (m x).getD (f.color x y) else f.color x y) ∧
    (topped f xs m).field.height x = if (m x).isSome then 13 else f.height x := by
  have hcolumn := column?_placeAll_chosen (f := f) hxs hm x
  have hcolor := Field.color_congr_column? hcolumn
  have hheight := Field.height_congr_column? hcolumn
  show (∀ y, (f.placeAll _).color x y = _) ∧ (f.placeAll _).height x = _
  cases e : m x with
  | none =>
    rw [e] at hcolor hheight
    refine ⟨fun y => (hcolor y).trans ?_, hheight⟩
    show f.color x y = if y = 13 then f.color x y else f.color x y
    rw [ite_self]
  | some a =>
    rw [e] at hcolor hheight
    obtain ⟨hx, hfull⟩ := h12 x (hm x a e).1
    constructor
    · intro y
      rw [hcolor]
      show (f.place x a).color x y = if y = 13 then a else f.color x y
      rw [f.color_place hx (by omega), hfull]
      simp only [true_and]
    · rw [hheight]
      show (f.place x a).height x = 13
      rw [f.height_place hx, if_pos rfl, hfull]

/-- **The search through row 13 shows the full product.**  On every field that operations build and
for every mask, take the allowed columns of height 12 in ascending order.  The search shows one
candidate for each map from them to nothing or a normal color, the map to nothing first, to whatever
visitor it has.  The list of a candidate names the columns with a color in ascending order, each
once, and its field is the given one with these colors in row 13. -/
theorem visitThirteenthRow_shows_product (hf : f.Built) (allowed : ColumnMask) :
    (∀ x, x ∈ fullColumns f allowed ↔ allowed.contains x = true ∧ f.height x = 12) ∧
    (fullColumns f allowed).Pairwise (· < ·) ∧
    (∀ {σ : Type} (visit : Visitor σ Candidate) (s : σ), visitThirteenthRow f allowed visit s =
      each visit
        ((colorChoices (fullColumns f allowed)).map (topped f (fullColumns f allowed))) s) ∧
    (colorChoices (fullColumns f allowed)).Nodup ∧
    (∀ m, m ∈ colorChoices (fullColumns f allowed) ↔ ChoosesOn (fullColumns f allowed) m) ∧
    (colorChoices (fullColumns f allowed)).length = 5 ^ (fullColumns f allowed).length ∧
    (colorChoices (fullColumns f allowed)).head? = some (fun _ => none) ∧
    (∀ m ∈ colorChoices (fullColumns f allowed), ∀ g l,
      topped f (fullColumns f allowed) m = ⟨g, l⟩ →
      (l.entries.map Addition.x).Pairwise (· < ·) ∧
      (∀ a, a ∈ l.entries ↔ m a.x = some a.color) ∧
      ∀ x, (∀ y, g.color x y = if y = 13 then (m x).getD (f.color x y) else f.color x y) ∧
        g.height x = if (m x).isSome then 13 else f.height x) := by
  have hnodup := nodup_fullColumns f allowed
  have hmem : ∀ m, m ∈ colorChoices (fullColumns f allowed) ↔
      ChoosesOn (fullColumns f allowed) m := fun m => mem_colorChoices_iff hnodup
  refine ⟨mem_fullColumns_iff f allowed, pairwise_fullColumns f allowed, fun visit s => ?_,
    nodup_colorChoices hnodup, hmem, length_colorChoices _, head?_colorChoices _,
    fun m hm g l e => ?_⟩
  · rw [visitThirteenthRow_eq_each, thirteenthRow_eq hf.covered]
  · obtain ⟨rfl, rfl⟩ := Candidate.mk.inj e
    have hchooses := (hmem m).mp hm
    refine ⟨?_, fun a => ?_, topped_column hnodup (fun x => full_of_mem_fullColumns) hchooses⟩
    · rw [map_x_chosen]
      exact (pairwise_fullColumns f allowed).filter _
    · rw [mem_chosen_iff]
      exact and_iff_right_of_imp fun h => (hchooses a.x a.color h).1

/-- column 2 is full up to row 13, and column 3 has a puyo there already -/
theorem visitThirteenthRow_shows_product_hangingPuyos :
    Field.hangingPuyos.Built ∧ fullColumns Field.hangingPuyos .all = [2] ∧
      gather (visitThirteenthRow Field.hangingPuyos .all) = [⟨Field.hangingPuyos, .empty⟩,
        ⟨Field.hangingPuyos.set 2 13 .red, ⟨[⟨2, .red⟩]⟩⟩,
        ⟨Field.hangingPuyos.set 2 13 .blue, ⟨[⟨2, .blue⟩]⟩⟩,
        ⟨Field.hangingPuyos.set 2 13 .yellow, ⟨[⟨2, .yellow⟩]⟩⟩,
        ⟨Field.hangingPuyos.set 2 13 .green, ⟨[⟨2, .green⟩]⟩⟩] := by
  have hf : Field.hangingPuyos.Built := ⟨Field.empty, Or.inl rfl, _, rfl⟩
  obtain ⟨_, _, hshown, _⟩ := visitThirteenthRow_shows_product hf .all
  refine ⟨hf, by decide +kernel, ?_⟩
  rw [gather_eq fun visit s => hshown visit s]
  decide +kernel

end PuyoChain
