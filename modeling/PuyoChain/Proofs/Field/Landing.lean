import PuyoChain.Candidate.Extend
import PuyoChain.Proofs.Field.Connected
import PuyoChain.Proofs.Field.Placing

/-!
# Where additions come to rest

* `Field.landings`       the cells in which additions come to rest, one after the other;
* `height_placeAll`      additions raise a column by their number on it;
* `stackAll?_of_fits`    a list that fits stacks, and one that stacks after another stacks with it
                         (`stackAll?_append`);
* `mem_landings_iff`     the landings on a column are the cells above its height, one per addition;
                         just these change color (`Covered.colorAt_placeAll_ne_iff`);
* `color_run`, `height_run`   a run of one color on one column fills the cells above its height.
-/

namespace PuyoChain

namespace Field

/-- the cells in which additions come to rest, one after the other -/
def landings : Field → List Addition → List Cell
  | _, [] => []
  | f, a :: as => ⟨a.x, f.height a.x + 1⟩ :: landings (f.place a.x a.color) as

theorem placeAll_append (f : Field) (as bs : List Addition) :
    f.placeAll (as ++ bs) = (f.placeAll as).placeAll bs := List.foldl_append

theorem landings_append (f : Field) (as bs : List Addition) :
    f.landings (as ++ bs) = f.landings as ++ (f.placeAll as).landings bs := by
  induction as generalizing f with
  | nil => rfl
  | cons a as ih => exact congrArg (_ :: ·) (ih _)

theorem Fits.append {f : Field} {as bs : List Addition} (ha : f.Fits as)
    (hb : (f.placeAll as).Fits bs) : f.Fits (as ++ bs) := by
  induction as generalizing f with
  | nil => exact hb
  | cons a as ih => exact ⟨ha.1, ha.2.1, ih ha.2.2 hb⟩

theorem Fits.of_append {f : Field} {as bs : List Addition} (h : f.Fits (as ++ bs)) :
    (f.placeAll as).Fits bs := by
  induction as generalizing f with
  | nil => exact h
  | cons a as ih => exact ih h.2.2

theorem Fits.column {f : Field} {as : List Addition} (h : f.Fits as) :
    ∀ a ∈ as, 1 ≤ a.x ∧ a.x ≤ 6 := by
  induction as generalizing f with
  | nil => exact fun a ha => absurd ha List.not_mem_nil
  | cons a as ih => exact List.forall_mem_cons.mpr ⟨h.1, ih h.2.2⟩

theorem height_placeAll {f : Field} {as : List Addition} (h : ∀ a ∈ as, 1 ≤ a.x ∧ a.x ≤ 6)
    (x : Nat) : (f.placeAll as).height x = f.height x + as.countP fun a => a.x == x := by
  induction as generalizing f with
  | nil => rfl
  | cons a as ih =>
    obtain ⟨hx, has⟩ := List.forall_mem_cons.mp h
    show ((f.place a.x a.color).placeAll as).height x = _
    rw [ih has, height_place f hx, List.countP_cons]
    by_cases e : x = a.x
    · rw [if_pos e, if_pos (by simp [e])]
      omega
    · rw [if_neg e, if_neg (by simp [Ne.symm e]), Nat.add_zero]

theorem stackAll?_of_fits {f : Field} (hf : f.Covered) {l : Additions} (h : f.Fits l.entries) :
    f.stackAll? l = some (f.placeAll l.entries) := by
  refine if_pos (List.all_eq_true.mpr fun x _ => decide_eq_true ?_)
  have hle := (hf.placeAll h).height_le x
  rwa [height_placeAll h.column] at hle

/-- a list that stacks on what another has made of a field stacks after that on the field -/
theorem stackAll?_append {f g h : Field} (hf : f.Covered) {l m k : Additions}
    (hl : ∀ a ∈ l.entries, 1 ≤ a.x ∧ a.x ≤ 6) (hm : ∀ a ∈ m.entries, 1 ≤ a.x ∧ a.x ≤ 6)
    (hk : k.entries = l.entries ++ m.entries) (hg : f.stackAll? l = some g)
    (hh : g.stackAll? m = some h) : f.stackAll? k = some h := by
  obtain ⟨hfit, rfl⟩ := stackAll?_eq_some hl hg
  obtain ⟨hfit', rfl⟩ := stackAll?_eq_some hm hh
  have hk' : f.Fits k.entries := by
    rw [hk]
    exact hfit.append hfit'
  rw [stackAll?_of_fits hf hk', hk, placeAll_append]

/-! ## the cells that additions fill -/

/-- additions come to rest above the height of their column, as many as there are on it -/
theorem mem_landings_iff {f : Field} {as : List Addition} (h : ∀ a ∈ as, 1 ≤ a.x ∧ a.x ≤ 6)
    (q : Cell) : q ∈ f.landings as ↔
      f.height q.x < q.y ∧ q.y ≤ f.height q.x + as.countP fun a => a.x == q.x := by
  obtain ⟨x, y⟩ := q
  induction as generalizing f with
  | nil =>
    refine iff_of_false List.not_mem_nil ?_
    rw [List.countP_nil]
    omega
  | cons a as ih =>
    obtain ⟨hx, has⟩ := List.forall_mem_cons.mp h
    show _ ∈ _ :: _ ↔ _
    rw [List.mem_cons, ih has, Cell.mk.injEq, List.countP_cons]
    dsimp only
    rw [height_place f hx]
    by_cases e : x = a.x
    · subst e
      rw [if_pos rfl, if_pos (by simp)]
      omega
    · rw [if_neg e, if_neg (by simp [Ne.symm e])]
      omega

theorem column_of_mem_landings {f : Field} {as : List Addition}
    (h : ∀ a ∈ as, 1 ≤ a.x ∧ a.x ≤ 6) {q : Cell} (hq : q ∈ f.landings as) :
    1 ≤ q.x ∧ q.x ≤ 6 := by
  obtain ⟨hlt, hle⟩ := (mem_landings_iff h q).mp hq
  obtain ⟨a, ha, e⟩ := List.countP_pos_iff.mp (show 0 < as.countP fun a => a.x == q.x by omega)
  rw [← beq_iff_eq.mp e]
  exact h a ha

theorem colorAt_placeAll_of_not_mem {f : Field} {as : List Addition} (h : f.Fits as) {q : Cell}
    (hq : q ∉ f.landings as) : (f.placeAll as).colorAt q = f.colorAt q := by
  obtain ⟨x, y⟩ := q
  induction as generalizing f with
  | nil => rfl
  | cons a as ih =>
    have hlater := List.not_mem_of_not_mem_cons hq
    refine (ih h.2.2 hlater).trans ((color_place f h.1 h.2.1 a.color x y).trans (if_neg ?_))
    rintro ⟨rfl, rfl⟩
    exact List.ne_of_not_mem_cons hq rfl

theorem colorAt_placeAll_of_mem {f : Field} {as : List Addition} (h : f.Fits as) {q : Cell}
    (hq : q ∈ f.landings as) : ∃ a ∈ as, (f.placeAll as).colorAt q = a.color := by
  induction as generalizing f with
  | nil => cases hq
  | cons a as ih =>
    by_cases hlater : q ∈ (f.place a.x a.color).landings as
    · obtain ⟨b, hb, e⟩ := ih h.2.2 hlater
      exact ⟨b, List.mem_cons_of_mem a hb, e⟩
    · obtain rfl := (List.mem_cons.mp hq).resolve_right hlater
      refine ⟨a, List.mem_cons_self, (colorAt_placeAll_of_not_mem h.2.2 hlater).trans ?_⟩
      exact (color_place f h.1 h.2.1 a.color _ _).trans (if_pos ⟨rfl, rfl⟩)

/-- each addition shows in the cell in which it comes to rest -/
theorem map_colorAt_landings {f : Field} {as : List Addition} (h : f.Fits as) :
    (f.landings as).map (f.placeAll as).colorAt = as.map Addition.color := by
  induction as generalizing f with
  | nil => rfl
  | cons a as ih =>
    have hlater : ⟨a.x, f.height a.x + 1⟩ ∉ (f.place a.x a.color).landings as := by
      rw [mem_landings_iff h.2.2.column]
      dsimp only
      rw [height_place f h.1, if_pos rfl]
      omega
    have hhead := (color_place f h.1 h.2.1 a.color a.x (f.height a.x + 1)).trans (if_pos ⟨rfl, rfl⟩)
    show (f.placeAll (a :: as)).colorAt ⟨a.x, f.height a.x + 1⟩ :: _ = a.color :: _
    rw [List.cons.injEq]
    exact ⟨(colorAt_placeAll_of_not_mem h.2.2 hlater).trans hhead, ih h.2.2⟩

theorem Covered.colorAt_of_mem_landings {f : Field} (hf : f.Covered) {as : List Addition}
    (h : f.Fits as) {q : Cell} (hq : q ∈ f.landings as) : f.colorAt q = .empty := by
  obtain ⟨hlt, hle⟩ := (mem_landings_iff h.column q).mp hq
  have h14 := (hf.placeAll h).height_le q.x
  rw [height_placeAll h.column] at h14
  exact hf.color_eq_empty (column_of_mem_landings h.column hq) hlt (by omega)

/-- the cells in which puyos come to rest are those that the field has not had -/
theorem Covered.colorAt_placeAll_ne_iff {f : Field} (hf : f.Covered) {as : List Addition}
    (h : f.Fits as) (ha : ∀ a ∈ as, a.color ≠ .empty) (q : Cell) :
    (f.placeAll as).colorAt q ≠ f.colorAt q ↔ q ∈ f.landings as := by
  refine ⟨fun hne => ?_, fun hq => ?_⟩
  · by_contra hq
    exact hne (colorAt_placeAll_of_not_mem h hq)
  · obtain ⟨a, hmem, e⟩ := colorAt_placeAll_of_mem h hq
    rw [e, hf.colorAt_of_mem_landings h hq]
    exact ha a hmem

/-- additions that come to rest above a field keep its puyos -/
theorem Covered.keptIn_placeAll {f : Field} (hf : f.Covered) {as : List Addition} (h : f.Fits as) :
    f.KeptIn (f.placeAll as) := by
  intro q _ hne
  refine colorAt_placeAll_of_not_mem h fun hq => hne ?_
  exact hf.colorAt_of_mem_landings h hq

/-- a cell as much higher as its column is higher on the field `f` than on `g` -/
def raise (f g : Field) (q : Cell) : Cell := ⟨q.x, q.y + (f.height q.x - g.height q.x)⟩

/-- on higher columns the same additions come to rest as much higher -/
theorem landings_eq_map_raise {f g : Field} {as : List Addition}
    (h : ∀ a ∈ as, 1 ≤ a.x ∧ a.x ≤ 6) (hle : ∀ x, g.height x ≤ f.height x) :
    f.landings as = (g.landings as).map (raise f g) := by
  induction as generalizing f g with
  | nil => rfl
  | cons a as ih =>
    obtain ⟨hx, has⟩ := List.forall_mem_cons.mp h
    have hf := height_place f hx a.color
    have hg := height_place g hx a.color
    have hraise : raise (f.place a.x a.color) (g.place a.x a.color) = raise f g := by
      funext q
      unfold raise
      rw [hf, hg]
      by_cases e : q.x = a.x
      · rw [if_pos e, if_pos e, Nat.add_sub_add_right]
      · rw [if_neg e, if_neg e]
    have hhead : raise f g ⟨a.x, g.height a.x + 1⟩ = ⟨a.x, f.height a.x + 1⟩ := by
      have hxle := hle a.x
      unfold raise
      rw [Cell.mk.injEq]
      exact ⟨rfl, by dsimp only; omega⟩
    have htail : (f.place a.x a.color).landings as =
        ((g.place a.x a.color).landings as).map (raise f g) := by
      rw [← hraise]
      refine ih has fun x => ?_
      have hxle := hle x
      rw [hf, hg]
      split <;> omega
    show _ :: _ = raise f g _ :: _
    rw [hhead, htail]

/-! ## additions to one column -/

theorem column?_placeAll_congr {f g : Field} {z : Nat} (h : f.column? z = g.column? z)
    (as : List Addition) : (f.placeAll as).column? z = (g.placeAll as).column? z := by
  induction as generalizing f g with
  | nil => exact h
  | cons a as ih =>
    refine ih ?_
    rw [column?_place, column?_place, h]

/-- a column sees the additions to it alone -/
theorem column?_placeAll_filter (f : Field) (as : List Addition) (z : Nat) :
    (f.placeAll as).column? z = (f.placeAll (as.filter fun a => a.x == z)).column? z := by
  induction as generalizing f with
  | nil => rfl
  | cons a as ih =>
    by_cases e : a.x = z
    · rw [List.filter_cons_of_pos (by simp [e])]
      exact ih _
    · rw [List.filter_cons_of_neg (by simp [e]), ← ih f]
      refine column?_placeAll_congr ?_ as
      rw [column?_place, if_neg (Ne.symm e)]

section
variable {f : Field} {x : Nat} (hx : 1 ≤ x ∧ x ≤ 6) (a : Color)
include hx

theorem fits_run {n : Nat} (h : f.height x + n ≤ 14) : f.Fits (List.replicate n ⟨x, a⟩) := by
  induction n generalizing f with
  | zero => trivial
  | succ n ih =>
    have hh := height_place f hx a x
    rw [if_pos rfl] at hh
    exact ⟨hx, show f.height x < 14 by omega, ih (by rw [hh]; omega)⟩

theorem height_run (n z : Nat) : (f.placeAll (List.replicate n ⟨x, a⟩)).height z =
    if z = x then f.height z + n else f.height z := by
  rw [height_placeAll fun b hb => by rw [List.eq_of_mem_replicate hb]; exact hx,
    List.countP_replicate]
  by_cases e : z = x
  · rw [if_pos e, if_pos (by simp [e])]
  · rw [if_neg e, if_neg (by simp [Ne.symm e]), Nat.add_zero]

theorem color_run {n : Nat} (h : f.height x + n ≤ 14) (z y : Nat) :
    (f.placeAll (List.replicate n ⟨x, a⟩)).color z y =
      if z = x ∧ f.height x < y ∧ y ≤ f.height x + n then a else f.color z y := by
  induction n with
  | zero =>
    rw [if_neg (by omega)]
    rfl
  | succ n ih =>
    have ih' := ih (by omega)
    rw [List.replicate_succ', placeAll_append]
    show ((f.placeAll (List.replicate n ⟨x, a⟩)).place x a).color z y = _
    have hh := height_run (f := f) hx a n x
    rw [if_pos rfl] at hh
    rw [color_place _ hx (by omega), ih', hh]
    by_cases e : z = x ∧ y = f.height x + n + 1
    · rw [if_pos e, if_pos (by omega)]
    · rw [if_neg e]
      by_cases e' : z = x ∧ f.height x < y ∧ y ≤ f.height x + n
      · rw [if_pos e', if_pos (by omega)]
      · rw [if_neg e', if_neg (by omega)]

theorem mem_landings_run (n : Nat) (q : Cell) : q ∈ f.landings (List.replicate n ⟨x, a⟩) ↔
    q.x = x ∧ f.height x < q.y ∧ q.y ≤ f.height x + n := by
  rw [mem_landings_iff fun b hb => by rw [List.eq_of_mem_replicate hb]; exact hx,
    List.countP_replicate]
  by_cases e : q.x = x
  · rw [if_pos (by simp [e]), e]
    exact (and_iff_right rfl).symm
  · rw [if_neg (by simp [Ne.symm e])]
    omega

theorem stackCopies_eq_run {n : Nat} (h : f.height x + n ≤ 14) :
    stackCopies x a n f = f.placeAll (List.replicate n ⟨x, a⟩) := by
  induction n generalizing f with
  | zero => rfl
  | succ n ih =>
    have hs : f.stack? x a = some (f.place x a) := if_pos ⟨hx, by omega⟩
    have hh := height_place f hx a x
    rw [if_pos rfl] at hh
    show stackCopies x a n ((f.stack? x a).getD f) = (f.place x a).placeAll _
    rw [hs]
    exact ih (by rw [Option.getD_some, hh]; omega)

end

end Field

end PuyoChain
