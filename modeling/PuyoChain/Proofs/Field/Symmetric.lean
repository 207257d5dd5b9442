import PuyoChain.Proofs.Field.Compaction
import PuyoChain.Proofs.Field.Tracking
import PuyoChain.Proofs.Field.Vanishing
import PuyoChain.Proofs.Symmetry

/-!
# The rules are symmetric

Gravity, a vanish and the notes of a track give the same whether a symmetry is applied before them
or after them:

* `drop_onField`, `drop_onStarts`    gravity, which falls as far;
* `touches_cell_iff`, `component_cell`, `matched_cell_iff`   cells that touch, their components, and
                       the cells that vanish;
* `score_vanish_onField`, `exists_vanish?_onField`   a vanish, which scores the same;
* `mark_onStarts`      the notes of a step;
* `cascadeTracked_onField`   and so a whole chain, step by step.

The scan of the groups and the order of their cells are not the same, but only the set of the cells
that vanish counts.
-/

namespace PuyoChain

theorem EraseTrack.ext_erasedAt {t u : EraseTrack} (h : ∀ x y, t.erasedAt x y = u.erasedAt x y) :
    t = u := by
  obtain ⟨steps⟩ := t
  obtain ⟨steps'⟩ := u
  congr 1
  refine Vector.ext fun i hi => Vector.ext fun j hj => ?_
  have herased := h i j
  unfold erasedAt at herased
  rwa [dif_pos ⟨hi, hj⟩, dif_pos ⟨hi, hj⟩] at herased

/-! ## stacks and columns -/

/-- a stack of renamed entries settles as the stack does -/
theorem settle_map {α β : Type} {φ : α → β} (isBlank : α → Bool) (isBlank' : β → Bool)
    (h : ∀ a, isBlank' (φ a) = isBlank a) {blank : α} {blank' : β} (hblank : φ blank = blank')
    (gap : Nat) (as : List α) : settle blank' isBlank' gap (as.map φ) =
      ((settle blank isBlank gap as).1.map φ, (settle blank isBlank gap as).2) := by
  subst hblank
  induction as generalizing gap with
  | nil =>
    unfold settle
    rw [List.map_nil, List.map_replicate]
  | cons a as ih =>
    rw [List.map_cons, settle, settle, h]
    split
    · exact ih (gap + 1)
    · rw [ih]
      rfl

namespace Column

variable {φ : Color → Color} (hφ : ∀ a, φ a = .empty ↔ a = .empty)
include hφ

theorem beq_empty_recolor (a : Color) : (φ a == .empty) = (a == .empty) := by
  rw [Bool.eq_iff_iff, beq_iff_eq, beq_iff_eq, hφ]

theorem puyos_recolor (c : Column) : (c.recolor φ).puyos = c.puyos.map φ := by
  have hfilled : ∀ a, (φ a != .empty) = (a != .empty) := fun a =>
    congrArg (!·) (beq_empty_recolor hφ a)
  simp only [puyos, recolor, Vector.toList_map, ← List.map_take, List.filter_map,
    Function.comp_def, hfilled]

theorem fall_drop_recolor (c : Column) : (c.recolor φ).drop.2 = c.drop.2 := by
  show (settle .empty (· == .empty) 0 ((c.cells.map φ).toList.take 13)).2 = _
  rw [Vector.toList_map, ← List.map_take, settle_map (· == .empty) (· == .empty)
    (beq_empty_recolor hφ) ((hφ .empty).mpr rfl)]
  rfl

/-- start rows fall by which cells are empty, whatever the colors are -/
theorem dropColumn_recolor (c : Column) (rows : Vector Nat 14) :
    StartRows.dropColumn (c.recolor φ) rows = StartRows.dropColumn c rows := by
  have hentries : ((c.cells.map φ).toList.zip rows.toList).take 13 =
      ((c.cells.toList.zip rows.toList).take 13).map (Prod.map φ id) := by
    rw [Vector.toList_map, List.zip_map_left, List.map_take]
  have hblank : Prod.map φ id (Color.empty, 0) = (Color.empty, 0) :=
    congrArg (·, 0) ((hφ .empty).mpr rfl)
  refine Vector.toList_inj.mp ?_
  show (settle (Color.empty, 0) (fun e => e.1 == .empty) 0
    (((c.cells.map φ).toList.zip rows.toList).take 13)).1.map Prod.snd ++ _ = _
  rw [hentries, settle_map (fun e => e.1 == .empty) (fun e => e.1 == .empty)
    (fun e => beq_empty_recolor hφ e.1) hblank, List.map_map]
  rfl

variable (hwall : φ .wall = .wall)
include hwall

theorem top_recolor (c : Column) : (c.recolor φ).top = c.top := by
  have h : ∀ n, (c.recolor φ).topUpTo n = c.topUpTo n := by
    intro n
    induction n with
    | zero => rfl
    | succ n ih => simp only [topUpTo, color_recolor hwall, hφ, ih]
  exact h 14

theorem Exact.recolor {c : Column} (hc : c.Exact) : (c.recolor φ).Exact :=
  Eq.trans hc (top_recolor hφ hwall c).symm

theorem Covered.recolor {c : Column} (hc : c.Covered) : (c.recolor φ).Covered := by
  refine ⟨hc.1, fun y hlt hle => ?_⟩
  rw [color_recolor hwall, hφ]
  exact hc.2 y hlt hle

theorem clear_recolor (c : Column) (doomed : Nat → Bool) :
    (c.recolor φ).clear doomed = (c.clear doomed).recolor φ := by
  refine (exact_clear _ _).ext ((exact_clear c doomed).recolor hφ hwall) fun y h1 h14 => ?_
  rw [color_clear _ _ y ⟨h1, h14⟩, color_recolor hwall, color_recolor hwall,
    color_clear _ _ y ⟨h1, h14⟩]
  split
  · exact ((hφ .empty).mpr rfl).symm
  · rfl

theorem drop_recolor (c : Column) : (c.recolor φ).drop = (c.drop.1.recolor φ, c.drop.2) := by
  refine Prod.ext ?_ (fall_drop_recolor hφ c)
  refine (exact_drop _).ext ((exact_drop c).recolor hφ hwall) fun y h1 h14 => ?_
  rw [color_recolor hwall]
  by_cases h13 : y ≤ 13
  · rw [color_drop _ y h1 h13, color_drop c y h1 h13, puyos_recolor hφ, ← (hφ .empty).mpr rfl,
      List.getD_map, (hφ .empty).mpr rfl]
  · obtain rfl : y = 14 := by omega
    rw [color_drop_top, color_drop_top, color_recolor hwall]

end Column

namespace Symmetry

variable (σ : Symmetry) {f : Field} {o : StartRows} {t : EraseTrack} {p q : Cell}
  {doomed doomed' : List Cell} {chain : Nat}

theorem colors_eq_empty_iff (a : Color) : σ.colors a = .empty ↔ a = .empty :=
  σ.colors_eq_iff rfl a

/-! ## gravity -/

theorem drop_onField (f : Field) : (σ.onField f).drop = (σ.onField f.drop.1, f.drop.2) := by
  have hdrop := Column.drop_recolor σ.colors_eq_empty_iff (σ.fixed .wall rfl)
  refine Prod.ext (Field.ext_column? fun z => ?_) (eq_of_forall_ge_iff fun n => ?_)
  · obtain ⟨x, rfl⟩ := σ.column_involutive.surjective z
    rw [Field.column?_drop, column?_onField, column?_onField, Field.column?_drop, Option.map_map,
      Option.map_map]
    refine congrArg (Option.map · (f.column? x)) (funext fun c => ?_)
    exact congrArg Prod.fst (hdrop c)
  · show (σ.onField f).drop.2 ≤ n ↔ f.drop.2 ≤ n
    rw [Field.fall_drop_le_iff, Field.fall_drop_le_iff, σ.column_involutive.surjective.forall]
    simp only [column?_onField, Option.map_eq_some_iff, forall_exists_index, and_imp,
      forall_apply_eq_imp_iff₂, hdrop]

/-! ## cells that vanish -/

theorem beside_cell_iff (hp : p.isVisible = true) (hq : q.isVisible = true) :
    (σ.cell p).Beside (σ.cell q) ↔ p.Beside q := by
  have hbeside := σ.column_beside_iff ((Cell.isVisible_iff p).mp hp).1
    ((Cell.isVisible_iff q).mp hq).1
  have hsame : σ.column p.x = σ.column q.x ↔ p.x = q.x := σ.column_involutive.injective.eq_iff
  unfold Cell.Beside cell
  rw [hbeside, hsame]

theorem touches_cell_iff : (σ.onField f).Touches (σ.cell p) (σ.cell q) ↔ f.Touches p q := by
  unfold Field.Touches
  rw [isVisible_cell, isVisible_cell, colorAt_onField, colorAt_onField, σ.colors.injective.eq_iff]
  refine and_congr_right fun hp => and_congr_right fun hq => ?_
  rw [σ.beside_cell_iff hp hq]

theorem linked_cell_iff : (σ.onField f).Linked (σ.cell p) (σ.cell q) ↔ f.Linked p q := by
  constructor
  · intro h
    have hstep : ∀ a b, (σ.onField f).Touches a b → f.Touches (σ.cell a) (σ.cell b) := by
      intro a b hab
      rwa [← σ.touches_cell_iff, σ.cell_involutive, σ.cell_involutive]
    have hback : f.Linked (σ.cell (σ.cell p)) (σ.cell (σ.cell q)) :=
      Relation.ReflTransGen.lift σ.cell hstep _ _ h
    rwa [σ.cell_involutive, σ.cell_involutive] at hback
  · intro h
    exact Relation.ReflTransGen.lift σ.cell (fun a b => σ.touches_cell_iff.mpr) _ _ h

theorem component_cell (f : Field) (p : Cell) :
    (σ.onField f).component (σ.cell p) = (f.component p).map σ.cells.toEmbedding := by
  ext q
  obtain ⟨q, rfl⟩ := σ.cell_involutive.surjective q
  rw [Field.mem_component_iff, isVisible_cell, linked_cell_iff, ← Field.mem_component_iff]
  exact (Finset.mem_map' σ.cells.toEmbedding).symm

theorem matched_cell_iff : (σ.onField f).Matched (σ.cell p) ↔ f.Matched p := by
  unfold Field.Matched
  rw [isVisible_cell, colorAt_onField, isNormal_colors, component_cell, Finset.card_map]

theorem swept_cell_iff : (σ.onField f).Swept (σ.cell p) ↔ f.Swept p := by
  unfold Field.Swept
  rw [isVisible_cell, colorAt_onField, σ.colors_eq_iff rfl, σ.cell_involutive.surjective.exists]
  refine and_congr_right fun hp => and_congr_right fun _ => exists_congr fun q => ?_
  rw [matched_cell_iff]
  exact and_congr_right fun hq => σ.beside_cell_iff hq.1 hp

/-! ## one vanish -/

theorem covered_onField (hf : f.Covered) : (σ.onField f).Covered := by
  intro z d hd
  obtain ⟨x, rfl⟩ := σ.column_involutive.surjective z
  rw [column?_onField, Option.map_eq_some_iff] at hd
  obtain ⟨c, hc, rfl⟩ := hd
  exact (hf x c hc).recolor σ.colors_eq_empty_iff (σ.fixed .wall rfl)

theorem matchedCells_onField (f : Field) :
    (σ.onField f).matchedCells = f.matchedCells.map σ.cells.toEmbedding := by
  ext q
  obtain ⟨q, rfl⟩ := σ.cell_involutive.surjective q
  rw [Field.mem_matchedCells_iff, matched_cell_iff, ← Field.mem_matchedCells_iff]
  exact (Finset.mem_map' σ.cells.toEmbedding).symm

theorem matchedColors_onField (f : Field) :
    (σ.onField f).matchedColors = f.matchedColors.image σ.colors := by
  rw [Field.matchedColors, Field.matchedColors, matchedCells_onField, Finset.image_image,
    Finset.map_eq_image, Finset.image_image]
  exact Finset.image_congr fun p _ => σ.colorAt_onField f p

theorem matchedComponents_onField (f : Field) : (σ.onField f).matchedComponents =
    f.matchedComponents.image (Finset.map σ.cells.toEmbedding) := by
  rw [Field.matchedComponents, Field.matchedComponents, matchedCells_onField, Finset.image_image,
    Finset.map_eq_image, Finset.image_image]
  exact Finset.image_congr fun p _ => σ.component_cell f p

theorem score_vanish_onField (hf : f.Covered) (chain : Nat) :
    ((σ.onField f).vanish chain).2 = (f.vanish chain).2 := by
  rw [Field.score_vanish_eq hf, Field.score_vanish_eq (σ.covered_onField hf),
    matchedCells_onField, matchedColors_onField, matchedComponents_onField, Finset.card_map,
    Finset.card_image_of_injective _ σ.colors.injective,
    Finset.sum_image (Finset.map_injective _).injOn]
  simp only [Finset.card_map]

theorem clear_onField (h : ∀ p, σ.cell p ∈ doomed' ↔ p ∈ doomed) :
    (σ.onField f).clear doomed' = σ.onField (f.clear doomed) := by
  refine Field.ext_column? fun z => ?_
  obtain ⟨x, rfl⟩ := σ.column_involutive.surjective z
  rw [Field.column?_clear, column?_onField, column?_onField, Field.column?_clear, Option.map_map,
    Option.map_map]
  refine congrArg (Option.map · (f.column? x)) (funext fun c => ?_)
  have hrow : (fun y => decide (⟨σ.column x, y⟩ ∈ doomed')) = fun y => decide (⟨x, y⟩ ∈ doomed) :=
    funext fun y => decide_eq_decide.mpr (h ⟨x, y⟩)
  rw [Function.comp_apply, Function.comp_apply, hrow,
    Column.clear_recolor σ.colors_eq_empty_iff (σ.fixed .wall rfl)]

theorem fires_onField (hf : f.Covered) : (σ.onField f).fires = f.fires := by
  rw [Bool.eq_iff_iff, Field.fires_iff_matched hf, Field.fires_iff_matched (σ.covered_onField hf),
    σ.cell_involutive.surjective.exists]
  exact exists_congr fun p => σ.matched_cell_iff

/-- a vanish of the image empties the images of the cells, and scores the same -/
theorem exists_vanish?_onField (hf : f.Covered) {v : Vanish} (hv : f.vanish? chain = some v) :
    ∃ w, (σ.onField f).vanish? chain = some w ∧ w.score = v.score ∧
      (∀ p, σ.cell p ∈ w.doomed ↔ p ∈ v.doomed) ∧ w.field = σ.onField v.field := by
  have hf' := σ.covered_onField hf
  cases hw : (σ.onField f).vanish? chain with
  | none =>
    rw [Field.vanish?_eq_none_iff, σ.fires_onField hf, ← Field.vanish?_eq_none_iff f chain,
      hv] at hw
    cases hw
  | some w =>
    have hscore := σ.score_vanish_onField hf chain
    rw [Field.vanish_of_vanish?_eq_some hv, Field.vanish_of_vanish?_eq_some hw] at hscore
    have hdoomed : ∀ p, σ.cell p ∈ w.doomed ↔ p ∈ v.doomed := by
      intro p
      rw [Field.mem_doomed_iff_matched hf' hw, Field.mem_doomed_iff_matched hf hv,
        matched_cell_iff, swept_cell_iff]
    refine ⟨w, rfl, hscore, hdoomed, ?_⟩
    rw [Field.field_of_vanish? hw, Field.field_of_vanish? hv, σ.clear_onField hdoomed]

/-! ## start rows and tracks -/

theorem ofField_onField (f : Field) :
    StartRows.ofField (σ.onField f) = σ.onStarts (StartRows.ofField f) := by
  refine StartRows.ext_get fun p hp => ?_
  obtain ⟨p, rfl⟩ := σ.cell_involutive.surjective p
  rw [get_onStarts, StartRows.get_ofField _ _ hp,
    StartRows.get_ofField f p ((σ.inField_cell p).mp hp), colorAt_onField]
  simp only [colors_eq_empty_iff]
  rfl

theorem clear_onStarts (h : ∀ p, σ.cell p ∈ doomed' ↔ p ∈ doomed) :
    (σ.onStarts o).clear doomed' = σ.onStarts (o.clear doomed) := by
  refine StartRows.ext_get fun p hp => ?_
  obtain ⟨p, rfl⟩ := σ.cell_involutive.surjective p
  rw [get_onStarts, StartRows.get_clear _ _ _ hp,
    StartRows.get_clear o doomed p ((σ.inField_cell p).mp hp), get_onStarts]
  simp only [h]

theorem drop_onStarts (f : Field) (o : StartRows) :
    (σ.onStarts o).drop (σ.onField f) = σ.onStarts (o.drop f) := by
  have hcolumn := Column.dropColumn_recolor σ.colors_eq_empty_iff
  unfold StartRows.drop onStarts onField across
  congr 1
  refine Vector.ext fun i hi => ?_
  split <;> simp [get_eq_getElem, hcolumn]

theorem mark_onStarts (h : ∀ p, σ.cell p ∈ doomed' ↔ p ∈ doomed) :
    (σ.onStarts o).mark chain doomed' (σ.onTrack t) = σ.onTrack (o.mark chain doomed t) := by
  refine EraseTrack.ext_erasedAt fun z r => ?_
  obtain ⟨x, rfl⟩ := σ.column_involutive.surjective z
  have hmarked : (∃ p ∈ doomed', p.x = σ.column x ∧ (σ.onStarts o).get p = r) ↔
      ∃ p ∈ doomed, p.x = x ∧ o.get p = r := by
    rw [σ.cell_involutive.surjective.exists]
    refine exists_congr fun p => ?_
    rw [h, get_onStarts]
    exact and_congr_right fun _ => and_congr_left fun _ => σ.column_involutive.injective.eq_iff
  rw [erasedAt_onTrack, StartRows.erasedAt_mark, StartRows.erasedAt_mark, erasedAt_onTrack]
  simp only [hmarked, column_lt_iff]

/-! ## the whole chain -/

theorem cascadeTracked_onField (fuel : Nat) (hf : f.Covered) (o : StartRows) (r : ChainResult)
    (t : EraseTrack) :
    Field.cascadeTracked fuel (σ.onField f) (σ.onStarts o) r (σ.onTrack t) =
      (σ.onField (Field.cascadeTracked fuel f o r t).1, (Field.cascadeTracked fuel f o r t).2.1,
        σ.onTrack (Field.cascadeTracked fuel f o r t).2.2) := by
  induction fuel generalizing f o r t with
  | zero => rfl
  | succ fuel ih =>
    unfold Field.cascadeTracked
    cases hv : f.vanish? (r.chains + 1) with
    | none =>
      have hw : (σ.onField f).vanish? (r.chains + 1) = none := by
        rw [Field.vanish?_eq_none_iff, σ.fires_onField hf, ← Field.vanish?_eq_none_iff f, hv]
      rw [hw]
    | some v =>
      obtain ⟨w, hw, hscore, hdoomed, hfield⟩ := σ.exists_vanish?_onField hf hv
      rw [hw]
      dsimp only
      rw [hscore, hfield, drop_onField, clear_onStarts σ hdoomed, drop_onStarts,
        mark_onStarts σ hdoomed]
      exact ih v.field.exact_drop.covered _ _ _

theorem simulateTracked_onField (f : Field) (t : EraseTrack) :
    (σ.onField f).simulateTracked (σ.onTrack t) =
      (σ.onField (f.simulateTracked t).1, (f.simulateTracked t).2.1,
        σ.onTrack (f.simulateTracked t).2.2) := by
  unfold Field.simulateTracked
  rw [drop_onField, ofField_onField, drop_onStarts]
  exact σ.cascadeTracked_onField stepBound f.exact_drop.covered _ _ _

end Symmetry

/-- **The rules are symmetric.**  Exchanging the normal colors of any field, or taking its mirror
image, changes nothing of the outcome of its chain: the field that is left has the colors exchanged,
or is the mirror image, and so is the track, from the same track on or from its mirror image. -/
theorem Field.simulateTracked_symmetric (f : Field) (t : EraseTrack) :
    (∀ p : Equiv.Perm NormalColor, (f.recolor p).simulateTracked t =
      ((f.simulateTracked t).1.recolor p, (f.simulateTracked t).2.1,
        (f.simulateTracked t).2.2)) ∧
    f.mirror.simulateTracked t.mirror =
      ((f.simulateTracked t).1.mirror, (f.simulateTracked t).2.1,
        (f.simulateTracked t).2.2.mirror) := by
  constructor
  · intro p
    have h := (Symmetry.recoloring p).simulateTracked_onField f t
    rwa [Symmetry.onField_recoloring, Symmetry.onField_recoloring, Symmetry.onTrack_recoloring,
      Symmetry.onTrack_recoloring] at h
  · have h := Symmetry.mirroring.simulateTracked_onField f t
    rwa [Symmetry.onField_mirroring, Symmetry.onField_mirroring, Symmetry.onTrack_mirroring,
      Symmetry.onTrack_mirroring] at h

end PuyoChain
