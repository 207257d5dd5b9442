import Mathlib.Data.Finset.Card
import Mathlib.Data.List.Nodup
import PuyoChain.Proofs.Field.Firing
import PuyoChain.Proofs.Field.Operations

/-!
# Components of one color

* `Cell.Beside`        two cells lie side by side;
* `Field.Linked`       a path of visible cells of one color leads from one cell to another;
* `Field.component`    the visible cells to which such paths lead;
* `mem_group_iff_linked`   `Field.group` lists the cells of a component, each once;
* `pairwise_groupsFrom`    the groups that a scan lists have no cell in common;
* `two_le_groupSize_iff`   a group has a second cell just if a visible neighbor has its color;
* `isConnected_iff_group_or_staged`   the look at the neighbors alone also finds the cell above row
                           12, which no group has.
-/

namespace PuyoChain

/-- the cells lie side by side, in a row or in a column -/
def Cell.Beside (p q : Cell) : Prop :=
  p.y = q.y ∧ (p.x + 1 = q.x ∨ q.x + 1 = p.x) ∨ p.x = q.x ∧ (p.y + 1 = q.y ∨ q.y + 1 = p.y)

/-- nothing is cut off at the border of the map where a visible cell has its neighbors -/
theorem Cell.mem_neighbors_iff {p : Cell} (hp : p.isVisible = true) (q : Cell) :
    q ∈ p.neighbors ↔ p.Beside q := by
  obtain ⟨px, py⟩ := p
  obtain ⟨qx, qy⟩ := q
  rw [Cell.isVisible_iff] at hp
  simp only [Cell.neighbors, Cell.Beside, List.mem_cons, Cell.mk.injEq, List.not_mem_nil, or_false]
    at hp ⊢
  omega

namespace Field

variable {f : Field} {p q : Cell}

/-- the cells lie side by side, both are visible, and they have one color -/
def Touches (f : Field) (p q : Cell) : Prop :=
  p.isVisible = true ∧ q.isVisible = true ∧ p.Beside q ∧ f.colorAt p = f.colorAt q

/-- a path of visible cells of one color leads from the one cell to the other -/
def Linked (f : Field) : Cell → Cell → Prop := Relation.ReflTransGen f.Touches

open Classical in
/-- the visible cells to which paths of one color lead from a cell -/
noncomputable def component (f : Field) (p : Cell) : Finset Cell :=
  visibleCells.toFinset.filter (f.Linked p)

theorem mem_component_iff (f : Field) (p q : Cell) :
    q ∈ f.component p ↔ q.isVisible = true ∧ f.Linked p q := by
  classical
  rw [component, Finset.mem_filter, List.mem_toFinset, mem_visibleCells_iff]

/-! ## groups list components -/

theorem mem_joined_iff_touches (hp : p.isVisible = true) :
    q ∈ f.joined (f.colorAt p) p ↔ f.Touches p q := by
  rw [mem_joined_iff, Cell.mem_neighbors_iff hp, Touches, eq_comm (a := f.colorAt q)]
  constructor
  · rintro ⟨hb, hq, hc⟩
    exact ⟨hp, hq, hb, hc⟩
  · rintro ⟨_, hq, hb, hc⟩
    exact ⟨hb, hq, hc⟩

theorem linked_iff_leads (hp : p.isVisible = true) :
    f.Linked p q ↔ Leads (f.joined (f.colorAt p)) p q := by
  constructor
  · intro h
    induction h with
    | refl => exact leads_refl _ p
    | tail _ hqr ih =>
      obtain ⟨hq, hc⟩ := visible_and_color_of_leads ⟨hp, rfl⟩ ih
      refine ih.tail ?_
      rw [← hc]
      exact (mem_joined_iff_touches hq).mpr hqr
  · intro h
    induction h with
    | refl => exact Relation.ReflTransGen.refl
    | tail hpq hqr ih =>
      obtain ⟨hq, hc⟩ := visible_and_color_of_leads ⟨hp, rfl⟩ hpq
      rw [← hc] at hqr
      exact ih.tail ((mem_joined_iff_touches hq).mp hqr)

theorem mem_group_iff_linked (h : f.canJoin p = true) (q : Cell) :
    q ∈ f.group p ↔ f.Linked p q := by
  rw [mem_group_iff h, linked_iff_leads ((f.canJoin_iff p).mp h).1]

theorem toFinset_group (h : f.canJoin p = true) : (f.group p).toFinset = f.component p := by
  ext q
  rw [List.mem_toFinset, mem_component_iff, ← mem_group_iff_linked h]
  exact ⟨fun hq => ⟨(visible_and_color_of_mem hq).1, hq⟩, fun hq => hq.2⟩

theorem card_component (h : f.canJoin p = true) : (f.component p).card = f.groupSize p := by
  rw [← toFinset_group h, List.toFinset_card_of_nodup (f.nodup_group p), groupSize]

theorem component_eq_of_mem_group (h : q ∈ f.group p) : f.component q = f.component p := by
  rw [← toFinset_group (canJoin_of_mem h), ← toFinset_group (canJoin_of_mem_group h)]
  ext r
  rw [List.mem_toFinset, List.mem_toFinset]
  exact ⟨mem_group_trans h, mem_group_trans (mem_group_symm h)⟩

/-! ## the groups of a scan -/

/-- the groups that a scan lists have no cell in common, neither with each other nor with the groups
that were seen before -/
theorem pairwise_groupsFrom (ps : List Cell) {seen : List Cell}
    (hseen : ∀ q ∈ seen, f.group q ⊆ seen) :
    (∀ g ∈ f.groupsFrom ps seen, g.cells.Disjoint seen) ∧
      (f.groupsFrom ps seen).Pairwise fun g k => g.cells.Disjoint k.cells := by
  induction ps generalizing seen with
  | nil => exact ⟨nofun, List.Pairwise.nil⟩
  | cons p ps ih =>
    unfold groupsFrom
    by_cases e : ((f.colorAt p).isNormal && decide (p ∉ seen)) = true
    · rw [if_pos e]
      rw [Bool.and_eq_true, decide_eq_true_iff] at e
      have hnew : (f.group p).Disjoint seen :=
        fun q hq hs => e.2 (hseen q hs (mem_group_symm hq))
      have hclosed : ∀ q ∈ f.group p ++ seen, f.group q ⊆ f.group p ++ seen := by
        intro q hq r hr
        rcases List.mem_append.mp hq with hq | hq
        · exact List.mem_append_left _ (mem_group_trans hq hr)
        · exact List.mem_append_right _ (hseen q hq hr)
      obtain ⟨hdisj, hpair⟩ := ih hclosed
      refine ⟨fun g hg => ?_, List.pairwise_cons.mpr ⟨fun g hg => ?_, hpair⟩⟩
      · rcases List.mem_cons.mp hg with rfl | hg
        · exact hnew
        · exact (List.disjoint_append_right.mp (hdisj g hg)).2
      · exact (List.disjoint_append_right.mp (hdisj g hg)).1.symm
    · rw [if_neg e]
      exact ih hseen

/-! ## a neighbor of the same color -/

theorem two_le_groupSize_of_mem_joined (hj : f.canJoin p = true)
    (hq : q ∈ f.joined (f.colorAt p) p) : 2 ≤ f.groupSize p := by
  obtain ⟨hp, hne, _⟩ := (f.canJoin_iff p).mp hj
  obtain ⟨hn, _⟩ := (f.mem_joined_iff _ p q).mp hq
  have hpq : p ≠ q := by
    rintro rfl
    rw [Cell.mem_neighbors_iff hp] at hn
    unfold Cell.Beside at hn
    omega
  have hsub : [p, q] ⊆ f.group p := by
    refine List.cons_subset.mpr ⟨mem_group_self hj, List.cons_subset.mpr ⟨?_, List.nil_subset _⟩⟩
    exact (mem_group_iff hj q).mpr ((leads_refl _ p).tail hq)
  exact (List.nodup_cons.mpr ⟨by simpa using hpq, List.nodup_singleton q⟩).length_le_of_subset hsub

theorem exists_mem_joined (hj : f.canJoin p = true) (h : 2 ≤ f.groupSize p) :
    ∃ q, q ∈ f.joined (f.colorAt p) p := by
  by_contra hn
  -- else no step leads away from the cell
  have halone : f.group p ⊆ [p] := by
    intro q hq
    rcases Relation.ReflTransGen.cases_head ((mem_group_iff hj q).mp hq) with rfl | ⟨c, hc, _⟩
    · exact List.mem_singleton_self p
    · exact absurd ⟨c, hc⟩ hn
  have hle : f.groupSize p ≤ 1 := (f.nodup_group p).length_le_of_subset halone
  omega

theorem two_le_groupSize_iff (hj : f.canJoin p = true) :
    2 ≤ f.groupSize p ↔
      ∃ q ∈ p.neighbors, q.isVisible = true ∧ f.colorAt q = f.colorAt p := by
  simp only [← mem_joined_iff]
  refine ⟨fun h => ?_, fun ⟨q, hq⟩ => two_le_groupSize_of_mem_joined hj hq⟩
  exact exists_mem_joined hj h

theorem isConnected_iff (f : Field) (p : Cell) :
    f.isConnected p = true ↔ ∃ q ∈ p.neighbors, f.colorAt q = f.colorAt p := by
  rw [isConnected, List.any_eq_true]
  simp only [beq_iff_eq]

/-- of the cells beside a visible cell, only that above row 12 is a staging cell -/
theorem eq_above_of_not_visible (hp : p.isVisible = true) (hq : q ∈ p.neighbors)
    (hin : q.inField = true) (hv : ¬ q.isVisible = true) : p.y = 12 ∧ q = ⟨p.x, 13⟩ := by
  obtain ⟨px, py⟩ := p
  obtain ⟨qx, qy⟩ := q
  rw [Cell.mem_neighbors_iff hp] at hq
  rw [Cell.isVisible_iff] at hp hv
  rw [Cell.inField_iff] at hin
  unfold Cell.Beside at hq
  rw [Cell.mk.injEq]
  dsimp only at hp hq hin hv ⊢
  omega

/-- **The look at the neighbors alone sees one more cell than a group: the one above row 12.** -/
theorem isConnected_iff_group_or_staged (f : Field) {p : Cell}
    (hp : (1 ≤ p.x ∧ p.x ≤ 6) ∧ 1 ≤ p.y ∧ p.y ≤ 12) (he : f.colorAt p ≠ .empty)
    (hw : f.colorAt p ≠ .wall) :
    f.isConnected p = true ↔
      2 ≤ f.groupSize p ∨ p.y = 12 ∧ f.color p.x 13 = f.colorAt p := by
  have hv : p.isVisible = true := (Cell.isVisible_iff p).mpr hp
  have hj : f.canJoin p = true := (f.canJoin_iff p).mpr ⟨hv, he, hw⟩
  rw [isConnected_iff, two_le_groupSize_iff hj]
  constructor
  · rintro ⟨q, hq, hc⟩
    by_cases hqv : q.isVisible = true
    · exact Or.inl ⟨q, hq, hqv, hc⟩
    · have hin : q.inField = true := inField_of_color_ne_wall (by rwa [hc])
      obtain ⟨hrow, rfl⟩ := eq_above_of_not_visible hv hq hin hqv
      exact Or.inr ⟨hrow, hc⟩
  · rintro (⟨q, hq, _, hc⟩ | ⟨hrow, hc⟩)
    · exact ⟨q, hq, hc⟩
    · refine ⟨⟨p.x, 13⟩, ?_, hc⟩
      rw [Cell.mem_neighbors_iff hv]
      exact Or.inr ⟨rfl, Or.inl (by rw [hrow])⟩

/-- a column of garbage with a red puyo in row 12 and another one above it -/
def redBorder : Field :=
  empty.run (List.replicate 11 (.stack 1 .garbage) ++ [.stack 1 .red, .stack 1 .red])

theorem isConnected_iff_group_or_staged_redBorder :
    redBorder.colorAt ⟨1, 12⟩ = .red ∧ redBorder.colorAt ⟨1, 11⟩ = .garbage ∧
      redBorder.isConnected ⟨1, 12⟩ = true ∧ redBorder.isConnected ⟨1, 11⟩ = true := by
  have hred : redBorder.colorAt ⟨1, 12⟩ = .red := by decide +kernel
  have hgarbage : redBorder.colorAt ⟨1, 11⟩ = .garbage := by decide +kernel
  have hsize : redBorder.groupSize ⟨1, 11⟩ = 11 := by decide +kernel
  refine ⟨hred, hgarbage, ?_, ?_⟩
  · exact (isConnected_iff_group_or_staged redBorder (p := ⟨1, 12⟩) (by decide)
      (by rw [hred]; decide) (by rw [hred]; decide)).mpr
      (Or.inr ⟨rfl, by rw [hred]; decide +kernel⟩)
  · exact (isConnected_iff_group_or_staged redBorder (p := ⟨1, 11⟩) (by decide)
      (by rw [hgarbage]; decide) (by rw [hgarbage]; decide)).mpr
      (Or.inl (by rw [hsize]; decide))

/-- the puyo in row 12 is alone in its group, and yet a neighbor has its color -/
theorem isConnected_ne_group_redBorder :
    redBorder.Built ∧ redBorder.colorAt ⟨1, 12⟩ = .red ∧
      redBorder.isConnected ⟨1, 12⟩ = true ∧ redBorder.groupSize ⟨1, 12⟩ = 1 :=
  ⟨⟨empty, Or.inl rfl, _, rfl⟩, by decide +kernel, by decide +kernel, by decide +kernel⟩

end Field

end PuyoChain
