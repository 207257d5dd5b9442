import PuyoChain.Field.Group
import PuyoChain.Proofs.Search.Reach

/-!
# Groups are connected components

* `visibleCells`       the visible cells;
* `mem_group_iff`      `Field.group` lists the cells that steps between joined cells lead to;
* `groupSize_eq_of_mem`   all cells of a group have groups of one size;
* `mem_group_above`    puyos of one color that stand on each other are in one group;
* `inVanishing_iff`    the count up to 4 tells whether a group has four cells;
* `group_subset_group` a group whose cells keep their colors in another field is part of a group
                       there, as all are in a field that keeps the visible puyos
                       (`KeptIn.groupSize_le`).
-/

namespace PuyoChain

/-- the visible cells, column by column -/
def visibleCells : List Cell := fieldColumns.flatMap fun x => (rowsUpTo 12).map fun y => ⟨x, y⟩

theorem mem_visibleCells_iff (p : Cell) : p ∈ visibleCells ↔ p.isVisible = true := by
  rw [Cell.isVisible_iff]
  exact mem_flatMap_rowsUpTo_iff 12 p

theorem length_visibleCells : visibleCells.length = 72 := rfl

theorem Cell.mem_neighbors_symm {p q : Cell} (hp : p.isVisible = true) (hq : q.isVisible = true)
    (h : q ∈ p.neighbors) : p ∈ q.neighbors := by
  obtain ⟨px, py⟩ := p
  obtain ⟨qx, qy⟩ := q
  rw [Cell.isVisible_iff] at hp hq
  simp only [Cell.neighbors, List.mem_cons, Cell.mk.injEq, List.not_mem_nil, or_false] at h hp hq ⊢
  omega

namespace Field

theorem within_joined (f : Field) (a : Color) : Within (f.joined a) visibleCells := by
  intro p q h
  rw [mem_visibleCells_iff]
  exact ((f.mem_joined_iff a p q).mp h).2.1

theorem canJoin_iff (f : Field) (p : Cell) :
    f.canJoin p = true ↔
      p.isVisible = true ∧ f.colorAt p ≠ .empty ∧ f.colorAt p ≠ .wall := by
  unfold canJoin
  rw [Bool.and_eq_true, Bool.and_eq_true, bne_iff_ne, bne_iff_ne, and_assoc]

theorem group_of_canJoin {f : Field} {p : Cell} (h : f.canJoin p = true) :
    f.group p = spread (f.joined (f.colorAt p)) visibleCount [] [p] := if_pos h

theorem group_of_not_canJoin {f : Field} {p : Cell} (h : ¬ f.canJoin p = true) :
    f.group p = [] := if_neg h

theorem mem_group_iff {f : Field} {p : Cell} (h : f.canJoin p = true) (q : Cell) :
    q ∈ f.group p ↔ Leads (f.joined (f.colorAt p)) p q := by
  rw [group_of_canJoin h]
  refine mem_spread_iff (f.within_joined _).closedUnder ?_ ((mem_visibleCells_iff p).mpr ?_) q
  · rw [length_visibleCells]
    exact Nat.le_refl 72
  · exact ((f.canJoin_iff p).mp h).1

theorem nodup_group (f : Field) (p : Cell) : (f.group p).Nodup := by
  by_cases h : f.canJoin p = true
  · rw [group_of_canJoin h]
    exact nodup_spread _ _
  · rw [group_of_not_canJoin h]
    exact List.nodup_nil

theorem canJoin_of_mem_group {f : Field} {p q : Cell} (h : q ∈ f.group p) :
    f.canJoin p = true := by
  by_contra hn
  rw [group_of_not_canJoin hn] at h
  cases h

theorem mem_group_self {f : Field} {p : Cell} (h : f.canJoin p = true) : p ∈ f.group p :=
  (mem_group_iff h p).mpr (leads_refl _ p)

/-! ## the cells of a group -/

theorem visible_and_color_of_leads {f : Field} {a : Color} {p q : Cell}
    (hp : p.isVisible = true ∧ f.colorAt p = a) (h : Leads (f.joined a) p q) :
    q.isVisible = true ∧ f.colorAt q = a :=
  h.hand_on (P := fun q => q.isVisible = true ∧ f.colorAt q = a)
    (fun c d _ hd => ((f.mem_joined_iff a c d).mp hd).2) hp

theorem visible_and_color_of_mem {f : Field} {p q : Cell} (h : q ∈ f.group p) :
    q.isVisible = true ∧ f.colorAt q = f.colorAt p := by
  have hj := canJoin_of_mem_group h
  exact visible_and_color_of_leads ⟨((f.canJoin_iff p).mp hj).1, rfl⟩ ((mem_group_iff hj q).mp h)

theorem canJoin_of_mem {f : Field} {p q : Cell} (h : q ∈ f.group p) : f.canJoin q = true := by
  obtain ⟨hv, hc⟩ := visible_and_color_of_mem h
  have hj := (f.canJoin_iff p).mp (canJoin_of_mem_group h)
  rw [canJoin_iff, hc]
  exact ⟨hv, hj.2⟩

theorem mem_group_symm {f : Field} {p q : Cell} (h : q ∈ f.group p) : p ∈ f.group q := by
  have hj := canJoin_of_mem_group h
  have hp := ((f.canJoin_iff p).mp hj).1
  obtain ⟨_, hc⟩ := visible_and_color_of_mem h
  rw [mem_group_iff (canJoin_of_mem h), hc]
  refine ((mem_group_iff hj q).mp h).symm fun c d hpc hd => ?_
  obtain ⟨hcv, hcc⟩ := visible_and_color_of_leads ⟨hp, rfl⟩ hpc
  obtain ⟨hn, hdv, _⟩ := (f.mem_joined_iff _ c d).mp hd
  exact (f.mem_joined_iff _ d c).mpr ⟨Cell.mem_neighbors_symm hcv hdv hn, hcv, hcc⟩

theorem mem_group_trans {f : Field} {p q r : Cell} (h : q ∈ f.group p) (h' : r ∈ f.group q) :
    r ∈ f.group p := by
  have hj := canJoin_of_mem_group h
  obtain ⟨_, hc⟩ := visible_and_color_of_mem h
  rw [mem_group_iff hj] at h ⊢
  rw [mem_group_iff (canJoin_of_mem_group h'), hc] at h'
  exact h.trans h'

theorem groupSize_le_of_subset {f g : Field} {p q : Cell} (h : f.group p ⊆ g.group q) :
    f.groupSize p ≤ g.groupSize q :=
  (f.nodup_group p).length_le_of_subset h

theorem groupSize_eq_of_mem {f : Field} {p q : Cell} (h : q ∈ f.group p) :
    f.groupSize q = f.groupSize p := by
  refine Nat.le_antisymm (groupSize_le_of_subset fun r hr => ?_)
    (groupSize_le_of_subset fun r hr => ?_)
  · exact mem_group_trans h hr
  · exact mem_group_trans (mem_group_symm h) hr

/-- puyos of one color that stand on each other are in one group -/
theorem mem_group_above {f : Field} {a : Color} {x y z : Nat} (hx : 1 ≤ x ∧ x ≤ 6) (hy : 1 ≤ y)
    (hyz : y ≤ z) (hz : z ≤ 12) (hempty : a ≠ .empty) (hwall : a ≠ .wall)
    (h : ∀ k, y ≤ k → k ≤ z → f.color x k = a) : ⟨x, z⟩ ∈ f.group ⟨x, y⟩ := by
  have hbottom : f.colorAt ⟨x, y⟩ = a := h y (Nat.le_refl y) hyz
  have hj : f.canJoin ⟨x, y⟩ = true := by
    rw [canJoin_iff, hbottom, Cell.isVisible_iff]
    exact ⟨⟨hx, hy, Nat.le_trans hyz hz⟩, hempty, hwall⟩
  rw [mem_group_iff hj, hbottom]
  induction hyz with
  | refl => exact leads_refl _ _
  | @step z hyz ih =>
    have hcol := h (z + 1) (Nat.le_succ_of_le hyz) (Nat.le_refl _)
    refine (ih (Nat.le_of_succ_le hz) fun k hk hkz => h k hk (Nat.le_succ_of_le hkz)).tail ?_
    refine (mem_joined_iff f a ⟨x, z⟩ ⟨x, z + 1⟩).mpr ⟨?_, ?_, hcol⟩
    · simp [Cell.neighbors]
    · rw [Cell.isVisible_iff]
      exact ⟨hx, Nat.le_add_left 1 z, hz⟩

/-! ## counting up to 4 -/

theorem groupSizeUpTo4_eq_min (f : Field) (p : Cell) :
    f.groupSizeUpTo4 p = min 4 (f.groupSize p) := by
  unfold groupSizeUpTo4 groupSize
  by_cases h : f.canJoin p = true
  · rw [if_pos h, group_of_canJoin h]
    exact spreadUpTo_eq_min (Nat.le_refl 4) (by decide) (by decide) [] [p]
  · rw [if_neg h, group_of_not_canJoin h]
    rfl

theorem inVanishing_iff (f : Field) (p : Cell) : f.inVanishing p = true ↔ 4 ≤ f.groupSize p := by
  unfold inVanishing
  rw [decide_eq_true_iff, groupSizeUpTo4_eq_min]
  omega

/-! ## two fields -/

/-- a group whose cells keep their colors is part of a group of the other field -/
theorem group_subset_group {f g : Field} {p : Cell}
    (h : ∀ q ∈ f.group p, g.colorAt q = f.colorAt q) : f.group p ⊆ g.group p := by
  intro q hq
  have hj := canJoin_of_mem_group hq
  have hp := h p (mem_group_self hj)
  have hj' : g.canJoin p = true := by
    rw [canJoin_iff] at hj ⊢
    rw [hp]
    exact hj
  rw [mem_group_iff hj', hp]
  refine ((mem_group_iff hj q).mp hq).mono fun c d hpc hd => ?_
  have hmem : d ∈ f.group p := (mem_group_iff hj d).mpr (Relation.ReflTransGen.tail hpc hd)
  obtain ⟨hn, hv, hc⟩ := (f.mem_joined_iff _ c d).mp hd
  refine (g.mem_joined_iff _ c d).mpr ⟨hn, hv, ?_⟩
  rw [h d hmem, hc]

/-- the other field holds every visible puyo of the field -/
def KeptIn (f g : Field) : Prop :=
  ∀ p, p.isVisible = true → f.colorAt p ≠ .empty → g.colorAt p = f.colorAt p

theorem KeptIn.trans {f g h : Field} (hfg : f.KeptIn g) (hgh : g.KeptIn h) : f.KeptIn h := by
  intro p hv hne
  have e := hfg p hv hne
  rw [hgh p hv (by rw [e]; exact hne), e]

theorem KeptIn.groupSize_le {f g : Field} (h : f.KeptIn g) (p : Cell) :
    f.groupSize p ≤ g.groupSize p := by
  refine groupSize_le_of_subset (group_subset_group fun q hq => ?_)
  obtain ⟨hv, hne, _⟩ := (f.canJoin_iff q).mp (canJoin_of_mem hq)
  exact h q hv hne

end Field

end PuyoChain
