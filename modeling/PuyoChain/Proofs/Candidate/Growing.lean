import PuyoChain.Proofs.Candidate.Listing
import PuyoChain.Proofs.Field.Connected
import PuyoChain.Proofs.Field.Landing

/-!
# One step of growing a group

* `Growth.Fillable`     a cell of the field by which a group may grow;
* `Field.fillUpTo`      the field with a column filled up to a cell;
* `grownAt`             what one step of `grow` lists for a cell (`grow_succ`, `mem_grow_succ_iff`);
* `Covered.groupSize_lt_fillUpTo`   filling up to a cell beside a group makes the group larger.
-/

namespace PuyoChain

/-- the cell is an empty one of the field, not above the ceiling and in an allowed column -/
structure Growth.Fillable (w : Growth) (f : Field) (p : Cell) : Prop where
  column : 1 ≤ p.x ∧ p.x ≤ 6
  row : 1 ≤ p.y ∧ p.y ≤ w.ceiling
  allowed : w.prohibited.contains p.x = false
  isEmpty : f.colorAt p = .empty

/-- the field with puyos of one color on a column, up to a cell above its height -/
def Field.fillUpTo (f : Field) (a : Color) (p : Cell) : Field :=
  f.placeAll (List.replicate (p.y - f.height p.x) ⟨p.x, a⟩)

theorem Growth.admits_iff (w : Growth) (f : Field) (p : Cell) :
    w.admits f p = true ↔ w.Fillable f p := by
  simp only [admits, Bool.and_eq_true, decide_eq_true_eq, Bool.not_eq_true', beq_iff_eq]
  constructor
  · rintro ⟨⟨⟨⟨⟨hx1, hx6⟩, hy1⟩, hy⟩, hm⟩, he⟩
    exact ⟨⟨hx1, hx6⟩, ⟨hy1, hy⟩, hm, he⟩
  · rintro ⟨⟨hx1, hx6⟩, ⟨hy1, hy⟩, hm, he⟩
    exact ⟨⟨⟨⟨⟨hx1, hx6⟩, hy1⟩, hy⟩, hm⟩, he⟩

theorem Growth.Fillable.isVisible {w : Growth} (hw : w.ceiling ≤ 12) {f : Field} {p : Cell}
    (h : w.Fillable f p) : p.isVisible = true :=
  (Cell.isVisible_iff p).mpr ⟨h.column, h.row.1, Nat.le_trans h.row.2 hw⟩

theorem mem_cellsAround_iff (p q : Cell) : q ∈ cellsAround p ↔ q ∈ p.neighbors := by
  simp only [cellsAround, Cell.neighbors, List.mem_cons, List.not_mem_nil, or_false]
  tauto

theorem mem_growthCells_iff (w : Growth) (f : Field) (group : List Cell) (p : Cell) :
    p ∈ growthCells w f group ↔ (∃ q ∈ group, p ∈ q.neighbors) ∧ w.Fillable f p := by
  simp only [growthCells, mem_fresh_iff, List.mem_filter, List.mem_flatMap, mem_cellsAround_iff,
    Growth.admits_iff, List.not_mem_nil, not_false_eq_true, and_true]

/-! ## filling a column -/

namespace Field

variable {f : Field} {a : Color} {p q c : Cell}

theorem color_fillUpTo (hx : 1 ≤ q.x ∧ q.x ≤ 6) (hy : q.y ≤ 14) (h : f.height q.x < q.y) (a : Color)
    (z y : Nat) : (f.fillUpTo a q).color z y =
      if z = q.x ∧ f.height q.x < y ∧ y ≤ q.y then a else f.color z y := by
  have e : f.height q.x + (q.y - f.height q.x) = q.y := by omega
  rw [fillUpTo, color_run hx a (by omega), e]

theorem colorAt_fillUpTo_self (hx : 1 ≤ q.x ∧ q.x ≤ 6) (hy : q.y ≤ 14) (h : f.height q.x < q.y)
    (a : Color) : (f.fillUpTo a q).colorAt q = a := by
  unfold colorAt
  rw [color_fillUpTo hx hy h, if_pos ⟨rfl, h, Nat.le_refl _⟩]

theorem Covered.keptIn_fillUpTo (hf : f.Covered) (hx : 1 ≤ q.x ∧ q.x ≤ 6) (hy : q.y ≤ 14)
    (h : f.height q.x < q.y) (a : Color) : f.KeptIn (f.fillUpTo a q) := by
  intro p hv hne
  rw [Cell.isVisible_iff] at hv
  unfold colorAt at hne ⊢
  have hle := hf.le_height hv.1 (by omega) hne
  rw [color_fillUpTo hx hy h, if_neg]
  rintro ⟨e, hlt, _⟩
  rw [e] at hle
  omega

section
variable (hf : f.Covered) (hc : c ∈ f.group p) (hq : q ∈ c.neighbors) (hv : q.isVisible = true)
  (h : f.height q.x < q.y)
include hf hc hq hv h

theorem Covered.mem_group_fillUpTo (ha : f.colorAt p = a) {r : Cell} (hr : r ∈ f.group p) :
    r ∈ (f.fillUpTo a q).group q := by
  have hvq := (Cell.isVisible_iff q).mp hv
  have hkept := hf.keptIn_fillUpTo hvq.1 (by omega) h a
  have hin : ∀ s ∈ f.group p, s ∈ (f.fillUpTo a q).group p := by
    refine group_subset_group fun s hs => ?_
    obtain ⟨hvs, hne, _⟩ := (f.canJoin_iff s).mp (canJoin_of_mem hs)
    exact hkept s hvs hne
  have hcp := hin c hc
  have hj := canJoin_of_mem hcp
  have hcol : (f.fillUpTo a q).colorAt c = a := by
    obtain ⟨hvc, hne, _⟩ := (f.canJoin_iff c).mp (canJoin_of_mem hc)
    rw [hkept c hvc hne, (visible_and_color_of_mem hc).2, ha]
  have hqcol := colorAt_fillUpTo_self hvq.1 (by omega) h a
  have hqc : q ∈ (f.fillUpTo a q).group c := by
    rw [mem_group_iff hj, hcol]
    exact (leads_refl _ _).tail ((mem_joined_iff _ a c q).mpr ⟨hq, hv, hqcol⟩)
  exact mem_group_trans (mem_group_symm hqc) (mem_group_trans (mem_group_symm hcp) (hin r hr))

theorem Covered.groupSize_lt_fillUpTo (ha : f.colorAt p = a) :
    f.groupSize p < (f.fillUpTo a q).groupSize q := by
  have hvq := (Cell.isVisible_iff q).mp hv
  have hnew : q ∉ f.group p := by
    intro hqp
    refine ((f.canJoin_iff q).mp (canJoin_of_mem hqp)).2.1 ?_
    exact hf.color_eq_empty hvq.1 h (by omega)
  have hself := mem_group_self (canJoin_of_mem_group (hf.mem_group_fillUpTo hc hq hv h ha hc))
  have hsub : q :: f.group p ⊆ (f.fillUpTo a q).group q := by
    refine List.cons_subset.mpr ⟨hself, fun r hr => ?_⟩
    exact hf.mem_group_fillUpTo hc hq hv h ha hr
  have hle := (List.nodup_cons.mpr ⟨hnew, f.nodup_group p⟩).length_le_of_subset hsub
  rwa [List.length_cons] at hle

end

end Field

/-! ## one step -/

theorem stackCopies_eq_fillUpTo {w : Growth} (hw : w.ceiling ≤ 12) {f : Field}
    {group : List Cell} {p : Cell} (hp : p ∈ growthCells w f group) (h : f.height p.x < p.y)
    (a : Color) : stackCopies p.x a (p.y - f.height p.x) f = f.fillUpTo a p := by
  obtain ⟨_, hfill⟩ := (mem_growthCells_iff w f group p).mp hp
  have hy := hfill.row
  exact Field.stackCopies_eq_run hfill.column a (by omega)

/-- what a step of `grow` lists for one cell -/
def grownAt (w : Growth) (a : Color) (fuel : Nat) (f : Field) (budget : Nat) (l : Additions)
    (p : Cell) : List Candidate :=
  if f.height p.x < p.y ∧ p.y - f.height p.x ≤ budget then
    match l.addCopies p.x a (p.y - f.height p.x) with
    | none => []
    | some m =>
      if 4 ≤ (f.fillUpTo a p).groupSize p then [⟨f.fillUpTo a p, m⟩]
      else
        Candidate.shown w.purpose ⟨f.fillUpTo a p, m⟩ ++
          grow w a fuel (f.fillUpTo a p) ((f.fillUpTo a p).group p)
            (budget - (p.y - f.height p.x)) m
  else []

theorem grow_succ {w : Growth} (hw : w.ceiling ≤ 12) (a : Color) (fuel : Nat) (f : Field)
    (group : List Cell) (budget : Nat) (l : Additions) :
    grow w a (fuel + 1) f group budget l =
      (growthCells w f group).flatMap (grownAt w a fuel f budget l) := by
  rw [grow]
  refine List.flatMap_congr fun p hp => ?_
  unfold grownAt
  dsimp only
  by_cases hcost : p.y - f.height p.x = 0 ∨ budget < p.y - f.height p.x
  · rw [if_pos hcost, if_neg (by omega)]
  · rw [if_neg hcost, if_pos (by omega), stackCopies_eq_fillUpTo hw hp (by omega)]
    rfl

/-- one step fills a column up to an empty cell beside the group, for as many puyos as that takes;
either the cell is then in a vanishing group, or its group grows further -/
theorem mem_grow_succ_iff {w : Growth} (hw : w.ceiling ≤ 12) {a : Color} {fuel : Nat} {f : Field}
    {group : List Cell} {budget : Nat} {l : Additions} {c : Candidate} :
    c ∈ grow w a (fuel + 1) f group budget l ↔
      ∃ p ∈ growthCells w f group, f.height p.x < p.y ∧ p.y - f.height p.x ≤ budget ∧
        ∃ m, l.addCopies p.x a (p.y - f.height p.x) = some m ∧
          (4 ≤ (f.fillUpTo a p).groupSize p ∧ c = ⟨f.fillUpTo a p, m⟩ ∨
            (f.fillUpTo a p).groupSize p < 4 ∧
              (w.purpose = .key ∧ c = ⟨f.fillUpTo a p, m⟩ ∨
                c ∈ grow w a fuel (f.fillUpTo a p) ((f.fillUpTo a p).group p)
                  (budget - (p.y - f.height p.x)) m)) := by
  rw [grow_succ hw, List.mem_flatMap]
  refine exists_congr fun p => and_congr_right fun _ => ?_
  unfold grownAt
  by_cases hpay : f.height p.x < p.y ∧ p.y - f.height p.x ≤ budget
  · rw [if_pos hpay, and_iff_right hpay.1, and_iff_right hpay.2]
    cases hm : l.addCopies p.x a (p.y - f.height p.x) with
    | none =>
      refine iff_of_false List.not_mem_nil ?_
      rintro ⟨m, h, _⟩
      cases h
    | some m =>
      simp only [Option.some.injEq, exists_eq_left']
      by_cases h4 : 4 ≤ (f.fillUpTo a p).groupSize p
      · rw [if_pos h4, List.mem_singleton]
        refine ⟨fun h => Or.inl ⟨h4, h⟩, ?_⟩
        rintro (⟨_, h⟩ | ⟨hn, _⟩)
        · exact h
        · omega
      · rw [if_neg h4, List.mem_append, mem_shown_iff]
        refine ⟨fun h => Or.inr ⟨by omega, h⟩, ?_⟩
        rintro (⟨h, _⟩ | ⟨_, h⟩)
        · exact absurd h h4
        · exact h
  · rw [if_neg hpay]
    refine iff_of_false List.not_mem_nil ?_
    rintro ⟨habove, hcost, _⟩
    exact hpay ⟨habove, hcost⟩

end PuyoChain
