import Mathlib.Data.Nat.PSub
import PuyoChain.Proofs.Field.Components
import PuyoChain.Proofs.Field.Operations
import PuyoChain.Proofs.Search.Worklist

/-!
# Flooding a group on the map

The two loops that collect and count a group, with every access to the map and every subtraction as
a step that may fail.

* `Marks`                 a mark for each cell of the map; reading or writing one beside it fails;
* `Cell.neighbors?`       the cells beside a cell; fails where a column or row would be below zero;
* `Field.fill?`           the loop over a queue, which lists the cells of a group;
* `Field.count?`          the loop over a stack, which counts them, no further than a limit;
* `enterAround?_eq`       around a visible cell nothing fails, and the new cells of its color are
                          found;
* `fill?_eq_group`, `count?_eq_min`   so neither loop ever fails, and both end with what `group` and
                          `groupSize` answer;
* `flood_eq_component`    which is the component of the cell.
-/

namespace PuyoChain

/-! ## the map -/

/-- a mark for each cell of the map, column by column -/
structure Marks where
  columns : Vector (Vector Bool 16) 8

namespace Marks

def clean : Marks := ⟨Vector.replicate 8 (Vector.replicate 16 false)⟩

/-- whether a cell is marked, if the map has it -/
def get? (m : Marks) (p : Cell) : Option Bool :=
  if h : p.x < 8 ∧ p.y < 16 then some m.columns[p.x][p.y] else none

/-- the marks with one more, if the map has the cell -/
def mark? (m : Marks) (p : Cell) : Option Marks :=
  if h : p.x < 8 ∧ p.y < 16 then some ⟨m.columns.set p.x (m.columns[p.x].set p.y true)⟩ else none

/-- the marked cells of the map are those of the list -/
def Are (m : Marks) (seen : List Cell) : Prop :=
  ∀ p : Cell, p.x < 8 ∧ p.y < 16 → m.get? p = some (decide (p ∈ seen))

theorem are_clean : clean.Are [] := by
  intro p hp
  unfold get? clean
  rw [dif_pos hp]
  simp

theorem Are.congr {m : Marks} {seen seen' : List Cell} (h : m.Are seen)
    (hs : ∀ p, p ∈ seen ↔ p ∈ seen') : m.Are seen' := by
  intro p hp
  rw [h p hp]
  simp only [hs]

theorem get?_mark? {m m' : Marks} {p q : Cell} (hq : q.x < 8 ∧ q.y < 16)
    (h : m.mark? p = some m') : m'.get? q = if q = p then some true else m.get? q := by
  obtain ⟨x, y⟩ := p
  obtain ⟨x', y'⟩ := q
  unfold mark? at h
  split at h
  · obtain rfl := Option.some.inj h
    unfold get?
    rw [dif_pos hq, dif_pos hq]
    simp only [Cell.mk.injEq]
    by_cases hx : x' = x
    · subst hx
      by_cases hy : y' = y
      · subst hy
        simp
      · simp [hy, Ne.symm hy]
    · simp [hx, Ne.symm hx]
  · cases h

theorem Are.mark? {m : Marks} {seen : List Cell} (h : m.Are seen) {p : Cell}
    (hp : p.x < 8 ∧ p.y < 16) : ∃ m', m.mark? p = some m' ∧ m'.Are (p :: seen) := by
  obtain ⟨m', hm⟩ : ∃ m', m.mark? p = some m' := ⟨_, dif_pos hp⟩
  refine ⟨m', hm, fun q hq => ?_⟩
  rw [get?_mark? hq hm, h q hq]
  by_cases e : q = p
  · simp [e]
  · simp [e]

end Marks

/-- the four cells beside a cell, if neither its column nor its row is 0 -/
def Cell.neighbors? (p : Cell) : Option (List Cell) := do
  let left ← p.x.ppred
  let below ← p.y.ppred
  return [⟨p.x + 1, p.y⟩, ⟨left, p.y⟩, ⟨p.x, p.y + 1⟩, ⟨p.x, below⟩]

theorem Cell.neighbors?_eq {p : Cell} (hp : p.isVisible = true) :
    p.neighbors? = some p.neighbors := by
  obtain ⟨x, y⟩ := p
  rw [isVisible_iff] at hp
  dsimp only at hp
  obtain ⟨x, rfl⟩ : ∃ n, x = n + 1 := ⟨x - 1, by omega⟩
  obtain ⟨y, rfl⟩ : ∃ n, y = n + 1 := ⟨y - 1, by omega⟩
  rfl

/-- all cells beside a visible cell are on the map -/
theorem Cell.lt_of_mem_neighbors {p q : Cell} (hp : p.isVisible = true) (hq : q ∈ p.neighbors) :
    q.x < 8 ∧ q.y < 16 := by
  rw [mem_neighbors_iff hp] at hq
  rw [isVisible_iff] at hp
  unfold Beside at hq
  omega

namespace Field

/-! ## the loops -/

/-- the color of a cell, if the map has it -/
def read? (f : Field) (p : Cell) : Option Color :=
  if p.x < 8 ∧ p.y < 16 then some (f.colorAt p) else none

/-- the marks of a loop and its queue or stack -/
structure Flood where
  marks : Marks
  /-- the cells in the order in which they were found -/
  cells : List Cell

/-- a cell is found if it lies in a visible row, has no mark and is of color `a`; it is marked and
comes last -/
def enter? (f : Field) (a : Color) (s : Flood) (q : Cell) : Option Flood := do
  if q.y > visibleHeight then return s
  if ← s.marks.get? q then return s
  if (← f.read? q) != a then return s
  return ⟨← s.marks.mark? q, s.cells ++ [q]⟩

/-- looks at the four cells beside a cell -/
def enterAround? (f : Field) (a : Color) (s : Flood) (p : Cell) : Option Flood := do
  (← p.neighbors?).foldlM (f.enter? a) s

/-- goes through the cells from the index `head` on, while more come behind -/
def fillFrom? (f : Field) (a : Color) : Nat → Nat → Flood → Option (List Cell)
  | 0, _, _ => none
  | fuel + 1, head, s => do
    if head < s.cells.length then
      let s ← f.enterAround? a s (← s.cells[head]?)
      fillFrom? f a fuel (head + 1) s
    else return s.cells

/-- takes the last cell as long as there is one, after `count` others -/
def countFrom? (f : Field) (a : Color) (limit : Nat) : Nat → Nat → Flood → Option Nat
  | 0, _, _ => none
  | fuel + 1, count, s => do
    let some p := s.cells.getLast? | return count
    if limit ≤ count + 1 then return count + 1
    let s ← f.enterAround? a ⟨s.marks, s.cells.dropLast⟩ p
    countFrom? f a limit fuel (count + 1) s

/-- the color of a cell and a start from it, if it is visible and neither empty nor wall -/
def start? (f : Field) (p : Cell) : Option (Option (Color × Flood)) := do
  if !p.isVisible then return none
  let a ← f.read? p
  if a = .empty ∨ a = .wall then return none
  return some (a, ⟨← Marks.clean.mark? p, [p]⟩)

/-- the cells joined to a cell, in the order of a queue -/
def fill? (f : Field) (p : Cell) : Option (List Cell) := do
  let some (a, s) ← f.start? p | return []
  f.fillFrom? a (visibleCount + 1) 0 s

/-- the number of cells joined to a cell, counted by a stack up to a limit -/
def count? (f : Field) (limit : Nat) (p : Cell) : Option Nat := do
  let some (a, s) ← f.start? p | return 0
  f.countFrom? a limit (visibleCount + 1) 0 s

/-! ## one cell after the other -/

/-- the cell is visible and of color `a` -/
def joins (f : Field) (a : Color) (q : Cell) : Bool := q.isVisible && f.colorAt q == a

theorem joins_iff (f : Field) (a : Color) (q : Cell) :
    f.joins a q = true ↔ q.isVisible = true ∧ f.colorAt q = a := by
  rw [joins, Bool.and_eq_true, beq_iff_eq]

section
variable {f : Field} {a : Color} {s : Flood} {seen : List Cell} (hm : s.marks.Are seen) {q : Cell}
  (hq : q.x < 8 ∧ q.y < 16)
include hm hq

theorem enter?_of_mem (hs : q ∈ seen) : f.enter? a s q = some s := by
  unfold enter?
  by_cases hy : q.y > visibleHeight
  · rw [if_pos hy]
    rfl
  · rw [if_neg hy, hm q hq, decide_eq_true hs]
    rfl

theorem enter?_of_not_joined (ha : a ≠ .wall) (h : ¬ f.joins a q = true) :
    f.enter? a s q = some s := by
  unfold enter?
  by_cases hy : q.y > visibleHeight
  · rw [if_pos hy]
    rfl
  · rw [if_neg hy, hm q hq]
    by_cases hs : q ∈ seen
    · rw [decide_eq_true hs]
      rfl
    · have hc : f.colorAt q ≠ a := by
        intro hc
        apply h
        have hin := inField_of_color_ne_wall (f := f) (p := q) (by rw [hc]; exact ha)
        rw [Cell.inField_iff] at hin
        unfold visibleHeight at hy
        rw [joins_iff, Cell.isVisible_iff]
        exact ⟨⟨hin.1, hin.2.1, by omega⟩, hc⟩
      have hread : f.read? q = some (f.colorAt q) := if_pos hq
      rw [decide_eq_false hs, hread]
      simp [hc]

theorem enter?_of_joined (h : f.joins a q = true) (hs : q ∉ seen) :
    ∃ m, f.enter? a s q = some ⟨m, s.cells ++ [q]⟩ ∧ m.Are (q :: seen) := by
  rw [joins_iff, Cell.isVisible_iff] at h
  obtain ⟨⟨_, _, hy⟩, hc⟩ := h
  obtain ⟨m, hmark, hare⟩ := hm.mark? hq
  refine ⟨m, ?_, hare⟩
  have hread : f.read? q = some (f.colorAt q) := if_pos hq
  unfold enter?
  rw [if_neg (by unfold visibleHeight; omega), hm q hq, decide_eq_false hs, hread, hmark]
  simp [hc]

end

theorem foldlM_enter? {f : Field} {a : Color} (ha : a ≠ .wall) {qs : List Cell}
    (hqs : ∀ q ∈ qs, q.x < 8 ∧ q.y < 16) {s : Flood} {seen : List Cell}
    (hm : s.marks.Are seen) :
    ∃ m, qs.foldlM (f.enter? a) s =
        some ⟨m, s.cells ++ fresh seen (qs.filter (f.joins a))⟩ ∧
      m.Are (fresh seen (qs.filter (f.joins a)) ++ seen) := by
  induction qs generalizing s seen with
  | nil => exact ⟨s.marks, by rw [List.filter_nil, fresh_nil, List.append_nil]; rfl, hm⟩
  | cons q qs ih =>
    obtain ⟨hq, hrest⟩ := List.forall_mem_cons.mp hqs
    rw [List.foldlM_cons]
    by_cases h : f.joins a q = true
    · rw [List.filter_cons_of_pos h, fresh_cons]
      by_cases hs : q ∈ seen
      · rw [if_pos hs, enter?_of_mem hm hq hs]
        exact ih hrest hm
      · rw [if_neg hs]
        obtain ⟨m, henter, hare⟩ := enter?_of_joined hm hq h hs
        obtain ⟨m', hfold, hare'⟩ := ih hrest (s := ⟨m, s.cells ++ [q]⟩) hare
        refine ⟨m', ?_, hare'.congr fun p => ?_⟩
        · rw [henter]
          refine hfold.trans ?_
          rw [List.append_assoc]
          rfl
        · simp only [List.mem_append, List.mem_cons]
          tauto
    · rw [List.filter_cons_of_neg h, enter?_of_not_joined hm hq ha h]
      exact ih hrest hm

/-- around a visible cell nothing fails, and the cells joined to it that are new are found -/
theorem enterAround?_eq {f : Field} {a : Color} (ha : a ≠ .wall) {p : Cell}
    (hp : p.isVisible = true) {s : Flood} {seen : List Cell} (hm : s.marks.Are seen) :
    ∃ m, f.enterAround? a s p = some ⟨m, s.cells ++ fresh seen (f.joined a p)⟩ ∧
      m.Are (fresh seen (f.joined a p) ++ seen) := by
  unfold enterAround?
  rw [Cell.neighbors?_eq hp]
  exact foldlM_enter? ha (fun q => Cell.lt_of_mem_neighbors hp) hm

/-! ## what the loops end with -/

section
variable {f : Field} {a : Color} (ha : a ≠ .wall) {done seen pending : List Cell} {fuel : Nat}
  (h : Underway (f.joined a) visibleCells done seen pending)
  (hfuel : visibleCount < fuel + done.length)
include ha h hfuel

/-- the loop over a queue serves the cells behind its index -/
theorem fillFrom?_eq {m : Marks} (hm : m.Are seen) :
    f.fillFrom? a fuel done.length ⟨m, done ++ pending⟩ =
      some (done ++ serve enqueue (f.joined a) fuel seen pending) := by
  induction fuel generalizing done seen pending m with
  | zero =>
    have hle : done.length ≤ visibleCount := h.length_done_le
    omega
  | succ fuel ih =>
    unfold fillFrom?
    cases pending with
    | nil =>
      rw [List.append_nil, if_neg (Nat.lt_irrefl _)]
      rw [serve, List.append_nil]
      rfl
    | cons p pending =>
      have hp : p.isVisible = true := (mem_visibleCells_iff p).mp (h.within List.mem_cons_self)
      obtain ⟨m', haround, hare⟩ :=
        enterAround?_eq (f := f) ha hp (s := ⟨m, done ++ p :: pending⟩) hm
      have hstep := h.step puts_enqueue (f.within_joined a).closedUnder
      have hget : (done ++ p :: pending)[done.length]? = some p := by
        rw [List.getElem?_append_right (Nat.le_refl _), Nat.sub_self]
        rfl
      have hcells : done ++ p :: pending ++ fresh seen (f.joined a p) =
          done ++ [p] ++ enqueue (fresh seen (f.joined a p)) pending := by
        simp [enqueue]
      have hlen : (done ++ [p]).length = done.length + 1 := by simp
      have hrest := ih hstep (by rw [hlen]; omega) hare
      rw [if_pos (by simp)]
      show ((done ++ p :: pending)[done.length]?.bind fun q => (f.enterAround? a _ q).bind _) = _
      rw [hget, Option.bind_some, haround, Option.bind_some, hcells, ← hlen, hrest, serve,
        List.append_assoc]
      rfl

/-- the loop over a stack counts the cells that it serves, up to the limit -/
theorem countFrom?_eq {limit : Nat} (hlimit : done.length < limit) {m : Marks} (hm : m.Are seen) :
    f.countFrom? a limit fuel done.length ⟨m, pending.reverse⟩ =
      some (min limit (done.length + (serve push (f.joined a) fuel seen pending).length)) := by
  induction fuel generalizing done seen pending m with
  | zero =>
    have hle : done.length ≤ visibleCount := h.length_done_le
    omega
  | succ fuel ih =>
    unfold countFrom?
    cases pending with
    | nil =>
      have hmin : min limit (done.length + 0) = done.length := by omega
      exact congrArg some hmin.symm
    | cons p pending =>
      have hp : p.isVisible = true := (mem_visibleCells_iff p).mp (h.within List.mem_cons_self)
      have hlast : (p :: pending).reverse.getLast? = some p := by simp
      have hdrop : (p :: pending).reverse.dropLast = pending.reverse := by simp
      rw [hlast, hdrop, serve, List.length_cons]
      by_cases hfull : limit ≤ done.length + 1
      · have hmin : ∀ n, min limit (done.length + (n + 1)) = done.length + 1 := by omega
        rw [hmin]
        exact if_pos hfull
      · obtain ⟨m', haround, hare⟩ :=
          enterAround?_eq (f := f) ha hp (s := ⟨m, pending.reverse⟩) hm
        have hstep := h.step puts_push (f.within_joined a).closedUnder
        have hcells : pending.reverse ++ fresh seen (f.joined a p) =
            (push (fresh seen (f.joined a p)) pending).reverse := by
          simp [push]
        have hlen : (done ++ [p]).length = done.length + 1 := by simp
        have hrest := ih hstep (by rw [hlen]; omega) (by rw [hlen]; omega) hare
        show (if limit ≤ done.length + 1 then _ else (f.enterAround? a _ p).bind _) = _
        rw [if_neg hfull, haround, Option.bind_some, hcells, ← hlen, hrest, hlen]
        congr 2
        omega

end

/-! ## groups and components -/

theorem start?_of_canJoin {f : Field} {p : Cell} (hj : f.canJoin p = true) :
    ∃ m, f.start? p = some (some (f.colorAt p, ⟨m, [p]⟩)) ∧ m.Are [p] := by
  obtain ⟨hp, he, hw⟩ := (f.canJoin_iff p).mp hj
  have hmap : p.x < 8 ∧ p.y < 16 := by
    rw [Cell.isVisible_iff] at hp
    omega
  have hread : f.read? p = some (f.colorAt p) := if_pos hmap
  obtain ⟨m, hmark, hare⟩ := Marks.are_clean.mark? hmap
  refine ⟨m, ?_, hare⟩
  unfold start?
  simp [hp, hread, hmark, he, hw]

theorem start?_of_not_canJoin {f : Field} {p : Cell} (hj : ¬ f.canJoin p = true) :
    f.start? p = some none := by
  unfold start?
  by_cases hp : p.isVisible = true
  · have hc : f.colorAt p = .empty ∨ f.colorAt p = .wall := by
      by_contra hn
      exact hj ((f.canJoin_iff p).mpr ⟨hp, not_or.mp hn⟩)
    have hread : f.read? p = some (f.colorAt p) := by
      rw [Cell.isVisible_iff] at hp
      exact if_pos (by omega)
    simp [hp, hread, hc]
  · simp [hp]

/-- the loop over a queue ends, without a failing access, with the cells of the group in order -/
theorem fill?_eq_group (f : Field) (p : Cell) : f.fill? p = some (f.group p) := by
  unfold fill?
  by_cases hj : f.canJoin p = true
  · obtain ⟨m, hstart, hare⟩ := start?_of_canJoin hj
    obtain ⟨hp, _, hw⟩ := (f.canJoin_iff p).mp hj
    have hmem : p ∈ visibleCells := (mem_visibleCells_iff p).mpr hp
    have hclosed := (f.within_joined (f.colorAt p)).closedUnder
    have hloop : f.fillFrom? (f.colorAt p) (visibleCount + 1) 0 ⟨m, [p]⟩ = _ :=
      fillFrom?_eq hw (underway_start hmem) (Nat.lt_succ_self visibleCount) hare
    rw [hstart, group_of_canJoin hj, ← serve_enqueue_eq_spread hclosed (Nat.le_succ visibleCount)
      (Nat.le_refl visibleCount) hmem]
    exact hloop
  · rw [start?_of_not_canJoin hj, group_of_not_canJoin hj]
    rfl

/-- the loop over a stack ends, without a failing access, with the size of the group or the limit -/
theorem count?_eq_min (f : Field) {limit : Nat} (hl : 0 < limit) (p : Cell) :
    f.count? limit p = some (min limit (f.groupSize p)) := by
  unfold count? groupSize
  by_cases hj : f.canJoin p = true
  · obtain ⟨m, hstart, hare⟩ := start?_of_canJoin hj
    obtain ⟨hp, _, hw⟩ := (f.canJoin_iff p).mp hj
    have hmem : p ∈ visibleCells := (mem_visibleCells_iff p).mpr hp
    have hclosed := (f.within_joined (f.colorAt p)).closedUnder
    have hloop : f.countFrom? (f.colorAt p) limit (visibleCount + 1) 0 ⟨m, [p]⟩ = _ :=
      countFrom?_eq hw (underway_start hmem) (Nat.lt_succ_self visibleCount) hl hare
    have hperm : (serve push (f.joined (f.colorAt p)) (visibleCount + 1) [p] [p]).Perm
        (spread (f.joined (f.colorAt p)) visibleCount [] [p]) :=
      serve_perm_spread puts_push hclosed (Nat.le_succ visibleCount) hmem (Nat.le_refl visibleCount)
    rw [List.length_nil, Nat.zero_add, hperm.length_eq] at hloop
    rw [hstart, group_of_canJoin hj]
    exact hloop
  · rw [start?_of_not_canJoin hj, group_of_not_canJoin hj, List.length_nil, Nat.min_zero]
    rfl

theorem length_group_le (f : Field) (p : Cell) : (f.group p).length ≤ 72 := by
  rw [← length_visibleCells]
  refine (f.nodup_group p).length_le_of_subset fun q hq => ?_
  exact (mem_visibleCells_iff q).mpr (visible_and_color_of_mem hq).1

/-- **Flooding finds the component.**  From a visible cell that is neither empty nor wall, the loop
over a queue ends without a failing access or subtraction and lists, each once, the cells to which a
path of visible cells of its color leads.  So does the loop over a stack: without a limit it counts
these cells, and with the limit 4 up to four of them. -/
theorem flood_eq_component (f : Field) {p : Cell} (hp : (1 ≤ p.x ∧ p.x ≤ 6) ∧ 1 ≤ p.y ∧ p.y ≤ 12)
    (he : f.colorAt p ≠ .empty) (hw : f.colorAt p ≠ .wall) :
    f.fill? p = some (f.group p) ∧ (f.group p).Nodup ∧
    (∀ q, q ∈ f.group p ↔ f.Linked p q) ∧
    (∀ limit, 72 ≤ limit → f.count? limit p = some (f.group p).length) ∧
    f.count? 4 p = some (min (f.group p).length 4) ∧
    f.groupSize p = (f.group p).length ∧ f.groupSizeUpTo4 p = min (f.group p).length 4 := by
  have hj : f.canJoin p = true := (f.canJoin_iff p).mpr ⟨(Cell.isVisible_iff p).mpr hp, he, hw⟩
  refine ⟨f.fill?_eq_group p, f.nodup_group p, mem_group_iff_linked hj, fun limit hlimit => ?_, ?_,
    rfl, ?_⟩
  · have hle := f.length_group_le p
    rw [f.count?_eq_min (by omega), groupSize, Nat.min_eq_right (by omega)]
  · rw [f.count?_eq_min (by omega), groupSize, Nat.min_comm]
  · rw [groupSizeUpTo4_eq_min, groupSize, Nat.min_comm]

/-- two red towers that rise above the visible rows, with a bridge on the floor -/
def redBridge : Field :=
  Field.empty.run (List.replicate 13 (.stack 1 .red) ++ .stack 2 .red ::
    List.replicate 13 (.stack 3 .red))

/-- from the top of one tower the group goes down, across and up again, but not above row 12 -/
theorem flood_eq_component_redBridge :
    redBridge.colorAt ⟨1, 12⟩ = .red ∧ redBridge.colorAt ⟨1, 13⟩ = .red ∧
      redBridge.count? 72 ⟨1, 12⟩ = some 25 ∧ redBridge.count? 4 ⟨1, 12⟩ = some 4 ∧
      redBridge.fill? ⟨1, 12⟩ = some (redBridge.group ⟨1, 12⟩) ∧
      redBridge.Linked ⟨1, 12⟩ ⟨3, 12⟩ ∧ ¬ redBridge.Linked ⟨1, 12⟩ ⟨1, 13⟩ := by
  have hred : redBridge.colorAt ⟨1, 12⟩ = .red := by decide +kernel
  have hsize : (redBridge.group ⟨1, 12⟩).length = 25 := by decide +kernel
  obtain ⟨hfill, _, hlinked, hcount, hcount4, _⟩ := flood_eq_component redBridge (p := ⟨1, 12⟩)
    (by decide) (by rw [hred]; decide) (by rw [hred]; decide)
  rw [hsize] at hcount4
  have hcount72 := (hcount 72 (Nat.le_refl 72)).trans (congrArg some hsize)
  refine ⟨hred, by decide +kernel, hcount72, hcount4, hfill, ?_, ?_⟩
  · exact (hlinked _).mp (by decide +kernel)
  · rw [← hlinked]
    decide +kernel

end Field

end PuyoChain
