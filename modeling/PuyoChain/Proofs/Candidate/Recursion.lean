import PuyoChain.Proofs.Candidate.Growing
import PuyoChain.Proofs.Field.Flood
import PuyoChain.Proofs.Search.Loops

/-!
# The calls of growing

The search that grows groups as a program: every call goes through its targets, shows what it has
filled to a visitor, calls itself, and cuts a list that all calls share back to what it was.
Subtractions, cells beside the map and calls that are too deep fail.

* `Growth.targets?`       the cells that a call fills, in their order (`targets?_eq`);
* `growBody?`, `grow?`    one call, and a call with all those below it;
* `Growth.Calls`          which call makes which: each is for a larger group (`Calls.length_lt`),
                          and no other is made (`growBody?_congr`);
* `Restores`              a search that shows a list and leaves the shared list as it is;
* `growing_ends`          so calls are never more than three deep, no step fails, and each call
                          shows what `grow` lists.
-/

namespace PuyoChain

/-! ## the program -/

/-- the cells around a cell in the order of growing, if all of them are on the map -/
def cellsAround? (p : Cell) : Option (List Cell) := do
  let left ← p.x.ppred
  let below ← p.y.ppred
  if p.x + 1 < 8 ∧ p.y + 1 < 16 then
    return [⟨left, p.y⟩, ⟨p.x + 1, p.y⟩, ⟨p.x, p.y + 1⟩, ⟨p.x, below⟩]
  else none

/-- a cell comes to the targets if it may be filled and is not one of them -/
def Growth.meet? (w : Growth) (f : Field) (targets : List Cell) (p : Cell) :
    Option (List Cell) := do
  if ¬ (1 ≤ p.x ∧ p.x ≤ 6) ∨ p.y = 0 ∨ p.y > w.ceiling ∨ w.prohibited.contains p.x = true then
    return targets
  if (← f.read? p) ≠ .empty ∨ p ∈ targets then return targets
  return targets ++ [p]

/-- the cells beside a group that may be filled -/
def Growth.targets? (w : Growth) (f : Field) (group : List Cell) : Option (List Cell) :=
  group.foldlM (fun targets q => do (← cellsAround? q).foldlM (w.meet? f) targets) []

/-- the field of a call, the group that it grows and the puyos that are left -/
structure GrowCall where
  field : Field
  group : List Cell
  budget : Nat

/-- the state of the visitor and the list that all calls share -/
abbrev Shared (σ : Type) := σ × Additions

/-- what calls do: they fail, or they end with a state and a list, or the visitor stops them -/
abbrev Callee (σ : Type) := GrowCall → Shared σ → Option (Flow σ (Shared σ))

section
variable {σ : Type} (w : Growth) (a : Color) (visit : Visitor σ Candidate)

/-- shows a filled target and, if its group is too small to vanish, grows it further by a call -/
def growOn? (call : Callee σ) (budget cost : Nat) (grown : Field) (members : List Cell)
    (t : Shared σ) : Option (Flow σ (Shared σ)) :=
  if 4 ≤ members.length then some ((visit t.1 ⟨grown, t.2⟩).map fun s => (s, t.2))
  else
    (each visit (Candidate.shown w.purpose ⟨grown, t.2⟩) t.1).andThen? fun s =>
      (Nat.psub budget cost).bind fun rest => call ⟨grown, members, rest⟩ (s, t.2)

/-- fills the column of a target up to it and goes on from there; then the list is cut back to what
it was before -/
def growAt? (call : Callee σ) (c : GrowCall) (t : Shared σ) (p : Cell) :
    Option (Flow σ (Shared σ)) :=
  -- a cell that is not above the height, as below a hanging puyo, is left out
  let cost := p.y - c.field.height p.x
  if cost = 0 ∨ c.budget < cost then some (.proceed t)
  else
    match t.2.addCopies p.x a cost with
    | none => some (.proceed t)
    | some m =>
      let grown := stackCopies p.x a cost c.field
      (grown.fill? p).bind fun members =>
        (growOn? w visit call c.budget cost grown members (t.1, m)).map fun ended =>
          ended.map fun t' => (t'.1, t'.2.truncate t.2.size)

/-- one call, in which `call` does what the calls do that it makes -/
def growBody? (call : Callee σ) : Callee σ := fun c t =>
  (w.targets? c.field c.group).bind fun ps => each? (growAt? w a visit call c) ps t

/-- a call with those that it makes, which fails if they are more than `depth` deep -/
def grow? : (depth : Nat) → Callee σ
  | 0 => fun _ _ => none
  | depth + 1 => growBody? w a visit (grow? depth)

end

/-! ## the targets -/

theorem cellsAround?_eq {p : Cell} (hp : p.isVisible = true) :
    cellsAround? p = some (cellsAround p) := by
  obtain ⟨x, y⟩ := p
  rw [Cell.isVisible_iff] at hp
  dsimp only at hp
  obtain ⟨x, rfl⟩ : ∃ n, x = n + 1 := ⟨x - 1, by omega⟩
  obtain ⟨y, rfl⟩ : ∃ n, y = n + 1 := ⟨y - 1, by omega⟩
  show (if x + 1 + 1 < 8 ∧ y + 1 + 1 < 16 then _ else none) = _
  rw [if_pos ⟨by omega, by omega⟩]
  rfl

section
variable (w : Growth) (f : Field)

/-- the targets with one more cell, if it may be filled and is not one of them -/
def Growth.meet (targets : List Cell) (p : Cell) : List Cell :=
  if p ∉ targets ∧ w.admits f p = true then targets ++ [p] else targets

/-- the column and the row of a cell are looked at before its color -/
theorem Growth.admits_iff_inside (p : Cell) :
    w.admits f p = true ↔ ¬ (¬ (1 ≤ p.x ∧ p.x ≤ 6) ∨ p.y = 0 ∨ p.y > w.ceiling ∨
      w.prohibited.contains p.x = true) ∧ f.colorAt p = .empty := by
  rw [w.admits_iff, not_or, not_or, not_or, not_not, Bool.not_eq_true]
  constructor
  · rintro ⟨hx, hy, hm, he⟩
    exact ⟨⟨hx, by omega, by omega, hm⟩, he⟩
  · rintro ⟨⟨hx, h0, hle, hm⟩, he⟩
    exact ⟨hx, by omega, hm, he⟩

theorem Growth.meet?_eq (targets : List Cell) {p : Cell} (hp : p.x < 8 ∧ p.y < 16) :
    w.meet? f targets p = some (w.meet f targets p) := by
  have hread : f.read? p = some (f.colorAt p) := if_pos hp
  have hadmits := w.admits_iff_inside f p
  unfold meet? meet
  by_cases hout : ¬ (1 ≤ p.x ∧ p.x ≤ 6) ∨ p.y = 0 ∨ p.y > w.ceiling ∨
      w.prohibited.contains p.x = true
  · rw [if_pos hout, if_neg fun h => (hadmits.mp h.2).1 hout]
    rfl
  · rw [if_neg hout, hread]
    show (if f.colorAt p ≠ .empty ∨ p ∈ targets then _ else _) = _
    by_cases hnew : f.colorAt p = .empty ∧ p ∉ targets
    · rw [if_neg (by tauto), if_pos ⟨hnew.2, hadmits.mpr ⟨hout, hnew.1⟩⟩]
      rfl
    · rw [if_pos (by tauto), if_neg fun h => hnew ⟨(hadmits.mp h.2).2, h.1⟩]
      rfl

theorem Growth.foldl_meet (targets ps : List Cell) :
    ps.foldl (w.meet f) targets = targets ++ fresh targets (ps.filter (w.admits f)) := by
  induction ps generalizing targets with
  | nil => exact (List.append_nil targets).symm
  | cons p ps ih =>
    rw [List.foldl_cons, ih]
    unfold meet
    by_cases hadm : w.admits f p = true
    · rw [List.filter_cons_of_pos hadm, fresh_cons]
      by_cases hmem : p ∈ targets
      · rw [if_neg (fun h => h.1 hmem), if_pos hmem]
      · have hsame : ∀ q, q ∈ targets ++ [p] ↔ q ∈ p :: targets := by
          intro q
          rw [List.mem_append, List.mem_singleton, List.mem_cons, or_comm]
        rw [if_pos ⟨hmem, hadm⟩, if_neg hmem, fresh_congr hsame, List.append_assoc,
          List.singleton_append]
    · rw [List.filter_cons_of_neg hadm, if_neg (fun h => hadm h.2)]

theorem foldlM_eq_some {α β : Type} {step? : β → α → Option β} {step : β → α → β} {as : List α}
    (h : ∀ a ∈ as, ∀ b, step? b a = some (step b a)) (b : β) :
    as.foldlM step? b = some (as.foldl step b) := by
  induction as generalizing b with
  | nil => rfl
  | cons a as ih =>
    obtain ⟨ha, has⟩ := List.forall_mem_cons.mp h
    rw [List.foldlM_cons, ha b]
    exact ih has _

theorem Growth.targets?_eq {group : List Cell} (hg : ∀ q ∈ group, q.isVisible = true) :
    w.targets? f group = some (growthCells w f group) := by
  have hstep : ∀ q ∈ group, ∀ targets, (do (← cellsAround? q).foldlM (w.meet? f) targets) =
      some ((cellsAround q).foldl (w.meet f) targets) := by
    intro q hq targets
    rw [cellsAround?_eq (hg q hq)]
    refine foldlM_eq_some (fun p hp targets => w.meet?_eq f targets ?_) targets
    exact Cell.lt_of_mem_neighbors (hg q hq) ((mem_cellsAround_iff q p).mp hp)
  rw [targets?, foldlM_eq_some hstep, ← List.foldl_flatMap, w.foldl_meet]
  rfl

end

/-! ## one call -/

/-- a call makes another one for a target: its column is filled up to it, at most for the puyos that
are left, and its group is too small to vanish -/
inductive Growth.Calls (w : Growth) (a : Color) (c : GrowCall) : GrowCall → Prop where
  | mk {p : Cell} (hp : p ∈ growthCells w c.field c.group) (habove : c.field.height p.x < p.y)
      (hcost : p.y - c.field.height p.x ≤ c.budget)
      (hsmall : (c.field.fillUpTo a p).groupSize p < 4) :
      Calls w a c ⟨c.field.fillUpTo a p, (c.field.fillUpTo a p).group p,
        c.budget - (p.y - c.field.height p.x)⟩

/-- the cells of a call are a group of the color, too small to vanish -/
structure GrowCall.Sound (a : Color) (c : GrowCall) : Prop where
  covered : c.field.Covered
  group : ∃ p, c.field.canJoin p = true ∧ c.field.colorAt p = a ∧ c.group = c.field.group p
  small : c.group.length < 4

section
variable {σ : Type} {w : Growth} {a : Color} {c d : GrowCall}

theorem GrowCall.Sound.isVisible (hc : c.Sound a) : ∀ q ∈ c.group, q.isVisible = true := by
  obtain ⟨p, _, _, hgroup⟩ := hc.group
  intro q hq
  rw [hgroup] at hq
  exact (Field.visible_and_color_of_mem hq).1

theorem GrowCall.Sound.length_pos (hc : c.Sound a) : 0 < c.group.length := by
  obtain ⟨p, hj, _, hgroup⟩ := hc.group
  rw [hgroup]
  exact List.length_pos_of_mem (Field.mem_group_self hj)

section
variable (hw : w.ceiling ≤ 12) (hc : c.Sound a) (h : w.Calls a c d)
include hw hc h

/-- the cells of a new call contain those of the old one and the target -/
theorem Growth.Calls.length_lt : c.group.length < d.group.length := by
  obtain ⟨p, hj, hcolor, hgroup⟩ := hc.group
  cases h with
  | @mk q hq habove _ _ =>
    obtain ⟨⟨r, hr, hqr⟩, hfill⟩ := (mem_growthCells_iff w c.field c.group q).mp hq
    rw [hgroup] at hr ⊢
    exact hc.covered.groupSize_lt_fillUpTo hr hqr (hfill.isVisible hw) habove hcolor

theorem Growth.Calls.sound : d.Sound a := by
  obtain ⟨p, hj, hcolor, _⟩ := hc.group
  obtain ⟨_, he, hwall⟩ := (c.field.canJoin_iff p).mp hj
  rw [hcolor] at he hwall
  cases h with
  | @mk q hq habove _ hsmall =>
    obtain ⟨_, hfill⟩ := (mem_growthCells_iff w c.field c.group q).mp hq
    have hrow := hfill.row
    have hqcolor := Field.colorAt_fillUpTo_self hfill.column (by omega) habove a
    have hjq : (c.field.fillUpTo a q).canJoin q = true := by
      rw [Field.canJoin_iff, hqcolor]
      exact ⟨hfill.isVisible hw, he, hwall⟩
    exact ⟨hc.covered.placeAll (Field.fits_run hfill.column a (by omega)), ⟨q, hjq, hqcolor, rfl⟩,
      hsmall⟩

end

/-- no call is made from a chain of calls that is as long as a group can grow -/
theorem length_of_isChain_calls (hw : w.ceiling ≤ 12) {cs : List GrowCall} (hc : c.Sound a)
    (h : List.IsChain (w.Calls a) (c :: cs)) : cs.length + c.group.length < 4 := by
  induction cs generalizing c with
  | nil =>
    rw [List.length_nil, Nat.zero_add]
    exact hc.small
  | cons d cs ih =>
    obtain ⟨hcd, hcs⟩ := List.isChain_cons_cons.mp h
    have hlen := ih (hcd.sound hw hc) hcs
    have hlt := hcd.length_lt hw hc
    rw [List.length_cons]
    omega

/-! ## what a call does -/

section
variable {visit : Visitor σ Candidate} {call : Callee σ}

theorem growOn?_of_large {budget cost : Nat} {grown : Field} {members : List Cell} {t : Shared σ}
    (h : 4 ≤ members.length) : growOn? w visit call budget cost grown members t =
      some ((visit t.1 ⟨grown, t.2⟩).map fun s => (s, t.2)) := if_pos h

/-- the subtraction does not fail for a cost within the budget -/
theorem growOn?_of_small {budget cost : Nat} {grown : Field} {members : List Cell} {t : Shared σ}
    (h : members.length < 4) (hcost : cost ≤ budget) :
    growOn? w visit call budget cost grown members t =
      (each visit (Candidate.shown w.purpose ⟨grown, t.2⟩) t.1).andThen? fun s =>
        call ⟨grown, members, budget - cost⟩ (s, t.2) := by
  unfold growOn?
  rw [if_neg (Nat.not_le.mpr h), Nat.psub_eq_sub hcost]
  rfl

/-- at a target the flood does not fail -/
theorem growAt?_eq (hw : w.ceiling ≤ 12) {p : Cell} (hp : p ∈ growthCells w c.field c.group)
    (t : Shared σ) :
    growAt? w a visit call c t p =
      if c.field.height p.x < p.y ∧ p.y - c.field.height p.x ≤ c.budget then
        match t.2.addCopies p.x a (p.y - c.field.height p.x) with
        | none => some (.proceed t)
        | some m =>
          (growOn? w visit call c.budget (p.y - c.field.height p.x) (c.field.fillUpTo a p)
            ((c.field.fillUpTo a p).group p) (t.1, m)).map fun ended =>
              ended.map fun t' => (t'.1, t'.2.truncate t.2.size)
      else some (.proceed t) := by
  unfold growAt?
  dsimp only
  by_cases hcost : p.y - c.field.height p.x = 0 ∨ c.budget < p.y - c.field.height p.x
  · rw [if_pos hcost, if_neg (by omega)]
  · rw [if_neg hcost, if_pos (by omega), stackCopies_eq_fillUpTo hw hp (by omega),
      Field.fill?_eq_group]
    rfl

/-- a step asks for nothing but the calls that a call makes -/
theorem growAt?_congr (hw : w.ceiling ≤ 12) {call' : Callee σ}
    (hcall : ∀ d, w.Calls a c d → call d = call' d) {p : Cell}
    (hp : p ∈ growthCells w c.field c.group) (t : Shared σ) :
    growAt? w a visit call c t p = growAt? w a visit call' c t p := by
  rw [growAt?_eq hw hp, growAt?_eq hw hp]
  split
  · rename_i hpay
    cases t.2.addCopies p.x a (p.y - c.field.height p.x) with
    | none => rfl
    | some m =>
      dsimp only
      by_cases h4 : 4 ≤ (c.field.fillUpTo a p).groupSize p
      · rw [growOn?_of_large h4, growOn?_of_large h4]
      · have hsmall := Nat.lt_of_not_le h4
        have hmade := hcall _ (.mk hp hpay.1 hpay.2 hsmall)
        rw [growOn?_of_small hsmall hpay.2, growOn?_of_small hsmall hpay.2, hmade]
  · rfl

theorem growBody?_congr (hw : w.ceiling ≤ 12) (hc : c.Sound a) {call' : Callee σ}
    (hcall : ∀ d, w.Calls a c d → call d = call' d) :
    growBody? w a visit call c = growBody? w a visit call' c := by
  funext t
  unfold growBody?
  rw [w.targets?_eq c.field hc.isVisible]
  exact each?_congr (fun p hp t => growAt?_congr hw hcall hp t) t

/-- after a search that has left a list as it was, the list is cut back -/
theorem map_cut {l m : Additions} (h : m.truncate l.size = l) (w : Flow σ σ) :
    (w.map fun s => (s, m)).map (fun t : Shared σ => (t.1, t.2.truncate l.size)) =
      w.map fun s => (s, l) := by
  rw [Flow.map_map]
  simp only [h]

/-- the search shows candidates to the visitor and leaves the shared list as it is -/
def Restores (visit : Visitor σ Candidate) (items : List Candidate) (l : Additions)
    (search : Shared σ → Option (Flow σ (Shared σ))) : Prop :=
  Realizes (fun s => (s, l)) (each visit items) search

theorem restores_growAt? (hw : w.ceiling ≤ 12) {fuel : Nat} {l : Additions}
    (hcall : ∀ d m, w.Calls a c d →
      Restores visit (grow w a fuel d.field d.group d.budget m) m (call d)) {p : Cell}
    (hp : p ∈ growthCells w c.field c.group) :
    Restores visit (grownAt w a fuel c.field c.budget l p) l fun t =>
      growAt? w a visit call c t p := by
  intro s
  show growAt? w a visit call c (s, l) p = _
  rw [growAt?_eq hw hp]
  unfold grownAt
  by_cases hpay : c.field.height p.x < p.y ∧ p.y - c.field.height p.x ≤ c.budget
  · rw [if_pos hpay, if_pos hpay]
    cases hm : l.addCopies p.x a (p.y - c.field.height p.x) with
    | none => rfl
    | some m =>
      have hcut := Additions.truncate_addCopies hm
      dsimp only
      by_cases h4 : 4 ≤ (c.field.fillUpTo a p).groupSize p
      · rw [growOn?_of_large h4, if_pos h4, each_singleton]
        exact congrArg some (map_cut hcut _)
      · have hsmall := Nat.lt_of_not_le h4
        have hmade := hcall _ m (.mk hp hpay.1 hpay.2 hsmall)
        rw [growOn?_of_small hsmall hpay.2, if_neg h4, each_append]
        cases each visit (Candidate.shown w.purpose ⟨c.field.fillUpTo a p, m⟩) s with
        | stop s => rfl
        | proceed s =>
          show Option.map _ (call _ (s, m)) = _
          rw [hmade s]
          exact congrArg some (map_cut hcut _)
  · rw [if_neg hpay, if_neg hpay]
    rfl

/-- with as many levels as a group can grow, no step fails -/
theorem restores_grow? (hw : w.ceiling ≤ 12) {depth : Nat} (hc : c.Sound a)
    (hdepth : 4 ≤ depth + c.group.length) (l : Additions) :
    Restores visit (grow w a depth c.field c.group c.budget l) l (grow? w a visit depth c) := by
  induction depth generalizing c l with
  | zero =>
    have := hc.small
    omega
  | succ depth ih =>
    intro s
    rw [grow_succ hw]
    show ((w.targets? c.field c.group).bind fun ps =>
      each? (growAt? w a visit (grow? w a visit depth) c) ps (s, l)) = _
    rw [w.targets?_eq c.field hc.isVisible]
    refine realizes_each?_flatMap (fun p hp => restores_growAt? hw (fun d m hd => ?_) hp) s
    have hlt := hd.length_lt hw hc
    exact ih (hd.sound hw hc) (by omega) m

end

/-! ## from the groups of a field -/

/-- the cells of a call are, each once, those that are linked to one of them, of the color -/
def GrowCall.IsGroup (a : Color) (c : GrowCall) : Prop :=
  c.group.Nodup ∧ ∃ p ∈ c.group, c.field.colorAt p = a ∧ c.group.toFinset = c.field.component p

theorem GrowCall.Sound.isGroup (hc : c.Sound a) : c.IsGroup a := by
  obtain ⟨p, hj, hcolor, hgroup⟩ := hc.group
  unfold IsGroup
  rw [hgroup]
  exact ⟨Field.nodup_group _ p, p, Field.mem_group_self hj, hcolor, Field.toFinset_group hj⟩

theorem GrowCall.Sound.of_calls (hw : w.ceiling ≤ 12) (hc : c.Sound a)
    (h : Relation.ReflTransGen (w.Calls a) c d) : d.Sound a := by
  induction h with
  | refl => exact hc
  | tail _ hcall ih => exact hcall.sound hw ih

/-- the limits that a strategy sets to growing -/
def Strategy.growth (s : Strategy) (prohibited : ColumnMask) (purpose : Purpose) : Growth :=
  ⟨s.ceiling, prohibited, purpose⟩

/-- the call for a group of a field -/
def seedCall (f : Field) (s : Strategy) (g : Group) : GrowCall := ⟨f, g.cells, s.maxPuyos⟩

theorem sound_seedCall {f : Field} (hf : f.Covered) {g : Group} (hg : g ∈ extendSeeds f)
    (s : Strategy) : (seedCall f s g).Sound g.color := by
  obtain ⟨hmem, hsmall⟩ := List.mem_filter.mp hg
  obtain ⟨p, hp, hn, rfl⟩ := Field.mem_groupsFrom hmem
  obtain ⟨hx, h1, _, h12⟩ := (Field.mem_scannedCells_iff f p).mp hp
  have hj : f.canJoin p = true := (f.canJoin_iff p).mpr ⟨(Cell.isVisible_iff p).mpr ⟨hx, h1, h12⟩,
    Color.ne_of_isNormal hn rfl, Color.ne_of_isNormal hn rfl⟩
  rw [Bool.not_eq_true', Bool.eq_false_iff, ne_eq, Field.vanishes_iff] at hsmall
  exact ⟨hf, ⟨p, hj, rfl, rfl⟩, Nat.lt_of_not_le hsmall⟩

/-- a call for each group that is too small to vanish, with one list for all of them; fails if more
than three calls are made one in the other -/
def extend? (f : Field) (s : Strategy) (prohibited : ColumnMask) (purpose : Purpose)
    (visit : Visitor σ Candidate) (st : σ) : Option (Flow σ (Shared σ)) :=
  each? (fun t g => grow? (s.growth prohibited purpose) g.color visit growthLevels
    (seedCall f s g) t) (extendSeeds f) (st, .empty)

theorem extend?_eq {f : Field} (hf : f.Covered) (s : Strategy) (prohibited : ColumnMask)
    (purpose : Purpose) (visit : Visitor σ Candidate) (st : σ) :
    extend? f s prohibited purpose visit st =
      some ((each visit ((extendSeeds f).flatMap (extendCandidates f s prohibited purpose)) st).map
        fun st => (st, .empty)) := by
  unfold extend?
  refine realizes_each?_flatMap (g := fun st => (st, Additions.empty)) (fun g hg => ?_) st
  have hc := sound_seedCall hf hg s
  have hpos := hc.length_pos
  exact restores_grow? s.ceiling_le hc (by unfold growthLevels; omega) .empty

end

/-- **Growing ends by itself, and leaves the shared list as it found it.**  On every field that
operations build, and for any number of puyos, no step of the search fails: at most three calls are
made one in the other, no cost is above the puyos that are left, and no cell is read beside the map.
Each call that another call makes is for a whole group of the color, larger than that of the other
call and of fewer than four cells; nothing else is asked of the calls.  If the visitor does not stop
the search, every call ends with the list that it began with. -/
theorem growing_ends {f : Field} (hf : f.Built) (s : Strategy) (prohibited : ColumnMask)
    (purpose : Purpose) :
    (∀ (σ : Type) (visit : Visitor σ Candidate) (st : σ),
      extend? f s prohibited purpose visit st =
        some ((each visit ((extendSeeds f).flatMap (extendCandidates f s prohibited purpose))
          st).map fun st => (st, .empty))) ∧
    ∀ g ∈ extendSeeds f,
      (∀ cs, List.IsChain ((s.growth prohibited purpose).Calls g.color) (seedCall f s g :: cs) →
        cs.length < 3) ∧
      ∀ c, Relation.ReflTransGen ((s.growth prohibited purpose).Calls g.color) (seedCall f s g) c →
        (∀ d, (s.growth prohibited purpose).Calls g.color c d →
          d.IsGroup g.color ∧ c.group.length < d.group.length ∧ d.group.length < 4 ∧
            d.budget < c.budget) ∧
        (∀ (σ : Type) (visit : Visitor σ Candidate) (depth : Nat), 4 ≤ depth + c.group.length →
          ∀ st l, grow? (s.growth prohibited purpose) g.color visit depth c (st, l) =
            some ((each visit (grow (s.growth prohibited purpose) g.color depth c.field c.group
              c.budget l) st).map fun st => (st, l))) ∧
        ∀ (σ : Type) (visit : Visitor σ Candidate) (call call' : Callee σ),
          (∀ d, (s.growth prohibited purpose).Calls g.color c d → call d = call' d) →
            growBody? (s.growth prohibited purpose) g.color visit call c =
              growBody? (s.growth prohibited purpose) g.color visit call' c := by
  refine ⟨fun σ visit st => extend?_eq hf.covered s prohibited purpose visit st, fun g hg => ?_⟩
  have hstart := sound_seedCall hf.covered hg s
  have hceiling : (s.growth prohibited purpose).ceiling ≤ 12 := s.ceiling_le
  refine ⟨fun cs hcs => ?_, fun c hc => ?_⟩
  · have hlen := length_of_isChain_calls hceiling hstart hcs
    have hpos := hstart.length_pos
    omega
  · have hsound := hstart.of_calls hceiling hc
    refine ⟨fun d hd => ?_, fun σ visit depth hdepth st l => ?_, fun σ visit call call' h => ?_⟩
    · have hd' := hd.sound hceiling hsound
      refine ⟨hd'.isGroup, hd.length_lt hceiling hsound, hd'.small, ?_⟩
      cases hd with
      | mk _ habove hcost _ =>
        show c.budget - _ < c.budget
        omega
    · exact restores_grow? hceiling hsound hdepth l st
    · exact growBody?_congr hceiling hsound h

/-- two red puyos side by side -/
def twoReds : Field := Field.empty.run [.stack 1 .red, .stack 2 .red]

/-- extending without a limit that could bind -/
def boundless : Strategy := ⟨.extend, 18446744073709551615, 12, false⟩

/-- over the first of the two puyos a call is made for three, and no further one from it -/
theorem growing_ends_twoReds :
    twoReds.Built ∧ ⟨.red, [⟨1, 1⟩, ⟨2, 1⟩]⟩ ∈ extendSeeds twoReds ∧
      ∃ d, (boundless.growth .empty .key).Calls .red
          (seedCall twoReds boundless ⟨.red, [⟨1, 1⟩, ⟨2, 1⟩]⟩) d ∧
        d.IsGroup .red ∧ 2 < d.group.length ∧ d.group.length < 4 ∧
        (extend? twoReds boundless .empty .key keep []).isSome = true ∧
        ∃ items, grow? (boundless.growth .empty .key) .red keep 1 d ([], .empty) =
          some (.proceed (items, .empty)) := by
  have hf : twoReds.Built := ⟨Field.empty, Or.inl rfl, _, rfl⟩
  have hg : ⟨.red, [⟨1, 1⟩, ⟨2, 1⟩]⟩ ∈ extendSeeds twoReds := by decide +kernel
  obtain ⟨hrun, hgroups⟩ := growing_ends hf boundless .empty .key
  obtain ⟨_, hcalls⟩ := hgroups _ hg
  have hd : (boundless.growth .empty .key).Calls .red
      (seedCall twoReds boundless ⟨.red, [⟨1, 1⟩, ⟨2, 1⟩]⟩) _ :=
    .mk (p := ⟨1, 2⟩) (by decide +kernel) (by decide +kernel) (by decide +kernel)
      (by decide +kernel)
  obtain ⟨hgroup, hlt, h4, _⟩ := (hcalls _ .refl).1 _ hd
  have hlt2 : 2 < List.length _ := hlt
  have hshown := (hcalls _ (.single hd)).2.1 (List Candidate) keep 1 (by omega) [] .empty
  rw [each_keep] at hshown
  exact ⟨hf, hg, _, hd, hgroup, hlt2, h4, by rw [hrun]; rfl, _, hshown⟩

end PuyoChain
