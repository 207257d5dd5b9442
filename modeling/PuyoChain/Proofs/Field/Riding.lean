import PuyoChain.Proofs.Field.Falling
import PuyoChain.Proofs.Field.Landing
import PuyoChain.Proofs.Field.Operations
import PuyoChain.Proofs.Field.Steps

/-!
# Additions that ride on a chain

* `Field.TakesLow`          additions that fit a field and come to rest in row 13 or below;
* `drop_clear_placeAll`     additions that a step does not erase come down with their columns;
* `mem_doomed_placeAll_iff` a step that erases none of them erases what it erases without them;
* `start_mem_landings`      the additions are tracked by the rows in which they came to rest first;
* `ChainsTo.ride`           so a chain that erases no addition runs as without them, and goes on from
                            its end with the additions on top (`simulate_stackAll?_of_spared`).
-/

namespace PuyoChain

namespace Column

/-- gravity reads the colors of a column, not its height -/
theorem drop_congr {c d : Column} (h : ∀ y, 1 ≤ y → y ≤ 14 → c.color y = d.color y) :
    c.drop.1 = d.drop.1 := by
  have e : c.recount = d.recount := (exact_recount c).ext (exact_recount d) h
  show c.recount.drop.1 = d.recount.drop.1
  rw [e]

theorem color_withHeight (c : Column) (h y : Nat) : ({ c with height := h } : Column).color y =
    c.color y := rfl

/-- a puyo on top that stays comes down with its column -/
theorem drop_clear_stack {c : Column} (hc : c.Covered) (h : c.height < 13) {a : Color}
    (ha : a ≠ .empty) {doomed : Nat → Bool} (hd : doomed (c.height + 1) = false) :
    ((c.stack a).clear doomed).drop.1 = (c.clear doomed).drop.1.stack a := by
  -- the cleared column with its old height, on which the puyo finds the place that it has
  obtain ⟨d, hcolor, hheight⟩ : ∃ d : Column,
      (∀ y, 1 ≤ y → y ≤ 14 → d.color y = if doomed y then .empty else c.color y) ∧
        d.height = c.height := by
    refine ⟨{ c.clear doomed with height := c.height }, fun y hy hy' => ?_, rfl⟩
    rw [color_withHeight, color_clear c doomed y ⟨hy, hy'⟩]
  have hcov : d.Covered := by
    rw [Covered, hheight]
    refine ⟨hc.1, fun y hy hy' => ?_⟩
    have hempty := hc.2 y hy hy'
    rw [hcolor y (by omega) hy', hempty, ite_self]
  have hdrop : d.drop.1 = (c.clear doomed).drop.1 := by
    refine drop_congr fun y hy hy' => ?_
    rw [hcolor y hy hy', color_clear c doomed y ⟨hy, hy'⟩]
  have hstack : ((c.stack a).clear doomed).drop.1 = (d.stack a).drop.1 := by
    refine drop_congr fun y hy hy' => ?_
    rw [color_clear _ _ _ ⟨hy, hy'⟩, color_stack (by omega), color_stack (by omega), hheight,
      hcolor y hy hy']
    by_cases e : y = c.height + 1
    · rw [if_pos e, if_pos e, e, hd, if_neg Bool.false_ne_true]
    · rw [if_neg e, if_neg e]
  rw [hstack, drop_stack hcov (by omega) ha, hdrop]

end Column

namespace Field

variable {f g : Field} {as : List Addition} {ps : List Cell}

/-! ## additions below row 14 -/

/-- the additions fit, none of them is an empty cell, and none comes to rest above row 13 -/
structure TakesLow (f : Field) (as : List Addition) : Prop where
  fits : f.Fits as
  solid : ∀ a ∈ as, a.color ≠ .empty
  low : ∀ q ∈ f.landings as, q.y ≤ 13

theorem TakesLow.of_height_le (h : f.TakesLow as) (hle : ∀ x, g.height x ≤ f.height x) :
    g.TakesLow as where
  fits := h.fits.of_height_le fun a _ => hle a.x
  solid := h.solid
  low q hq := by
    have hlow := h.low (raise f g q)
    rw [landings_eq_map_raise h.fits.column hle] at hlow
    have hmem := hlow (List.mem_map_of_mem hq)
    have hqy : q.y ≤ (raise f g q).y := Nat.le_add_right ..
    omega

theorem TakesLow.tail {a : Addition} (h : f.TakesLow (a :: as)) :
    f.height a.x < 13 ∧ (f.place a.x a.color).TakesLow as := by
  have hfirst := h.low _ List.mem_cons_self
  exact ⟨hfirst, h.fits.2.2, fun b hb => h.solid b (List.mem_cons_of_mem a hb),
    fun q hq => h.low q (List.mem_cons_of_mem _ hq)⟩

/-! ## a step under the additions -/

theorem drop_clear_place (hf : f.Covered) {x : Nat} (h : f.height x < 13) {a : Color}
    (ha : a ≠ .empty) (hp : (⟨x, f.height x + 1⟩ : Cell) ∉ ps) :
    ((f.place x a).clear ps).drop.1 = (f.clear ps).drop.1.place x a := by
  refine ext_column? fun z => ?_
  rw [column?_drop, column?_clear, column?_place, column?_place, column?_drop, column?_clear]
  by_cases e : z = x
  · rw [if_pos e, if_pos e]
    cases hc : f.column? z with
    | none => rfl
    | some c =>
      have hh := height_of_column? hc
      rw [← e, hh] at h hp
      exact congrArg some (Column.drop_clear_stack (hf z c hc) h ha (decide_eq_false hp))
  · rw [if_neg e, if_neg e]

/-- additions that a step does not erase come down with their columns -/
theorem drop_clear_placeAll (hf : f.Covered) (h : f.TakesLow as) (hp : ∀ q ∈ f.landings as, q ∉ ps) :
    ((f.placeAll as).clear ps).drop.1 = (f.clear ps).drop.1.placeAll as := by
  induction as generalizing f with
  | nil => rfl
  | cons a as ih =>
    obtain ⟨h13, htail⟩ := h.tail
    have ha := h.solid a List.mem_cons_self
    have hfirst := hp _ List.mem_cons_self
    show (((f.place a.x a.color).placeAll as).clear ps).drop.1 =
      ((f.clear ps).drop.1.place a.x a.color).placeAll as
    rw [ih (hf.place (by omega) a.color) htail fun q hq => hp q (List.mem_cons_of_mem _ hq),
      drop_clear_place hf h13 ha hfirst]

section
variable {chain chain' : Nat} {v w : Vanish} (hf : f.Covered) (h : f.Fits as)
  (hw : (f.placeAll as).vanish? chain' = some w) (hp : ∀ q ∈ f.landings as, q ∉ w.doomed)
include h hp

theorem colorAt_of_mem_doomed {p : Cell} (hmem : p ∈ w.doomed) :
    f.colorAt p = (f.placeAll as).colorAt p :=
  (colorAt_placeAll_of_not_mem h fun hq => hp p hq hmem).symm

include hf hw

theorem ripe_placeAll_iff (p : Cell) : (f.placeAll as).Ripe p ↔ f.Ripe p := by
  have hkept := hf.keptIn_placeAll h
  constructor
  · intro hr
    -- the whole group vanishes, so it holds no addition
    have hsame : ∀ q ∈ (f.placeAll as).group p, f.colorAt q = (f.placeAll as).colorAt q := by
      intro q hq
      refine colorAt_of_mem_doomed h hp ?_
      exact (mem_doomed_iff (hf.placeAll h) hw q).mpr (Or.inl (hr.of_mem_group hq))
    have hself := hsame p (mem_group_self hr.canJoin)
    have hsize := groupSize_le_of_subset (group_subset_group hsame)
    exact ⟨by rw [hself]; exact hr.1, Nat.le_trans hr.2 hsize⟩
  · intro hr
    obtain ⟨hv, hne, _⟩ := (f.canJoin_iff p).mp hr.canJoin
    exact ⟨by rw [hkept p hv hne]; exact hr.1, Nat.le_trans hr.2 (hkept.groupSize_le p)⟩

/-- a step that erases no addition erases what it erases without them -/
theorem mem_doomed_placeAll_iff (hv : f.vanish? chain = some v) (p : Cell) :
    p ∈ w.doomed ↔ p ∈ v.doomed := by
  have hripe := ripe_placeAll_iff hf h hw hp
  rw [mem_doomed_iff hf hv]
  constructor
  · intro hmem
    have hcolor := colorAt_of_mem_doomed h hp hmem
    rcases (mem_doomed_iff (hf.placeAll h) hw p).mp hmem with hr | ⟨q, hr, hq⟩
    · exact Or.inl ((hripe p).mp hr)
    · rw [mem_joined_iff, ← hcolor, ← mem_joined_iff] at hq
      exact Or.inr ⟨q, (hripe q).mp hr, hq⟩
  · intro hmem
    rw [mem_doomed_iff (hf.placeAll h) hw]
    rcases hmem with hr | ⟨q, hr, hq⟩
    · exact Or.inl ((hripe p).mpr hr)
    · obtain ⟨hn, hvis, hc⟩ := (mem_joined_iff f _ q p).mp hq
      have hkept := hf.keptIn_placeAll h p hvis (by rw [hc]; decide)
      exact Or.inr ⟨q, (hripe q).mpr hr, (mem_joined_iff _ _ q p).mpr ⟨hn, hvis, hkept.trans hc⟩⟩

end

/-- a step that erases no addition leaves what it leaves without them, with the additions on top -/
theorem step_placeAll {chain chain' : Nat} {v w : Vanish} (hf : f.Covered) (h : f.TakesLow as)
    (hv : f.vanish? chain = some v) (hw : (f.placeAll as).vanish? chain' = some w)
    (hp : ∀ q ∈ f.landings as, q ∉ w.doomed) :
    w.field.drop.1 = v.field.drop.1.placeAll as := by
  rw [field_of_vanish? hw, field_of_vanish? hv, drop_clear_placeAll hf h hp,
    clear_congr (mem_doomed_placeAll_iff hf h.fits hw hp hv)]

/-! ## where the additions start -/

/-- the rows in which additions come to rest on column `x`, from the floor -/
def landingRows (f : Field) (as : List Addition) (x : Nat) : List Nat :=
  ((f.landings as).filter fun q => q.x == x).map Cell.y

theorem mem_landingRows_iff (f : Field) (as : List Addition) (x y : Nat) :
    y ∈ f.landingRows as x ↔ (⟨x, y⟩ : Cell) ∈ f.landings as := by
  simp only [landingRows, List.mem_map, List.mem_filter, beq_iff_eq]
  constructor
  · rintro ⟨q, ⟨hq, rfl⟩, rfl⟩
    exact hq
  · intro hq
    exact ⟨_, ⟨hq, rfl⟩, rfl⟩

theorem landingRows_cons (f : Field) (a : Addition) (as : List Addition) (x : Nat) :
    f.landingRows (a :: as) x =
      (if x = a.x then [f.height a.x + 1] else []) ++ (f.place a.x a.color).landingRows as x := by
  show ((⟨a.x, f.height a.x + 1⟩ :: (f.place a.x a.color).landings as).filter _).map Cell.y = _
  by_cases e : x = a.x
  · rw [List.filter_cons_of_pos (by simp [e]), if_pos e]
    rfl
  · rw [List.filter_cons_of_neg (by simp [Ne.symm e]), if_neg e]
    rfl

theorem length_landingRows (f : Field) (as : List Addition) (x : Nat) :
    (f.landingRows as x).length = as.countP fun a => a.x == x := by
  induction as generalizing f with
  | nil => rfl
  | cons a as ih =>
    rw [landingRows_cons, List.length_append, ih, List.countP_cons]
    by_cases e : x = a.x
    · simp [e, Nat.add_comm]
    · simp [e, Ne.symm e]

/-- a row above all that pass the one test, which passes the other that agrees below, comes last -/
theorem filter_rowsUpTo_of_top {p q : Nat → Bool} {h n : Nat} (hn : h < n)
    (same : ∀ y, 1 ≤ y → y ≤ h → q y = p y) (top : q (h + 1) = true)
    (hp : ∀ y, h < y → y ≤ n → p y = false) (hq : ∀ y, h + 1 < y → y ≤ n → q y = false) :
    (rowsUpTo n).filter q = (rowsUpTo n).filter p ++ [h + 1] := by
  induction hn with
  | refl =>
    have hbelow : (rowsUpTo h).filter q = (rowsUpTo h).filter p := by
      refine List.filter_congr fun y hy => ?_
      have hrow := (mem_rowsUpTo_iff h y).mp hy
      exact same y hrow.1 hrow.2
    have hfree := hp (h + 1) (Nat.lt_succ_self h) (Nat.le_refl _)
    rw [rowsUpTo_succ, List.filter_append, List.filter_append, hbelow]
    simp [top, hfree]
  | @step n hn ih =>
    have hpn := hp (n + 1) (Nat.lt_succ_of_lt hn) (Nat.le_refl _)
    have hqn := hq (n + 1) (Nat.succ_lt_succ hn) (Nat.le_refl _)
    rw [rowsUpTo_succ, List.filter_append, List.filter_append,
      ih (fun y h1 h2 => hp y h1 (Nat.le_succ_of_le h2)) fun y h1 h2 => hq y h1 (Nat.le_succ_of_le h2)]
    simp [hpn, hqn]

theorem filledRows_place (hf : f.Covered) {x : Nat} (hx : 1 ≤ x ∧ x ≤ 6) (h : f.height x < 13)
    {a : Color} (ha : a ≠ .empty) (z : Nat) : (f.place x a).filledRows z =
      f.filledRows z ++ if z = x then [f.height x + 1] else [] := by
  have hcolor := color_place f hx (by omega : f.height x < 14) a
  unfold filledRows
  by_cases e : z = x
  · subst e
    rw [if_pos rfl]
    refine filter_rowsUpTo_of_top h (fun y _ hy => ?_) ?_ (fun y hy hy' => ?_) fun y hy hy' => ?_
    · rw [hcolor, if_neg (by omega)]
    · rw [hcolor, if_pos ⟨rfl, rfl⟩]
      exact bne_iff_ne.mpr ha
    · rw [hf.color_eq_empty hx hy (by omega)]
      rfl
    · rw [hcolor, if_neg (by omega), hf.color_eq_empty hx (by omega) (by omega)]
      rfl
  · rw [if_neg e, List.append_nil]
    refine List.filter_congr fun y _ => ?_
    rw [hcolor, if_neg fun h' => e h'.1]

theorem filledRows_placeAll (hf : f.Covered) (h : f.TakesLow as) (x : Nat) :
    (f.placeAll as).filledRows x = f.filledRows x ++ f.landingRows as x := by
  induction as generalizing f with
  | nil => exact (List.append_nil _).symm
  | cons a as ih =>
    obtain ⟨h13, htail⟩ := h.tail
    have ha := h.solid a List.mem_cons_self
    show ((f.place a.x a.color).placeAll as).filledRows x = _
    rw [ih (hf.place (by omega) a.color) htail, filledRows_place hf h.fits.1 h13 ha,
      landingRows_cons, List.append_assoc]

section
variable {o : StartRows} {t : EraseTrack} {n : Nat} (hf : f.Covered) (hg : g.Covered)
  (hfl : f.TakesLow as) (hgl : g.TakesLow as) (h : Tracked (f.placeAll as) n (g.placeAll as) o t)
  (hfresh : ∀ q ∈ f.landings as, t.erasedAt q.x q.y = 0)
include hf hg hfl hgl h hfresh

/-- as long as none is erased, the additions on a column are those that started on it -/
theorem map_get_landingRows {x : Nat} (hx : 1 ≤ x ∧ x ≤ 6) :
    ((g.landingRows as x).map fun y => o.get ⟨x, y⟩) = f.landingRows as x := by
  have hget := h.map_get hx
  have hkeep : (f.landingRows as x).filter (fun r => t.erasedAt x r == 0) = f.landingRows as x := by
    refine List.filter_eq_self.mpr fun r hr => beq_iff_eq.mpr ?_
    exact hfresh ⟨x, r⟩ ((mem_landingRows_iff f as x r).mp hr)
  rw [remaining, filledRows_placeAll hf hfl, filledRows_placeAll hg hgl, List.map_append,
    List.filter_append, hkeep] at hget
  refine (List.append_inj' hget ?_).2
  rw [List.length_map, length_landingRows, length_landingRows]

theorem start_mem_landings {q : Cell} (hq : q ∈ g.landings as) :
    ⟨q.x, o.get q⟩ ∈ f.landings as := by
  have hget := map_get_landingRows hf hg hfl hgl h hfresh
    (column_of_mem_landings hgl.fits.column hq)
  rw [← mem_landingRows_iff, ← hget]
  exact List.mem_map_of_mem ((mem_landingRows_iff g as q.x q.y).mpr hq)

/-- a step that notes none of the additions erases none -/
theorem not_mem_doomed_of_fresh {chain : Nat} {w : Vanish} (hc : chain % 256 ≠ 0)
    (hw : (g.placeAll as).vanish? chain = some w)
    (hfresh' : ∀ q ∈ f.landings as, (o.mark chain w.doomed t).erasedAt q.x q.y = 0) :
    ∀ q ∈ g.landings as, q ∉ w.doomed := by
  intro q hq hmem
  have hstart := start_mem_landings hf hg hfl hgl h hfresh hq
  have hlow := (mem_landings_iff hfl.fits.column _).mp hstart
  have hnoted := hfresh' _ hstart
  dsimp only at hlow hnoted
  rw [h.erasedAt_mark (filledRows_of_mem_doomed hw), if_pos ⟨by omega, q, hmem, rfl, rfl⟩] at hnoted
  exact hc hnoted

end

/-! ## the whole chain -/

/-- what is erased stays erased in the same step -/
theorem Tracked.erasedAt_cascade {o : StartRows} {t : EraseTrack} {fuel : Nat} {r : ChainResult}
    (h : Tracked f r.chains g o t) (hn : r.chains + fuel < 256) {x y : Nat}
    (he : t.erasedAt x y ≠ 0) :
    (cascadeTracked fuel g o r t).2.2.erasedAt x y = t.erasedAt x y := by
  induction fuel generalizing g o r t with
  | zero => rfl
  | succ fuel ih =>
    unfold cascadeTracked
    cases hv : g.vanish? (r.chains + 1) with
    | none => rfl
    | some v =>
      have hd := filledRows_of_mem_doomed hv
      have hstep := h.step hd (by omega) (exists_group_subset_doomed hv)
      rw [← field_of_vanish? hv] at hstep
      have hmark : (o.mark (r.chains + 1) v.doomed t).erasedAt x y = t.erasedAt x y := by
        rw [h.erasedAt_mark hd, if_neg]
        rintro ⟨_, hm⟩
        exact he ((mem_remaining_iff f t x y).mp (h.remaining_of_marked hd hm).2).2
      have hlater := ih (r := r.afterStep v.score v.field.drop.2) hstep
        (by rw [ChainResult.chains_afterStep]; omega) (by rw [hmark]; exact he)
      exact hlater.trans hmark

section
variable {t T : EraseTrack} {o : StartRows} {fuel : Nat} {r : ChainResult}

/-- what the step erases that comes next, the final track notes for it -/
theorem Tracked.fresh_mark (h : Tracked f r.chains g o t) (hn : r.chains + fuel + 1 < 256)
    {w : Vanish} (hw : g.vanish? (r.chains + 1) = some w)
    (hT : (cascadeTracked (fuel + 1) g o r t).2.2 = T) {q : Cell}
    (hfresh : t.erasedAt q.x q.y = 0) (hq : T.erasedAt q.x q.y ≠ r.chains + 1) :
    (o.mark (r.chains + 1) w.doomed t).erasedAt q.x q.y = 0 := by
  have hd := filledRows_of_mem_doomed hw
  have hstep := h.step hd (by omega) (exists_group_subset_doomed hw)
  rw [← field_of_vanish? hw] at hstep
  have hsteps : (r.afterStep w.score w.field.drop.2).chains + fuel < 256 := by
    rw [ChainResult.chains_afterStep]
    omega
  by_contra hne
  have hlast := hstep.erasedAt_cascade (r := r.afterStep w.score w.field.drop.2) hsteps hne
  rw [cascadeTracked, hw] at hT
  rw [hT] at hlast
  rw [h.erasedAt_mark hd] at hlast hne
  split at hne
  · rename_i hm
    rw [if_pos hm, Nat.mod_eq_of_lt (by omega)] at hlast
    exact hq hlast
  · exact hne hfresh

/-- a chain that erases no addition runs as without them, and goes on from its end with them -/
theorem ChainsTo.ride {a b : Field} {m k : Nat} (hm : g.ChainsTo m a) (hf : f.Covered)
    (hfl : f.TakesLow as) (hg : g.Covered) (hle : ∀ x, g.height x ≤ f.height x)
    (h : Tracked (f.placeAll as) r.chains (g.placeAll as) o t) (hfuel : m ≤ fuel)
    (hn : r.chains + fuel < 256) (hT : (cascadeTracked fuel (g.placeAll as) o r t).2.2 = T)
    (hfresh : ∀ q ∈ f.landings as, t.erasedAt q.x q.y = 0)
    (hride : ∀ q ∈ f.landings as,
      ¬ (r.chains < T.erasedAt q.x q.y ∧ T.erasedAt q.x q.y ≤ r.chains + m))
    (hk : (a.placeAll as).ChainsTo k b) : (g.placeAll as).ChainsTo (m + k) b := by
  induction hm generalizing o t fuel r with
  | rest _ =>
    rw [Nat.zero_add]
    exact hk
  | @step g a chain m v hv _ ih =>
    obtain ⟨fuel, rfl⟩ : ∃ l, fuel = l + 1 := ⟨fuel - 1, by omega⟩
    have hgl := hfl.of_height_le hle
    have hfires := (hg.keptIn_placeAll hgl.fits).fires (hg.placeAll hgl.fits) (fires_of_vanish? hv)
    obtain ⟨w, hw⟩ := exists_vanish? hfires (r.chains + 1)
    have hstep := h.step (filledRows_of_mem_doomed hw) (by omega) (exists_group_subset_doomed hw)
    have hfresh' : ∀ q ∈ f.landings as, (o.mark (r.chains + 1) w.doomed t).erasedAt q.x q.y = 0 :=
      fun q hq => h.fresh_mark (by omega) hw hT (hfresh q hq) fun e => hride q hq (by omega)
    have hp := not_mem_doomed_of_fresh hf hg hfl hgl h hfresh
      (by rw [Nat.mod_eq_of_lt (by omega)]; omega) hw hfresh'
    have hnext := step_placeAll hg hgl hv hw hp
    rw [cascadeTracked, hw] at hT
    dsimp only at hT
    rw [← field_of_vanish? hw, hnext] at hstep
    rw [hnext] at hT
    have hchains : (r.afterStep w.score w.field.drop.2).chains = r.chains + 1 := rfl
    have hle' : ∀ x, v.field.drop.1.height x ≤ f.height x := by
      intro x
      rw [field_of_vanish? hv]
      exact Nat.le_trans (height_drop_clear_le hg v.doomed x) (hle x)
    have hrest := ih (r := r.afterStep w.score w.field.drop.2) v.field.exact_drop.covered hle'
      hstep (by omega) (by omega) hT hfresh' (fun q hq => by rw [hchains]; have := hride q hq; omega) hk
    rw [Nat.add_right_comm]
    refine ChainsTo.step hw ?_
    rw [hnext]
    exact hrest

end

/-- **Additions commute with a chain that spares them.**  On a field with exact heights and no gap,
let additions that are not empty stack in row 13 or below.  If the chain of the field with the
additions erases none of them in as many steps as the field alone has, then they stack on what the
chain of the field alone leaves, the two chains one after the other have as many steps as the one
chain, and both ways leave the same field. -/
theorem simulate_stackAll?_of_spared {f e : Field} {l : Additions} (hf : f.Exact) (hs : f.Settled)
    (hl : ∀ a ∈ l.entries, (1 ≤ a.x ∧ a.x ≤ 6) ∧ a.color ≠ .empty) (he : f.stackAll? l = some e)
    (hlow : ∀ q ∈ f.landings l.entries, q.y ≤ 13)
    (hspared : ∀ q ∈ f.landings l.entries,
      ¬ (1 ≤ (e.simulateTracked .empty).2.2.erasedAt q.x q.y ∧
        (e.simulateTracked .empty).2.2.erasedAt q.x q.y ≤ f.simulate.2.chains)) :
    ∃ g, f.simulate.1.stackAll? l = some g ∧
      e.simulate.2.chains = f.simulate.2.chains + g.simulate.2.chains ∧
      e.simulate.1 = g.simulate.1 := by
  obtain ⟨hfits, rfl⟩ := stackAll?_eq_some (fun a ha => (hl a ha).1) he
  have hsolid : ∀ a ∈ l.entries, a.color ≠ .empty := fun a ha => (hl a ha).2
  have hfl : f.TakesLow l.entries := ⟨hfits, hsolid, hlow⟩
  have hal := hfl.of_height_le (height_simulate_le hf.covered)
  refine ⟨_, stackAll?_of_fits f.exact_simulate.covered hal.fits, ?_⟩
  -- none of the three fields falls before its chain
  have hfdrop := hf.drop_of_settled hs
  have hedrop := (hf.placeAll hfits hsolid).drop_of_settled (hf.settled_placeAll hs hfits hsolid)
  have hgdrop := (f.exact_simulate.placeAll hal.fits hsolid).drop_of_settled
    (f.exact_simulate.settled_placeAll f.settled_simulate hal.fits hsolid)
  have hm := f.chainsTo_simulate
  rw [hfdrop] at hm
  have hk := (f.simulate.1.placeAll l.entries).chainsTo_simulate
  rw [hgdrop] at hk
  have htracked := (f.placeAll l.entries).tracked_drop
  rw [hedrop] at htracked
  have hbound : f.simulate.2.chains ≤ stepBound := by
    have hle := Nat.le_trans hm.length_le f.length_filledCells_le
    unfold stepBound
    omega
  have hT : (cascadeTracked stepBound (f.placeAll l.entries)
      ((StartRows.ofField (f.placeAll l.entries)).drop (f.placeAll l.entries)) .zero .empty).2.2 =
      ((f.placeAll l.entries).simulateTracked .empty).2.2 := by
    rw [simulateTracked, hedrop]
  have hchain := hm.ride hf.covered hfl hf.covered (fun _ => Nat.le_refl _) (r := .zero) htracked
    hbound (by decide) hT (fun q _ => EraseTrack.erasedAt_empty q.x q.y)
    (fun q hq h => hspared q hq ⟨h.1, by rw [← Nat.zero_add f.simulate.2.chains]; exact h.2⟩) hk
  rw [← hedrop] at hchain
  obtain ⟨hfield, hchains⟩ := hchain.simulate
  exact ⟨hchains, hfield⟩

/-- four red puyos in a square -/
def redSquare : Field :=
  empty.run [.stack 1 .red, .stack 1 .red, .stack 2 .red, .stack 2 .red]

/-- a yellow puyo on each of columns 1 to 4 -/
def yellowRow : Additions :=
  ⟨[⟨1, .yellow⟩, ⟨2, .yellow⟩, ⟨3, .yellow⟩, ⟨4, .yellow⟩]⟩

/-- the square vanishes, which brings the yellow puyos into one row -/
theorem simulate_stackAll?_of_spared_redSquare :
    redSquare.Exact ∧ redSquare.Settled ∧ (∃ e, redSquare.stackAll? yellowRow = some e ∧
      e.simulate.2.chains = 2) ∧ redSquare.simulate.2.chains = 1 ∧
    ∃ g, redSquare.simulate.1.stackAll? yellowRow = some g ∧ g.simulate.2.chains = 1 := by
  have hf : redSquare.Exact := by decide +kernel
  have hs : redSquare.Settled := by decide +kernel
  have hl : ∀ a ∈ yellowRow.entries, (1 ≤ a.x ∧ a.x ≤ 6) ∧ a.color ≠ .empty := by decide
  have he : redSquare.stackAll? yellowRow = some (redSquare.placeAll yellowRow.entries) := by
    decide +kernel
  have hn : redSquare.simulate.2.chains = 1 := by decide +kernel
  have hne : (redSquare.placeAll yellowRow.entries).simulate.2.chains = 2 := by decide +kernel
  obtain ⟨g, hg, hchains, _⟩ := simulate_stackAll?_of_spared hf hs hl he (by decide +kernel)
    (by decide +kernel)
  exact ⟨hf, hs, ⟨_, he, hne⟩, hn, g, hg, by omega⟩

end Field

end PuyoChain
