import Mathlib.Algebra.Order.BigOperators.Group.List
import Mathlib.Algebra.Order.Ring.Nat
import Mathlib.Data.List.Sort
import PuyoChain.Candidate.Key
import PuyoChain.Proofs.Candidate.Sound
import PuyoChain.Proofs.Search.Visiting

/-!
# Key additions, each once

Key additions are runs of one color on different columns, from the left.

* `KeyRun`, `keyAdditions`   a run, and the list of additions that several runs are;
* `KeyLimits.Allows`, `KeyLimits.AllowsAll`   a run, and several runs, within limits;
* `keyRunsFrom`       all runs within limits on the columns of a list (`mem_keyRunsFrom_iff`), each
                      once (`nodup_keyRunsFrom`);
* `visitKeysFrom_eq`  the search shows just these;
* `visitKeysUpTo_eq_visitKeys`   a limit on all puyos together matters only below the number of
                      visible cells;
* `firesOnTop_iff`    the look at the top of each column misses no vanishing group of an added puyo,
                      for the puyos of a run all belong to one group (`mem_group_above`).
-/

namespace PuyoChain

/-- a number of puyos of one color on top of a column -/
structure KeyRun where
  x : Nat
  color : Color
  count : Nat
  deriving DecidableEq

def KeyRun.entries (r : KeyRun) : List Addition := List.replicate r.count ⟨r.x, r.color⟩

/-- the additions of several runs, one run after the other -/
def keyAdditions (runs : List KeyRun) : Additions := ⟨runs.flatMap KeyRun.entries⟩

/-- the run goes on an allowed column, with at least one puyo and no more than the limits admit -/
structure KeyLimits.Allows (w : KeyLimits) (f : Field) (r : KeyRun) : Prop where
  column : 1 ≤ r.x ∧ r.x ≤ 6
  allowed : w.prohibited.contains r.x = false
  color : r.color.isNormal = true
  count : 1 ≤ r.count ∧ r.count ≤ w.perColumn
  low : f.height r.x + r.count ≤ w.ceiling

/-- the runs, from the left, are allowed and go on no more than `maxColumns` columns -/
structure KeyLimits.AllowsAll (w : KeyLimits) (f : Field) (maxColumns : Nat)
    (runs : List KeyRun) : Prop where
  ascending : runs.Pairwise fun r r' => r.x < r'.x
  columns : runs.length ≤ maxColumns
  runs : ∀ r ∈ runs, w.Allows f r

/-- all runs on at most `columns` of the columns of a list, with at most `puyos` puyos -/
def keyRunsFrom (f : Field) (w : KeyLimits) :
    List Nat → (columns : Nat) → (puyos : Nat) → List (List KeyRun)
  | [], _, _ => [[]]
  | x :: xs, columns, puyos =>
    keyRunsFrom f w xs columns puyos ++
      if columns = 0 || w.prohibited.contains x then []
      else (keyStacks f w puyos x).flatMap fun (a, n) =>
        (keyRunsFrom f w xs (columns - 1) (puyos - n)).map fun runs => ⟨x, a, n⟩ :: runs

variable {f : Field} {w : KeyLimits} {xs : List Nat} {columns puyos : Nat} {runs : List KeyRun}
  {r : KeyRun} {x : Nat}

theorem column_of_mem_fieldColumns : ∀ x ∈ fieldColumns, 1 ≤ x ∧ x ≤ 6 := fun x hx =>
  (mem_fieldColumns_iff x).mp hx

/-! ## the runs within limits -/

theorem mem_keyStacks_iff (f : Field) (w : KeyLimits) (puyos x : Nat) (a : Color) (n : Nat) :
    (a, n) ∈ keyStacks f w puyos x ↔ a.isNormal = true ∧ (1 ≤ n ∧ n ≤ w.perColumn) ∧
      n ≤ puyos ∧ f.height x + n ≤ w.ceiling := by
  simp only [keyStacks, List.mem_flatMap, List.mem_map, mem_rowsUpTo_iff, Prod.mk.injEq,
    Color.mem_normals_iff]
  constructor
  · intro ⟨b, hb, m, hm, eb, em⟩
    subst eb em
    exact ⟨hb, by omega⟩
  · intro ⟨ha, h⟩
    exact ⟨a, ha, n, by omega, rfl, rfl⟩

theorem nodup_keyStacks (f : Field) (w : KeyLimits) (puyos x : Nat) :
    (keyStacks f w puyos x).Nodup := by
  have hrows : ∀ n, (rowsUpTo n).Nodup := fun n =>
    List.nodup_range.map fun _ _ h => Nat.succ_injective h
  refine List.nodup_flatMap.mpr ⟨fun a _ => (hrows _).map fun _ _ h => (Prod.mk.inj h).2, ?_⟩
  refine (show Color.normals.Nodup by decide).imp fun {a b} hne c hc hc' => hne ?_
  obtain ⟨n, _, e⟩ := List.mem_map.mp hc
  obtain ⟨m, _, e'⟩ := List.mem_map.mp hc'
  exact (Prod.mk.inj (e.trans e'.symm)).1

theorem mem_keyRunsFrom_iff (hxs : ∀ x ∈ xs, 1 ≤ x ∧ x ≤ 6) :
    runs ∈ keyRunsFrom f w xs columns puyos ↔ (runs.map KeyRun.x).Sublist xs ∧
      runs.length ≤ columns ∧ (runs.map KeyRun.count).sum ≤ puyos ∧ ∀ r ∈ runs, w.Allows f r := by
  induction xs generalizing columns puyos runs with
  | nil =>
    rw [keyRunsFrom, List.mem_singleton, List.sublist_nil, List.map_eq_nil_iff]
    refine ⟨fun e => ?_, fun h => h.1⟩
    subst e
    exact ⟨rfl, Nat.zero_le _, Nat.zero_le _, nofun⟩
  | cons x xs ih =>
    obtain ⟨hx, htail⟩ := List.forall_mem_cons.mp hxs
    rw [keyRunsFrom, List.mem_append, ih htail, List.sublist_cons_iff]
    constructor
    · intro h
      rcases h with ⟨hsub, h⟩ | h
      · exact ⟨Or.inl hsub, h⟩
      · split at h
        · cases h
        · rename_i hc
          simp only [Bool.or_eq_true, decide_eq_true_eq, not_or, Bool.not_eq_true] at hc
          obtain ⟨⟨a, n⟩, hn, h⟩ := List.mem_flatMap.mp h
          obtain ⟨rest, hrest, e⟩ := List.mem_map.mp h
          obtain ⟨ha, hcount, hle, hlow⟩ := (mem_keyStacks_iff ..).mp hn
          obtain ⟨hsub, hlen, hsum, hall⟩ := (ih htail).mp hrest
          subst e
          refine ⟨Or.inr ⟨_, rfl, hsub⟩, ?_, ?_, List.forall_mem_cons.mpr ⟨?_, hall⟩⟩
          · rw [List.length_cons]
            omega
          · rw [List.map_cons, List.sum_cons]
            dsimp only
            omega
          · exact ⟨hx, hc.2, ha, hcount, hlow⟩
    · intro ⟨hsub, hlen, hsum, hall⟩
      rcases hsub with hsub | ⟨ys, e, hsub⟩
      · exact Or.inl ⟨hsub, hlen, hsum, hall⟩
      · obtain ⟨r, rest, e', er, erest⟩ := List.map_eq_cons_iff.mp e
        subst e' er erest
        obtain ⟨hr, hall⟩ := List.forall_mem_cons.mp hall
        rw [List.length_cons] at hlen
        rw [List.map_cons, List.sum_cons] at hsum
        refine Or.inr ?_
        rw [if_neg (by simp [hr.allowed]; omega)]
        refine List.mem_flatMap.mpr ⟨(r.color, r.count), ?_, List.mem_map.mpr ⟨rest, ?_, rfl⟩⟩
        · exact (mem_keyStacks_iff ..).mpr ⟨hr.color, hr.count, by omega, hr.low⟩
        · exact (ih htail).mpr ⟨hsub, by omega, by omega, hall⟩

theorem nodup_keyRunsFrom (hxs : ∀ x ∈ xs, 1 ≤ x ∧ x ≤ 6) (hnodup : xs.Nodup) :
    (keyRunsFrom f w xs columns puyos).Nodup := by
  induction xs generalizing columns puyos with
  | nil => exact List.nodup_singleton []
  | cons x xs ih =>
    obtain ⟨_, htail⟩ := List.forall_mem_cons.mp hxs
    obtain ⟨hnew, hnodup⟩ := List.nodup_cons.mp hnodup
    rw [keyRunsFrom]
    refine List.nodup_append'.mpr ⟨ih htail hnodup, ?_, ?_⟩
    · split
      · exact List.nodup_nil
      · refine List.nodup_flatMap.mpr ⟨fun (a, n) _ => (ih htail hnodup).map ?_, ?_⟩
        · intro _ _ h
          exact (List.cons.inj h).2
        · refine (nodup_keyStacks f w puyos x).imp fun {c d} hne runs hc hd => hne ?_
          obtain ⟨_, _, e⟩ := List.mem_map.mp hc
          obtain ⟨_, _, e'⟩ := List.mem_map.mp hd
          have h := KeyRun.mk.inj (List.cons.inj (e.trans e'.symm)).1
          exact Prod.ext h.2.1 h.2.2
    · -- the runs of the second part begin on column `x`, which the first part leaves out
      intro runs hfirst hsecond
      split at hsecond
      · cases hsecond
      · obtain ⟨⟨a, n⟩, _, h⟩ := List.mem_flatMap.mp hsecond
        obtain ⟨rest, _, e⟩ := List.mem_map.mp h
        subst e
        obtain ⟨hsub, _⟩ := (mem_keyRunsFrom_iff htail).mp hfirst
        exact hnew (hsub.subset List.mem_cons_self)

theorem exists_keyRunsFrom_eq_nil_cons (f : Field) (w : KeyLimits) (xs : List Nat)
    (columns puyos : Nat) : ∃ rest, keyRunsFrom f w xs columns puyos = [] :: rest := by
  induction xs generalizing columns puyos with
  | nil => exact ⟨[], rfl⟩
  | cons x xs ih =>
    obtain ⟨rest, e⟩ := ih columns puyos
    rw [keyRunsFrom, e]
    exact ⟨_, rfl⟩

/-- with a puyo for every visible cell, no runs within the limits are left out for their number -/
theorem mem_keyRunsFrom_visibleCount_iff (hw : w.ceiling ≤ 12) :
    runs ∈ keyRunsFrom f w fieldColumns columns Field.visibleCount ↔
      w.AllowsAll f columns runs := by
  rw [mem_keyRunsFrom_iff column_of_mem_fieldColumns]
  constructor
  · intro ⟨hsub, hlen, _, hall⟩
    have hlt : (runs.map KeyRun.x).Pairwise (· < ·) :=
      (show fieldColumns.Pairwise (· < ·) by decide).sublist hsub
    exact ⟨List.pairwise_map.mp hlt, hlen, hall⟩
  · intro ⟨hasc, hlen, hall⟩
    have hlt : (runs.map KeyRun.x).Pairwise (· < ·) := List.pairwise_map.mpr hasc
    have hsub : (runs.map KeyRun.x).Sublist fieldColumns := by
      refine List.sublist_of_subperm_of_pairwise ?_ hlt (by decide)
      refine List.subperm_of_subset (hlt.imp Nat.ne_of_lt) fun x hx => ?_
      obtain ⟨r, hr, e⟩ := List.mem_map.mp hx
      rw [← e, mem_fieldColumns_iff]
      exact (hall r hr).column
    refine ⟨hsub, hlen, ?_, hall⟩
    have hsix := hsub.length_le
    rw [List.length_map] at hsix
    have hcount : ∀ n ∈ runs.map KeyRun.count, n ≤ w.ceiling := by
      intro n hn
      obtain ⟨r, hr, e⟩ := List.mem_map.mp hn
      have hlow := (hall r hr).low
      omega
    have hsum := List.sum_le_card_nsmul _ _ hcount
    rw [List.length_map] at hsum
    exact hsum.trans (Nat.mul_le_mul hsix hw)

/-! ## the search shows them -/

/-- the candidate of additions that stack and do not fire -/
def keyCandidate? (f : Field) (l : Additions) : Option Candidate :=
  (f.stackAll? l).bind fun g => if firesOnTop g l then none else some ⟨g, l⟩

theorem showKeys_eq {σ : Type} (f : Field) (visit : Visitor σ Candidate) (l : Additions) (s : σ) :
    showKeys f visit l s = (keyCandidate? f l).elim (.proceed s) (visit s) := by
  unfold showKeys keyCandidate?
  cases f.stackAll? l with
  | none => rfl
  | some g =>
    show (if firesOnTop g l then _ else _) = Option.elim (if firesOnTop g l then _ else _) _ _
    split <;> rfl

/-- the runs of the rest of the columns, on top of the additions made so far -/
theorem visitKeysFrom_eq {σ : Type} (hw : w.ceiling ≤ 12) (visit : Visitor σ Candidate)
    (hxs : ∀ x ∈ xs, 1 ≤ x ∧ x ≤ 6) {l : Additions} (hl : l.size + 12 * xs.length ≤ 84) (s : σ) :
    visitKeysFrom f w visit xs columns puyos l s =
      each (fun s runs => showKeys f visit ⟨l.entries ++ runs.flatMap KeyRun.entries⟩ s)
        (keyRunsFrom f w xs columns puyos) s := by
  induction xs generalizing columns puyos l s with
  | nil =>
    show showKeys f visit l s = each _ [[]] s
    rw [each_singleton, List.flatMap_nil, List.append_nil]
  | cons x xs ih =>
    obtain ⟨hx, hxs⟩ := List.forall_mem_cons.mp hxs
    rw [List.length_cons] at hl
    rw [visitKeysFrom, keyRunsFrom, each_append, ih hxs (by omega)]
    apply Flow.andThen_congr
    intro s
    split
    · rfl
    · rw [each_flatMap]
      refine each_congr (fun (a, n) hn s => ?_) s
      obtain ⟨_, _, _, hlow⟩ := (mem_keyStacks_iff ..).mp hn
      have hm : l.addCopies x a n = some ⟨l.entries ++ List.replicate n ⟨x, a⟩⟩ :=
        if_pos ⟨hx, show l.size + n ≤ 84 by omega⟩
      have hsize := Additions.size_addCopies hm
      dsimp only
      rw [hm, each_map]
      dsimp only
      rw [ih hxs (by omega)]
      refine each_congr (fun runs _ s => ?_) s
      rw [List.flatMap_cons, List.append_assoc]
      rfl

/-- no column has room for more puyos than it has visible cells -/
theorem keyStacks_congr (hw : w.ceiling ≤ 12) {puyos' : Nat} (h : 12 ≤ puyos) (h' : 12 ≤ puyos')
    (x : Nat) : keyStacks f w puyos x = keyStacks f w puyos' x := by
  have hmost : min w.perColumn (min puyos (w.ceiling - f.height x)) =
      min w.perColumn (min puyos' (w.ceiling - f.height x)) := by omega
  unfold keyStacks
  rw [hmost]

/-- with a puyo for every visible cell of the columns, their number limits nothing -/
theorem visitKeysFrom_congr {σ : Type} (hw : w.ceiling ≤ 12) (visit : Visitor σ Candidate)
    {puyos' : Nat} (h : 12 * xs.length ≤ puyos) (h' : 12 * xs.length ≤ puyos') (l : Additions)
    (s : σ) :
    visitKeysFrom f w visit xs columns puyos l s =
      visitKeysFrom f w visit xs columns puyos' l s := by
  induction xs generalizing columns puyos puyos' l s with
  | nil => rfl
  | cons x xs ih =>
    rw [List.length_cons] at h h'
    have hstacks : keyStacks f w puyos x = keyStacks f w puyos' x :=
      keyStacks_congr hw (by omega) (by omega) x
    have hskip : visitKeysFrom f w visit xs columns puyos l s =
      visitKeysFrom f w visit xs columns puyos' l s := ih (by omega) (by omega) l s
    rw [visitKeysFrom, visitKeysFrom, hskip, hstacks]
    apply Flow.andThen_congr
    intro s
    split
    · rfl
    · refine each_congr (fun (a, n) hn s => ?_) s
      obtain ⟨_, _, _, hlow⟩ := (mem_keyStacks_iff ..).mp hn
      dsimp only
      cases l.addCopies x a n with
      | none => rfl
      | some m => exact ih (by omega) (by omega) m s

/-- a limit on all puyos together that is no less than the number of visible cells is none -/
theorem visitKeysUpTo_eq_visitKeys {σ : Type} {maxPuyos : Nat} (h : Field.visibleCount ≤ maxPuyos)
    (f : Field) (s : Strategy) (prohibited : ColumnMask) (maxColumns perColumn : Nat)
    (visit : Visitor σ Candidate) (state : σ) :
    visitKeysUpTo f s prohibited maxColumns perColumn maxPuyos visit state =
      visitKeys f s prohibited maxColumns perColumn visit state :=
  visitKeysFrom_congr s.ceiling_le visit h (by decide) .empty state

/-- the key additions to at most `maxColumns` columns, with at most `perColumn` puyos on each and at
most `maxPuyos` in all -/
def keysUpTo (f : Field) (s : Strategy) (prohibited : ColumnMask)
    (maxColumns perColumn maxPuyos : Nat) : List Candidate :=
  (keyRunsFrom f ⟨s.ceiling, prohibited, perColumn⟩ fieldColumns maxColumns maxPuyos).filterMap
    fun runs => keyCandidate? f (keyAdditions runs)

theorem visitKeysUpTo_eq_each {σ : Type} (f : Field) (s : Strategy) (prohibited : ColumnMask)
    (maxColumns perColumn maxPuyos : Nat) (visit : Visitor σ Candidate) (state : σ) :
    visitKeysUpTo f s prohibited maxColumns perColumn maxPuyos visit state =
      each visit (keysUpTo f s prohibited maxColumns perColumn maxPuyos) state := by
  unfold visitKeysUpTo keysUpTo
  rw [visitKeysFrom_eq s.ceiling_le visit column_of_mem_fieldColumns (by decide), ← each_filterMap]
  exact each_congr (fun runs _ state => showKeys_eq f visit _ state) state

theorem of_mem_keysUpTo {s : Strategy} {prohibited : ColumnMask}
    {maxColumns perColumn maxPuyos : Nat} {c : Candidate}
    (h : c ∈ keysUpTo f s prohibited maxColumns perColumn maxPuyos) :
    f.stackAll? c.additions = some c.field ∧ ∀ e ∈ c.additions.entries, 1 ≤ e.x ∧ e.x ≤ 6 := by
  obtain ⟨runs, hruns, hc⟩ := List.mem_filterMap.mp h
  obtain ⟨g, hg, hc⟩ := Option.bind_eq_some_iff.mp hc
  obtain ⟨_, hc⟩ := Option.ite_none_left_eq_some.mp hc
  obtain rfl := Option.some.inj hc
  refine ⟨hg, fun e he => ?_⟩
  obtain ⟨r, hr, he⟩ := List.mem_flatMap.mp he
  rw [List.eq_of_mem_replicate he]
  obtain ⟨_, _, _, hall⟩ := (mem_keyRunsFrom_iff column_of_mem_fieldColumns).mp hruns
  exact (hall r hr).column

/-! ## the additions of runs -/

section
variable {runs' : List KeyRun} {r' : KeyRun}

theorem entries_inj (hr : 1 ≤ r.count) (h : r.entries = r'.entries) : r = r' := by
  obtain ⟨x, a, n⟩ := r
  obtain ⟨x', a', n'⟩ := r'
  obtain ⟨e, h0 | e'⟩ := List.replicate_inj.mp h
  · dsimp only at hr h0
    omega
  · obtain ⟨ex, ea⟩ := Addition.mk.inj e'
    dsimp only at e ex ea
    rw [e, ex, ea]

theorem filter_keyAdditions_of_forall_ne (h : ∀ r ∈ runs, r.x ≠ x) :
    ((keyAdditions runs).entries.filter fun e => e.x == x) = [] := by
  rw [List.filter_eq_nil_iff]
  intro e he
  obtain ⟨r, hr, he⟩ := List.mem_flatMap.mp he
  rw [List.eq_of_mem_replicate he]
  simp [h r hr]

/-- of ascending runs only one is on the column of each -/
theorem filter_keyAdditions (h : runs.Pairwise fun r r' => r.x < r'.x) (hr : r ∈ runs) :
    ((keyAdditions runs).entries.filter fun e => e.x == r.x) = r.entries := by
  induction runs with
  | nil => cases hr
  | cons r' rest ih =>
    obtain ⟨hlt, hrest⟩ := List.pairwise_cons.mp h
    show ((r'.entries ++ (keyAdditions rest).entries).filter fun e => e.x == r.x) = r.entries
    rw [List.filter_append, KeyRun.entries, List.filter_replicate]
    rcases List.mem_cons.mp hr with e | hr
    · rw [e, if_pos (by simp), filter_keyAdditions_of_forall_ne fun r hr => Nat.ne_of_gt (hlt r hr),
        List.append_nil]
      rfl
    · have hne := Nat.ne_of_lt (hlt r hr)
      rw [if_neg (by simp [hne]), ih hrest hr]
      rfl

theorem mem_of_keyAdditions_eq (hpos : ∀ r ∈ runs, 1 ≤ r.count)
    (h : runs.Pairwise fun r r' => r.x < r'.x) (h' : runs'.Pairwise fun r r' => r.x < r'.x)
    (e : keyAdditions runs = keyAdditions runs') (hr : r ∈ runs) : r ∈ runs' := by
  have hrun := filter_keyAdditions h hr
  rw [e] at hrun
  by_cases hx : ∃ r' ∈ runs', r'.x = r.x
  · obtain ⟨r', hr', ex⟩ := hx
    rw [← ex, filter_keyAdditions h' hr'] at hrun
    rw [entries_inj (hpos r hr) hrun.symm]
    exact hr'
  · rw [filter_keyAdditions_of_forall_ne fun r' hr' ex => hx ⟨r', hr', ex⟩] at hrun
    have hcount := hpos r hr
    have hzero : r.count = 0 := (List.replicate_eq_nil_iff _).mp hrun.symm
    omega

/-- different runs make different lists of additions -/
theorem keyAdditions_inj (h : w.AllowsAll f columns runs) (h' : w.AllowsAll f columns runs')
    (e : keyAdditions runs = keyAdditions runs') : runs = runs' := by
  have hirrefl : Std.Irrefl fun r r' : KeyRun => r.x < r'.x := ⟨fun r => Nat.lt_irrefl r.x⟩
  have hasymm : Std.Antisymm fun r r' : KeyRun => r.x < r'.x :=
    ⟨fun _ _ hlt hgt => absurd hgt (Nat.lt_asymm hlt)⟩
  refine h.ascending.eq_of_mem_iff h'.ascending fun r => ⟨fun hr => ?_, fun hr => ?_⟩
  · exact mem_of_keyAdditions_eq (fun r hr => (h.runs r hr).count.1) h.ascending h'.ascending e hr
  · exact mem_of_keyAdditions_eq (fun r hr => (h'.runs r hr).count.1) h'.ascending h.ascending
      e.symm hr

end

theorem mem_keyAdditions {e : Addition} (he : e ∈ (keyAdditions runs).entries) :
    ∃ r ∈ runs, e = ⟨r.x, r.color⟩ := by
  obtain ⟨r, hr, he⟩ := List.mem_flatMap.mp he
  exact ⟨r, hr, List.eq_of_mem_replicate he⟩

theorem exists_run_of_sizeOn_pos (h : 0 < (keyAdditions runs).sizeOn x) : ∃ r ∈ runs, r.x = x := by
  obtain ⟨e, he, hx⟩ := List.countP_pos_iff.mp h
  obtain ⟨r, hr, eq⟩ := mem_keyAdditions he
  rw [eq] at hx
  exact ⟨r, hr, beq_iff_eq.mp hx⟩

namespace KeyLimits.AllowsAll

variable (h : w.AllowsAll f columns runs)
include h

theorem column : ∀ e ∈ (keyAdditions runs).entries, 1 ≤ e.x ∧ e.x ≤ 6 := by
  intro e he
  obtain ⟨r, hr, eq⟩ := mem_keyAdditions he
  rw [eq]
  exact (h.runs r hr).column

theorem normal : ∀ e ∈ (keyAdditions runs).entries, e.color.isNormal = true := by
  intro e he
  obtain ⟨r, hr, eq⟩ := mem_keyAdditions he
  rw [eq]
  exact (h.runs r hr).color

theorem sizeOn (hr : r ∈ runs) : (keyAdditions runs).sizeOn r.x = r.count := by
  rw [Additions.sizeOn, List.countP_eq_length_filter, filter_keyAdditions h.ascending hr]
  exact List.length_replicate

theorem fits (hf : f.Covered) (hw : w.ceiling ≤ 12) : f.Fits (keyAdditions runs).entries := by
  refine Field.fits_of_room h.column fun x _ => ?_
  show f.height x + (keyAdditions runs).sizeOn x ≤ 14
  rcases Nat.eq_zero_or_pos ((keyAdditions runs).sizeOn x) with h0 | hpos
  · rw [h0]
    exact hf.height_le x
  · obtain ⟨r, hr, e⟩ := exists_run_of_sizeOn_pos hpos
    have hlow := (h.runs r hr).low
    rw [← h.sizeOn hr, e] at hlow
    exact Nat.le_trans hlow (by omega)

/-- additions come to rest in the cells of the runs -/
theorem exists_run_of_mem_landings {q : Cell} (hq : q ∈ f.landings (keyAdditions runs).entries) :
    ∃ r ∈ runs, r.x = q.x ∧ f.height r.x < q.y ∧ q.y ≤ f.height r.x + r.count := by
  obtain ⟨hlt, hle⟩ := (Field.mem_landings_iff h.column q).mp hq
  have hle : q.y ≤ f.height q.x + (keyAdditions runs).sizeOn q.x := hle
  have hpos : 0 < (keyAdditions runs).sizeOn q.x := by omega
  obtain ⟨r, hr, e⟩ := exists_run_of_sizeOn_pos hpos
  rw [← e] at hlt hle
  rw [h.sizeOn hr] at hle
  exact ⟨r, hr, e, hlt, hle⟩

theorem color_placeAll (hr : r ∈ runs) (hw : w.ceiling ≤ 12) {y : Nat} (hlt : f.height r.x < y)
    (hle : y ≤ f.height r.x + r.count) :
    (f.placeAll (keyAdditions runs).entries).color r.x y = r.color := by
  have hrun := h.runs r hr
  have hlow := hrun.low
  have hcol := Field.column?_placeAll_filter f (keyAdditions runs).entries r.x
  rw [filter_keyAdditions h.ascending hr] at hcol
  rw [Field.color_congr_column? hcol, KeyRun.entries,
    Field.color_run hrun.column r.color (by omega), if_pos ⟨rfl, hlt, hle⟩]

/-- the puyo on top of each column tells whether an added puyo is in a vanishing group -/
theorem firesOnTop_iff (hw : w.ceiling ≤ 12) :
    firesOnTop (f.placeAll (keyAdditions runs).entries) (keyAdditions runs) = true ↔
      ∃ q ∈ f.landings (keyAdditions runs).entries,
        4 ≤ (f.placeAll (keyAdditions runs).entries).groupSize q := by
  have hheight := Field.height_placeAll (f := f) h.column
  simp only [firesOnTop, List.any_eq_true, Bool.and_eq_true, decide_eq_true_eq,
    Field.inVanishing_iff]
  constructor
  · intro ⟨x, _, hpos, h4⟩
    refine ⟨_, (Field.mem_landings_iff h.column _).mpr ?_, h4⟩
    unfold Additions.sizeOn at hpos
    dsimp only
    rw [hheight]
    omega
  · intro ⟨q, hq, h4⟩
    obtain ⟨r, hr, e, hlt, hle⟩ := h.exists_run_of_mem_landings hq
    have hrun := h.runs r hr
    have hcount := hrun.count
    have hlow := hrun.low
    have htop : (f.placeAll (keyAdditions runs).entries).height r.x = f.height r.x + r.count := by
      rw [hheight, ← h.sizeOn hr]
      rfl
    refine ⟨r.x, (mem_fieldColumns_iff r.x).mpr hrun.column, ?_, ?_⟩
    · rw [h.sizeOn hr]
      omega
    · -- the puyos of the run from `q` up to its top are in one group
      obtain ⟨x, y⟩ := q
      obtain rfl : r.x = x := e
      have hmem : ⟨r.x, f.height r.x + r.count⟩ ∈
          (f.placeAll (keyAdditions runs).entries).group ⟨r.x, y⟩ := by
        refine Field.mem_group_above hrun.column (Nat.lt_of_le_of_lt (Nat.zero_le _) hlt) hle
          (Nat.le_trans hlow hw) (Color.ne_of_isNormal hrun.color rfl)
          (Color.ne_of_isNormal hrun.color rfl) fun k hk hk' => ?_
        exact h.color_placeAll hr hw (Nat.lt_of_lt_of_le hlt hk) hk'
      rw [htop, Field.groupSize_eq_of_mem hmem]
      exact h4

end KeyLimits.AllowsAll

/-! ## all of them -/

/-- the additions stack on the field, and no added puyo is in a vanishing group then -/
def Field.TakesQuietly (f : Field) (l : Additions) : Prop :=
  ∃ g, f.stackAll? l = some g ∧ ∀ q ∈ f.landings l.entries, g.groupSize q < 4

/-- the candidates that the search for keys shows -/
def shownKeys (f : Field) (s : Strategy) (prohibited : ColumnMask)
    (maxColumns perColumn : Nat) : List Candidate :=
  gather (visitKeys f s prohibited maxColumns perColumn)

section
variable (h : w.AllowsAll f columns runs) (hf : f.Covered) (hw : w.ceiling ≤ 12)
include h hf hw

theorem KeyLimits.AllowsAll.stackAll? :
    f.stackAll? (keyAdditions runs) = some (f.placeAll (keyAdditions runs).entries) :=
  Field.stackAll?_of_fits hf (h.fits hf hw)

theorem takesQuietly_iff : f.TakesQuietly (keyAdditions runs) ↔
    firesOnTop (f.placeAll (keyAdditions runs).entries) (keyAdditions runs) = false := by
  unfold Field.TakesQuietly
  rw [h.stackAll? hf hw, Bool.eq_false_iff, ne_eq, h.firesOnTop_iff hw]
  simp only [Option.some.injEq, exists_eq_left', not_exists, not_and, Nat.not_le]

theorem keyCandidate?_eq_some_iff (c : Candidate) :
    keyCandidate? f (keyAdditions runs) = some c ↔ f.TakesQuietly (keyAdditions runs) ∧
      c = ⟨f.placeAll (keyAdditions runs).entries, keyAdditions runs⟩ := by
  unfold keyCandidate?
  rw [takesQuietly_iff h hf hw, h.stackAll? hf hw, Option.bind_some,
    Option.ite_none_left_eq_some, Bool.not_eq_true, Option.some.injEq, eq_comm (a := c)]

/-- where no group vanishes before the additions, one of theirs must be in a group that does then -/
theorem not_takesQuietly_iff_fires (hn : f.fires = false) :
    ¬ f.TakesQuietly (keyAdditions runs) ↔
      (f.placeAll (keyAdditions runs).entries).fires = true := by
  have hfit := h.fits hf hw
  rw [takesQuietly_iff h hf hw, Bool.not_eq_false, h.firesOnTop_iff hw]
  constructor
  · intro ⟨q, hq, h4⟩
    obtain ⟨e, he, hcolor⟩ := Field.colorAt_placeAll_of_mem hfit hq
    refine (Field.fires_iff (hf.placeAll hfit)).mpr ⟨q, ?_, h4⟩
    rw [hcolor]
    exact h.normal e he
  · intro hg
    have hsame : ∀ q, q.isVisible = true → q ∉ f.landings (keyAdditions runs).entries →
        f.colorAt q = (f.placeAll (keyAdditions runs).entries).colorAt q :=
      fun q _ hq => (Field.colorAt_placeAll_of_not_mem hfit hq).symm
    rcases Field.fires_of_agree hf hsame hg with hfires | ⟨q, hq, _, h4⟩
    · rw [hn] at hfires
      cases hfires
    · exact ⟨q, hq, h4⟩

end

theorem shownKeys_eq (f : Field) (s : Strategy) (prohibited : ColumnMask)
    (maxColumns perColumn : Nat) : shownKeys f s prohibited maxColumns perColumn =
      keysUpTo f s prohibited maxColumns perColumn Field.visibleCount :=
  gather_eq (visitKeysUpTo_eq_each f s prohibited maxColumns perColumn _)

theorem visitKeys_eq_each {σ : Type} (f : Field) (s : Strategy) (prohibited : ColumnMask)
    (maxColumns perColumn : Nat) (visit : Visitor σ Candidate) (state : σ) :
    visitKeys f s prohibited maxColumns perColumn visit state =
      each visit (shownKeys f s prohibited maxColumns perColumn) state := by
  rw [shownKeys_eq]
  exact visitKeysUpTo_eq_each f s prohibited maxColumns perColumn _ visit state

theorem mem_shownKeys_iff (hf : f.Covered) {s : Strategy} {prohibited : ColumnMask}
    {maxColumns perColumn : Nat} {c : Candidate} :
    c ∈ shownKeys f s prohibited maxColumns perColumn ↔
      ∃ runs, KeyLimits.AllowsAll ⟨s.ceiling, prohibited, perColumn⟩ f maxColumns runs ∧
        f.TakesQuietly (keyAdditions runs) ∧
          c = ⟨f.placeAll (keyAdditions runs).entries, keyAdditions runs⟩ := by
  have hle := s.ceiling_le
  rw [shownKeys_eq, keysUpTo, List.mem_filterMap]
  refine exists_congr fun runs => ?_
  rw [mem_keyRunsFrom_visibleCount_iff hle]
  exact and_congr_right fun h => keyCandidate?_eq_some_iff h hf hle c

theorem nodup_shownKeys (hf : f.Covered) (s : Strategy) (prohibited : ColumnMask)
    (maxColumns perColumn : Nat) :
    ((shownKeys f s prohibited maxColumns perColumn).map Candidate.additions).Nodup := by
  have hle := s.ceiling_le
  have hnodup : (keyRunsFrom f ⟨s.ceiling, prohibited, perColumn⟩ fieldColumns maxColumns
      Field.visibleCount).Nodup :=
    nodup_keyRunsFrom column_of_mem_fieldColumns (by decide)
  rw [shownKeys_eq, keysUpTo, List.Nodup, List.pairwise_map, List.pairwise_filterMap]
  refine hnodup.pairwise_of_forall_ne fun runs hr runs' hr' hne c hc d hd e => hne ?_
  have h := (mem_keyRunsFrom_visibleCount_iff hle).mp hr
  have h' := (mem_keyRunsFrom_visibleCount_iff hle).mp hr'
  obtain ⟨_, rfl⟩ := (keyCandidate?_eq_some_iff h hf hle c).mp hc
  obtain ⟨_, rfl⟩ := (keyCandidate?_eq_some_iff h' hf hle d).mp hd
  exact keyAdditions_inj h h' e

/-- no addition at all comes first -/
theorem exists_shownKeys_eq_cons (hf : f.Covered) (s : Strategy) (prohibited : ColumnMask)
    (maxColumns perColumn : Nat) :
    ∃ rest, shownKeys f s prohibited maxColumns perColumn = ⟨f, .empty⟩ :: rest := by
  have hnone : keyCandidate? f (keyAdditions []) = some ⟨f, .empty⟩ := by
    show (f.stackAll? .empty).bind _ = _
    rw [f.stackAll?_empty hf.height_le]
    rfl
  obtain ⟨rest, e⟩ := exists_keyRunsFrom_eq_nil_cons f ⟨s.ceiling, prohibited, perColumn⟩
    fieldColumns maxColumns Field.visibleCount
  rw [shownKeys_eq, keysUpTo, e]
  exact ⟨_, List.filterMap_cons_some hnone⟩

/-- **Keys are all the ways to add puyos quietly.**  On every field that operations build and within
any limits, the search for keys shows a list of candidates to whatever visitor it has, and the same
list with any limit on all puyos together that is no less than the visible cells.  Their lists
of additions are, each once, those of the allowed runs that leave no added puyo in a vanishing
group; no addition at all comes first, and each field is the given one with its list stacked.  Where
no group of the given field vanishes, allowed runs are left out just if their field fires. -/
theorem visitKeys_shows_quiet_runs (hf : f.Built) (s : Strategy) (prohibited : ColumnMask)
    (maxColumns perColumn : Nat) :
    (∀ {σ : Type} (visit : Visitor σ Candidate) (state : σ),
      visitKeys f s prohibited maxColumns perColumn visit state =
        each visit (shownKeys f s prohibited maxColumns perColumn) state) ∧
    (∀ {σ : Type} (visit : Visitor σ Candidate) (state : σ) (maxPuyos : Nat),
      Field.visibleCount ≤ maxPuyos →
        visitKeysUpTo f s prohibited maxColumns perColumn maxPuyos visit state =
          each visit (shownKeys f s prohibited maxColumns perColumn) state) ∧
    ((shownKeys f s prohibited maxColumns perColumn).map Candidate.additions).Nodup ∧
    (∀ l, l ∈ (shownKeys f s prohibited maxColumns perColumn).map Candidate.additions ↔
      ∃ runs, KeyLimits.AllowsAll ⟨min s.maxHeight 12, prohibited, perColumn⟩ f maxColumns runs ∧
        keyAdditions runs = l ∧ f.TakesQuietly l) ∧
    (∀ runs runs', KeyLimits.AllowsAll ⟨min s.maxHeight 12, prohibited, perColumn⟩ f maxColumns
        runs →
      KeyLimits.AllowsAll ⟨min s.maxHeight 12, prohibited, perColumn⟩ f maxColumns runs' →
        keyAdditions runs = keyAdditions runs' → runs = runs') ∧
    (∃ rest, shownKeys f s prohibited maxColumns perColumn = ⟨f, .empty⟩ :: rest) ∧
    (∀ c ∈ shownKeys f s prohibited maxColumns perColumn,
      f.stackAll? c.additions = some c.field) ∧
    (f.fires = false → ∀ runs,
      KeyLimits.AllowsAll ⟨min s.maxHeight 12, prohibited, perColumn⟩ f maxColumns runs →
        ∃ g, f.stackAll? (keyAdditions runs) = some g ∧
          (keyAdditions runs ∉
            (shownKeys f s prohibited maxColumns perColumn).map Candidate.additions ↔
              g.fires = true)) := by
  have hcov := hf.covered
  have hle := s.ceiling_le
  have hmem : ∀ l, l ∈ (shownKeys f s prohibited maxColumns perColumn).map Candidate.additions ↔
      ∃ runs, KeyLimits.AllowsAll ⟨s.ceiling, prohibited, perColumn⟩ f maxColumns runs ∧
        keyAdditions runs = l ∧ f.TakesQuietly l := by
    intro l
    rw [List.mem_map]
    constructor
    · intro ⟨c, hc, e⟩
      obtain ⟨runs, h, hq, rfl⟩ := (mem_shownKeys_iff hcov).mp hc
      obtain rfl := e
      exact ⟨runs, h, rfl, hq⟩
    · intro ⟨runs, h, e, hq⟩
      obtain rfl := e
      exact ⟨_, (mem_shownKeys_iff hcov).mpr ⟨runs, h, hq, rfl⟩, rfl⟩
  refine ⟨visitKeys_eq_each f s prohibited maxColumns perColumn, fun visit state maxPuyos h => ?_,
    nodup_shownKeys hcov s prohibited maxColumns perColumn, hmem,
    fun runs runs' => keyAdditions_inj,
    exists_shownKeys_eq_cons hcov s prohibited maxColumns perColumn, fun c hc => ?_,
    fun hn runs h => ⟨_, h.stackAll? hcov hle, ?_⟩⟩
  · rw [visitKeysUpTo_eq_visitKeys h, visitKeys_eq_each]
  · obtain ⟨runs, h, _, rfl⟩ := (mem_shownKeys_iff hcov).mp hc
    exact h.stackAll? hcov hle
  · rw [← not_takesQuietly_iff_fires h hcov hle hn, hmem, not_iff_not]
    constructor
    · intro ⟨runs', _, _, hq⟩
      exact hq
    · intro hq
      exact ⟨runs, h, rfl, hq⟩

/-- a fourth red puyo on the tower is left out, and two blue ones are not -/
theorem visitKeys_shows_quiet_runs_redTower :
    redTower.Built ∧ redTower.fires = false ∧
      keyAdditions [⟨2, .red, 1⟩] ∉
        (shownKeys redTower .dropPreset (.only 5) 1 2).map Candidate.additions ∧
      keyAdditions [⟨2, .blue, 2⟩] ∈
        (shownKeys redTower .dropPreset (.only 5) 1 2).map Candidate.additions := by
  have hf : redTower.Built := ⟨Field.empty, Or.inl rfl, _, rfl⟩
  have hn : redTower.fires = false := by decide +kernel
  have hred : KeyLimits.AllowsAll ⟨min 12 12, .only 5, 2⟩ redTower 1 [⟨2, .red, 1⟩] :=
    ⟨by decide, by decide, List.forall_mem_singleton.mpr
      ⟨by decide, by decide, rfl, by decide, by decide +kernel⟩⟩
  have hblue : KeyLimits.AllowsAll ⟨min 12 12, .only 5, 2⟩ redTower 1 [⟨2, .blue, 2⟩] :=
    ⟨by decide, by decide, List.forall_mem_singleton.mpr
      ⟨by decide, by decide, rfl, by decide, by decide +kernel⟩⟩
  have hquiet : redTower.TakesQuietly (keyAdditions [⟨2, .blue, 2⟩]) := ⟨_, rfl, by decide +kernel⟩
  obtain ⟨_, _, _, hmem, _, _, _, hleft⟩ :=
    visitKeys_shows_quiet_runs hf .dropPreset (.only 5) 1 2
  refine ⟨hf, hn, ?_, (hmem _).mpr ⟨_, hblue, rfl, hquiet⟩⟩
  obtain ⟨g, hg, hiff⟩ := hleft hn _ hred
  refine hiff.mpr ?_
  have hfires : (redTower.stackAll? (keyAdditions [⟨2, .red, 1⟩])).any Field.fires = true := by
    decide +kernel
  rw [hg] at hfires
  exact hfires

end PuyoChain
