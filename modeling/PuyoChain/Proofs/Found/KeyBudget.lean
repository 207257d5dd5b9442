import Mathlib.Algebra.Order.BigOperators.Group.List
import Mathlib.Algebra.Order.Ring.Nat
import Mathlib.Data.List.Flatten
import PuyoChain.Proofs.Field.Stacking
import PuyoChain.Proofs.Found.Replay

/-!
# More keys only add chains

* `keyChoices`          all ways to put a run or nothing on each of some columns, in one fixed order;
* `KeyLimits.Within`    several runs keep to the limits on columns, puyos and columns left out;
* `keyRunsFrom_eq_filter`   a search within limits meets the choices that keep to them, in that order;
* `within_iff_total_le` where one number is the limit on columns, on the puyos of a column and on all
                        puyos, the last is the only one that counts;
* `chainsAfter`         the chains that triggers start on a field with keys;
* `findPossible_eq_flatMap`   the chains found are those after the choices that stay quiet, so with a
                        larger number the list only gets new entries.
-/

namespace PuyoChain

variable {f : Field} {s : Strategy} {w : KeyLimits} {xs : List Nat} {columns puyos : Nat}
  {runs : List KeyRun} {r : KeyRun} {k : Nat}

/-! ## choices -/

/-- the runs that column `x` has room for below a ceiling -/
def columnChoices (f : Field) (ceiling x : Nat) : List KeyRun :=
  Color.normals.flatMap fun a => (rowsUpTo (ceiling - f.height x)).map fun n => ⟨x, a, n⟩

/-- all ways to put a run or nothing on each of the columns of a list, nothing before any run -/
def keyChoices (f : Field) (ceiling : Nat) : List Nat → List (List KeyRun)
  | [] => [[]]
  | x :: xs =>
    keyChoices f ceiling xs ++
      (columnChoices f ceiling x).flatMap fun r => (keyChoices f ceiling xs).map fun runs => r :: runs

/-- the number of puyos in all runs together -/
def keyTotal (runs : List KeyRun) : Nat := (runs.map KeyRun.count).sum

/-- the runs keep to the limits on columns and puyos, and leave the prohibited columns alone -/
def KeyLimits.Within (w : KeyLimits) (columns puyos : Nat) (runs : List KeyRun) : Prop :=
  runs.length ≤ columns ∧ keyTotal runs ≤ puyos ∧
    ∀ r ∈ runs, r.count ≤ w.perColumn ∧ w.prohibited.contains r.x = false

instance (w : KeyLimits) (columns puyos : Nat) (runs : List KeyRun) :
    Decidable (w.Within columns puyos runs) :=
  inferInstanceAs (Decidable (_ ∧ _ ∧ _))

theorem keyTotal_cons (r : KeyRun) (runs : List KeyRun) :
    keyTotal (r :: runs) = r.count + keyTotal runs := List.sum_cons

theorem KeyLimits.within_nil (w : KeyLimits) (columns puyos : Nat) : w.Within columns puyos [] :=
  ⟨Nat.zero_le _, Nat.zero_le _, nofun⟩

/-- the first run takes its part of the limits, and the others have the rest -/
theorem KeyLimits.within_cons_iff : w.Within columns puyos (r :: runs) ↔
    ((columns ≠ 0 ∧ w.prohibited.contains r.x = false) ∧ r.count ≤ min w.perColumn puyos) ∧
      w.Within (columns - 1) (puyos - r.count) runs := by
  unfold Within
  rw [keyTotal_cons, List.length_cons, List.forall_mem_cons]
  constructor
  · intro ⟨hlen, hsum, ⟨hper, hx⟩, hall⟩
    exact ⟨⟨⟨by omega, hx⟩, by omega⟩, by omega, by omega, hall⟩
  · intro ⟨⟨⟨hlen, hx⟩, hcount⟩, hlen', hsum, hall⟩
    exact ⟨by omega, by omega, ⟨by omega, hx⟩, hall⟩

theorem flatMap_rowsUpTo_min {α : Type} (m n : Nat) (g : Nat → List α) :
    (rowsUpTo (min m n)).flatMap g = (rowsUpTo n).flatMap fun y => if y ≤ m then g y else [] := by
  induction n with
  | zero => rw [Nat.min_zero]; rfl
  | succ n ih =>
    rw [rowsUpTo_succ, List.flatMap_append, ← ih, List.flatMap_singleton]
    by_cases h : n + 1 ≤ m
    · rw [if_pos h, Nat.min_eq_right h, Nat.min_eq_right (by omega), rowsUpTo_succ,
        List.flatMap_append, List.flatMap_singleton]
    · rw [if_neg h, Nat.min_eq_left (by omega), Nat.min_eq_left (by omega), List.append_nil]

/-- limits leave some of the runs of a column -/
theorem flatMap_keyStacks {α : Type} (f : Field) (w : KeyLimits) (puyos x : Nat)
    (rest : Color × Nat → List α) : (keyStacks f w puyos x).flatMap rest =
      (columnChoices f w.ceiling x).flatMap fun r =>
        if r.count ≤ min w.perColumn puyos then rest (r.color, r.count) else [] := by
  rw [keyStacks, columnChoices, List.flatMap_assoc, List.flatMap_assoc, ← Nat.min_assoc]
  refine List.flatMap_congr fun a _ => ?_
  rw [List.flatMap_map, List.flatMap_map]
  exact flatMap_rowsUpTo_min _ _ fun n => rest (a, n)

theorem x_of_mem_columnChoices {ceiling x : Nat} (h : r ∈ columnChoices f ceiling x) : r.x = x := by
  obtain ⟨a, _, h⟩ := List.mem_flatMap.mp h
  obtain ⟨n, _, rfl⟩ := List.mem_map.mp h
  rfl

/-- **Limits only leave choices out.**  The search within limits meets the choices that keep to
them, in the order of the choices. -/
theorem keyRunsFrom_eq_filter (f : Field) (w : KeyLimits) (xs : List Nat) (columns puyos : Nat) :
    keyRunsFrom f w xs columns puyos =
      (keyChoices f w.ceiling xs).filter fun runs => decide (w.Within columns puyos runs) := by
  induction xs generalizing columns puyos with
  | nil =>
    have h := w.within_nil columns puyos
    rw [keyRunsFrom, keyChoices, List.filter_singleton, decide_eq_true h]
    rfl
  | cons x xs ih =>
    -- of the choices that begin with a run those pass whose other runs keep to the rest of the limits
    have hrest : ∀ r : KeyRun, ((keyChoices f w.ceiling xs).map (r :: ·)).filter
        (fun runs => decide (w.Within columns puyos runs)) =
        if (columns ≠ 0 ∧ w.prohibited.contains r.x = false) ∧ r.count ≤ min w.perColumn puyos then
          (keyRunsFrom f w xs (columns - 1) (puyos - r.count)).map (r :: ·)
        else [] := by
      intro r
      split
      · rename_i h
        rw [ih, List.filter_map]
        refine congrArg _ (List.filter_congr fun runs _ => ?_)
        show decide (w.Within columns puyos (r :: runs)) = _
        rw [decide_eq_decide, KeyLimits.within_cons_iff, and_iff_right h]
      · rename_i h
        rw [List.filter_map, List.map_eq_nil_iff, List.filter_eq_nil_iff]
        intro runs _ hin
        exact h (KeyLimits.within_cons_iff.mp (of_decide_eq_true hin)).1
    rw [keyRunsFrom, keyChoices, List.filter_append, ← ih, List.filter_flatMap]
    refine congrArg _ ?_
    simp only [hrest]
    by_cases hskip : (columns = 0 || w.prohibited.contains x) = true
    · rw [if_pos hskip]
      refine (List.flatMap_eq_nil_iff.mpr fun r hr => if_neg fun h => ?_).symm
      obtain rfl := x_of_mem_columnChoices hr
      simp [h.1] at hskip
    · have hx : columns ≠ 0 ∧ w.prohibited.contains x = false := by simpa using hskip
      rw [if_neg hskip, flatMap_keyStacks]
      refine List.flatMap_congr fun r hr => ?_
      obtain rfl := x_of_mem_columnChoices hr
      simp only [hx, and_true, true_and, ne_eq, not_false_eq_true]

/-- every choice keeps to the limits that its own size gives -/
theorem within_keyTotal (ceiling : Nat) (runs : List KeyRun) :
    KeyLimits.Within ⟨ceiling, .empty, keyTotal runs⟩ runs.length (keyTotal runs) runs :=
  ⟨Nat.le_refl _, Nat.le_refl _, fun r hr =>
    ⟨List.le_sum_of_mem (List.mem_map_of_mem hr), ColumnMask.contains_empty r.x⟩⟩

theorem nodup_keyChoices (f : Field) (ceiling : Nat) :
    (keyChoices f ceiling fieldColumns).Nodup := by
  refine List.nodup_iff_count_le_one.mpr fun runs => ?_
  have hnodup : (keyRunsFrom f ⟨ceiling, .empty, keyTotal runs⟩ fieldColumns runs.length
      (keyTotal runs)).Nodup :=
    nodup_keyRunsFrom column_of_mem_fieldColumns (by decide)
  have hcount : (keyRunsFrom f ⟨ceiling, .empty, keyTotal runs⟩ fieldColumns runs.length
      (keyTotal runs)).count runs = (keyChoices f ceiling fieldColumns).count runs := by
    rw [keyRunsFrom_eq_filter]
    exact List.count_filter (decide_eq_true (within_keyTotal ceiling runs))
  rw [← hcount]
  exact List.nodup_iff_count_le_one.mp hnodup runs

theorem allowsAll_of_low {ceiling : Nat} (hc : ceiling ≤ 12)
    (hasc : runs.Pairwise fun r r' => r.x < r'.x)
    (hall : ∀ r ∈ runs, (1 ≤ r.x ∧ r.x ≤ 6) ∧ r.color.isNormal = true ∧ 1 ≤ r.count ∧
      f.height r.x + r.count ≤ ceiling) :
    KeyLimits.AllowsAll ⟨ceiling, .empty, 12⟩ f runs.length runs := by
  refine ⟨hasc, Nat.le_refl _, fun r hr => ?_⟩
  obtain ⟨hx, ha, hpos, hlow⟩ := hall r hr
  exact ⟨hx, ColumnMask.contains_empty r.x, ha, ⟨hpos, show r.count ≤ 12 by omega⟩, hlow⟩

/-- the choices are the runs on different columns, from the left, in normal colors and not above the
ceiling -/
theorem mem_keyChoices_iff {ceiling : Nat} (hc : ceiling ≤ 12) :
    runs ∈ keyChoices f ceiling fieldColumns ↔ (runs.Pairwise fun r r' => r.x < r'.x) ∧
      ∀ r ∈ runs, (1 ≤ r.x ∧ r.x ≤ 6) ∧ r.color.isNormal = true ∧ 1 ≤ r.count ∧
        f.height r.x + r.count ≤ ceiling := by
  constructor
  · intro h
    have hmem : runs ∈ keyRunsFrom f ⟨ceiling, .empty, keyTotal runs⟩ fieldColumns runs.length
        (keyTotal runs) := by
      rw [keyRunsFrom_eq_filter]
      exact List.mem_filter.mpr ⟨h, decide_eq_true (within_keyTotal ceiling runs)⟩
    obtain ⟨hsub, _, _, hall⟩ := (mem_keyRunsFrom_iff column_of_mem_fieldColumns).mp hmem
    have hlt : (runs.map KeyRun.x).Pairwise (· < ·) :=
      (show fieldColumns.Pairwise (· < ·) by decide).sublist hsub
    refine ⟨List.pairwise_map.mp hlt, fun r hr => ?_⟩
    have hrun := hall r hr
    exact ⟨hrun.column, hrun.color, hrun.count.1, hrun.low⟩
  · intro ⟨hasc, hall⟩
    have hmem := (mem_keyRunsFrom_visibleCount_iff hc).mpr (allowsAll_of_low hc hasc hall)
    rw [keyRunsFrom_eq_filter] at hmem
    exact (List.mem_filter.mp hmem).1

/-- of the limits by one number, the limit on all puyos is the only one that counts -/
theorem within_iff_total_le {ceiling k : Nat} (hpos : ∀ r ∈ runs, 1 ≤ r.count) :
    KeyLimits.Within ⟨ceiling, .empty, k⟩ k k runs ↔ keyTotal runs ≤ k := by
  refine ⟨fun h => h.2.1, fun h => ?_⟩
  have hlen : runs.length ≤ keyTotal runs := by
    have hone : ∀ n ∈ runs.map KeyRun.count, 1 ≤ n := List.forall_mem_map.mpr hpos
    have hle := List.length_le_sum_of_one_le _ hone
    rwa [List.length_map] at hle
  refine ⟨hlen.trans h, h, fun r hr => ⟨?_, ColumnMask.contains_empty r.x⟩⟩
  exact (List.le_sum_of_mem (List.mem_map_of_mem hr)).trans h

/-- with one number for all limits, the search meets the choices of at most so many puyos -/
theorem keyRunsFrom_eq_filter_total (f : Field) {ceiling : Nat} (hc : ceiling ≤ 12) (k : Nat) :
    keyRunsFrom f ⟨ceiling, .empty, k⟩ fieldColumns k k =
      (keyChoices f ceiling fieldColumns).filter fun runs => keyTotal runs ≤ k := by
  rw [keyRunsFrom_eq_filter]
  refine List.filter_congr fun runs hruns => ?_
  obtain ⟨_, hall⟩ := (mem_keyChoices_iff hc).mp hruns
  rw [decide_eq_decide]
  exact within_iff_total_le fun r hr => (hall r hr).2.2.1

/-! ## chains after choices -/

instance (f : Field) (l : Additions) : Decidable (f.TakesQuietly l) :=
  inferInstanceAs (Decidable (∃ g ∈ f.stackAll? l, ∀ q ∈ f.landings l.entries, g.groupSize q < 4))

/-- the chains that triggers start on the field with keys, each with the keys before the trigger -/
def chainsAfter (f : Field) (s : Strategy) (keys : Additions) : List PossibleChain :=
  match f.stackAll? keys with
  | none => []
  | some keyed =>
    ((detected keyed s .empty .fire).filter fun c => 1 ≤ c.field.simulate.2.chains).map fun c =>
      ⟨c.field.simulate.2, ⟨keys.entries ++ c.additions.entries⟩⟩

theorem map_firedFrom (hf : f.Covered) {keys : Additions} {keyed : Field}
    (hcol : ∀ e ∈ keys.entries, 1 ≤ e.x ∧ e.x ≤ 6) (hkeys : f.stackAll? keys = some keyed) :
    (firedFrom keyed keys s .empty).map FiredChain.toPossible = chainsAfter f s keys := by
  rw [firedFrom_eq hf hcol hkeys, List.map_map, chainsAfter, hkeys]
  simp only [Function.comp_def, FiredChain.toPossible]

/-- the chains after the candidate of a choice, if it has one -/
theorem map_firedFrom_keyCandidate? (hf : f.Covered)
    (hruns : runs ∈ keyChoices f s.ceiling fieldColumns) :
    ((keyCandidate? f (keyAdditions runs)).toList.flatMap fun c =>
      firedFrom c.field c.additions s .empty).map FiredChain.toPossible =
      if f.TakesQuietly (keyAdditions runs) then chainsAfter f s (keyAdditions runs) else [] := by
  have hle := s.ceiling_le
  obtain ⟨hasc, hall⟩ := (mem_keyChoices_iff hle).mp hruns
  have hallows := allowsAll_of_low hle hasc hall
  have hiff := keyCandidate?_eq_some_iff hallows hf hle
  by_cases hquiet : f.TakesQuietly (keyAdditions runs)
  · rw [if_pos hquiet, (hiff _).mpr ⟨hquiet, rfl⟩, Option.toList_some, List.flatMap_singleton]
    exact map_firedFrom hf hallows.column (hallows.stackAll? hf hle)
  · have hnone : keyCandidate? f (keyAdditions runs) = none :=
      Option.eq_none_iff_forall_ne_some.mpr fun c hc => hquiet ((hiff c).mp hc).1
    rw [if_neg hquiet, hnone]
    rfl

/-- the chains found are those after the choices of so many puyos that stay quiet -/
theorem findPossible_eq_flatMap (hf : f.Covered) (s : Strategy) (k : Nat) :
    findPossible f k s = ((keyChoices f s.ceiling fieldColumns).filter fun runs =>
      keyTotal runs ≤ k ∧ f.TakesQuietly (keyAdditions runs)).flatMap fun runs =>
        chainsAfter f s (keyAdditions runs) := by
  have hgather : gather (visitPossible f k s) = possibleChains f k s :=
    gather_eq fun visit state => visitPossible_eq_each visit f k s state
  rw [findPossible, hgather, possibleChains, keysUpTo, List.filterMap_eq_flatMap_toList,
    List.flatMap_assoc, List.map_flatMap, keyRunsFrom_eq_filter_total f s.ceiling_le,
    ← flatMap_ite, ← flatMap_ite]
  refine List.flatMap_congr fun runs hruns => ?_
  rw [map_firedFrom_keyCandidate? hf hruns, ite_and]

theorem findPossible_sublist (hf : f.Covered) (s : Strategy) {k n : Nat} (h : k ≤ n) :
    (findPossible f k s).Sublist (findPossible f n s) := by
  rw [findPossible_eq_flatMap hf, findPossible_eq_flatMap hf]
  refine List.Sublist.flatMap (List.monotone_filter_right _ fun runs hruns => ?_) _
  rw [decide_eq_true_iff] at hruns ⊢
  exact ⟨hruns.1.trans h, hruns.2⟩

/-- **More keys only add chains.**  On every field that operations build and with every strategy,
the chains found with at most `k` keys are among those found with at most `k + 1`, in the same
order.  They are those that triggers start after one choice of keys and then the next, of at most
`k` puyos in all and none of them in a vanishing group, each with the keys before the trigger.  The
choices are, each once and in an order that `k` has no part in, all runs on different columns, from
the left, in normal colors and not above the ceiling. -/
theorem findPossible_grows_with_keys (hf : f.Built) (s : Strategy) (k : Nat) :
    (findPossible f k s).Sublist (findPossible f (k + 1) s) ∧
    findPossible f k s = ((keyChoices f s.ceiling fieldColumns).filter fun runs =>
      keyTotal runs ≤ k ∧ f.TakesQuietly (keyAdditions runs)).flatMap (fun runs =>
        chainsAfter f s (keyAdditions runs)) ∧
    (keyChoices f s.ceiling fieldColumns).Nodup ∧
    ∀ runs, runs ∈ keyChoices f s.ceiling fieldColumns ↔
      (runs.Pairwise fun r r' => r.x < r'.x) ∧
        ∀ r ∈ runs, (1 ≤ r.x ∧ r.x ≤ 6) ∧ r.color.isNormal = true ∧ 1 ≤ r.count ∧
          f.height r.x + r.count ≤ s.ceiling := by
  have hcov := hf.covered
  refine ⟨findPossible_sublist hcov s (Nat.le_succ k), findPossible_eq_flatMap hcov s k,
    nodup_keyChoices f s.ceiling, fun runs => ?_⟩
  exact mem_keyChoices_iff s.ceiling_le

/-- a fourth red puyo, after a yellow one as a key -/
theorem findPossible_grows_with_keys_twoTowers :
    twoTowers.Built ∧ ∃ c ∈ findPossible twoTowers 1 ⟨.drop, 1, 3, false⟩,
      c.additions.entries = [⟨3, .yellow⟩, ⟨2, .red⟩] ∧
        c ∈ findPossible twoTowers 2 ⟨.drop, 1, 3, false⟩ := by
  have hf : twoTowers.Built := ⟨Field.empty, Or.inl rfl, _, rfl⟩
  obtain ⟨hsub, hall, _, hmem⟩ := findPossible_grows_with_keys hf ⟨.drop, 1, 3, false⟩ 1
  have hruns : [⟨3, .yellow, 1⟩] ∈ keyChoices twoTowers 3 fieldColumns :=
    (hmem _).mpr ⟨List.pairwise_singleton _ _, List.forall_mem_singleton.mpr
      ⟨by decide, rfl, by decide, by decide +kernel⟩⟩
  have hquiet : twoTowers.TakesQuietly (keyAdditions [⟨3, .yellow, 1⟩]) :=
    ⟨_, rfl, by decide +kernel⟩
  have hlist : ⟨[⟨3, .yellow⟩, ⟨2, .red⟩]⟩ ∈ (chainsAfter twoTowers ⟨.drop, 1, 3, false⟩
      (keyAdditions [⟨3, .yellow, 1⟩])).map PossibleChain.additions := by decide +kernel
  obtain ⟨c, hc, e⟩ := List.mem_map.mp hlist
  have hfound : c ∈ findPossible twoTowers 1 ⟨.drop, 1, 3, false⟩ := by
    rw [hall]
    refine List.mem_flatMap.mpr ⟨_, List.mem_filter.mpr ⟨hruns, ?_⟩, hc⟩
    rw [decide_eq_true_iff]
    exact ⟨Nat.le_refl 1, hquiet⟩
  exact ⟨hf, c, hfound, by rw [e], hsub.subset hfound⟩

end PuyoChain
