import PuyoChain.Proofs.Candidate.Purposes
import PuyoChain.Proofs.Candidate.Shortest
import PuyoChain.Proofs.Found.Replay

/-!
# Keys and triggers of side chains

* `SideKeys`          one or two keys of a color on a column that has it, low and quiet;
* `Field.QuietDrop`   so many puyos on a column end at or below a ceiling and do not vanish; they
                      are quiet from the first on (`QuietDrop.of_le`);
* `keyings`           the columns, colors and numbers of keys that the search goes through
                      (`sideChains_eq`), which are those with `SideKeys` (`sideKeys_iff`);
* `keyingOf`          the keying that a list of additions starts with; the trigger keeps out of its
                      column, so keys and trigger can be told apart (`keyingOf_append`).

`visitSideChains` shows every way to make keys and a trigger once (`visitSideChains_shows_splits`).
-/

namespace PuyoChain

/-- one or two keys of a color on a column that has it, at or below the ceiling, with no key in a
group of four -/
structure SideKeys (f : Field) (s : Strategy) (x : Nat) (a : Color) (keys : Additions)
    (keyed : Field) : Prop where
  column : 1 ≤ x ∧ x ≤ 6
  normal : a.isNormal = true
  seen : ∃ y, (1 ≤ y ∧ y ≤ 12) ∧ f.color x y = a
  entries : keys.entries = [⟨x, a⟩] ∨ keys.entries = [⟨x, a⟩, ⟨x, a⟩]
  stackAll : f.stackAll? keys = some keyed
  low : ∀ q ∈ f.landings keys.entries, q.y ≤ min s.maxHeight 12
  quiet : ∀ q ∈ f.landings keys.entries, keyed.groupSize q < 4

variable {f keyed : Field} {s : Strategy} {keys : Additions} {x n i : Nat} {a : Color}

/-! ## how many keys -/

/-- `n` puyos of a color on a column end at or below a ceiling, and the topmost is in no vanishing
group -/
def Field.QuietDrop (f : Field) (ceiling x : Nat) (a : Color) (n : Nat) : Prop :=
  f.height x + n ≤ ceiling ∧ (dropOf f x a n).field.groupSize ⟨x, f.height x + n⟩ < 4

instance (f : Field) (ceiling x : Nat) (a : Color) (n : Nat) :
    Decidable (f.QuietDrop ceiling x a n) := inferInstanceAs (Decidable (_ ∧ _))

/-- the columns, colors and numbers of keys that the search goes through -/
def keyings (f : Field) (s : Strategy) : List (Nat × Color × Nat) :=
  fieldColumns.flatMap fun x => (columnColors f x).flatMap fun a =>
    ([1, 2].filter fun n => f.QuietDrop s.ceiling x a n).map fun n => (x, a, n)

/-- the chains of the triggers after the keys of a keying -/
def keyedChains (f : Field) (s : Strategy) (w : Nat × Color × Nat) : List FiredChain :=
  firedFrom (dropOf f w.1 w.2.1 w.2.2).field (dropOf f w.1 w.2.1 w.2.2).additions s (.only w.1)

section
variable (hx : 1 ≤ x ∧ x ≤ 6)
include hx

/-- puyos that are quiet on a column have been so from the first on -/
theorem Field.QuietDrop.of_le (ha : a.isNormal = true) (hf : f.Covered) {ceiling : Nat}
    (hle : ceiling ≤ 12) (h : f.QuietDrop ceiling x a n) (hi : 1 ≤ i) (hin : i ≤ n) :
    f.QuietDrop ceiling x a i := by
  obtain ⟨hlow, hquiet⟩ := h
  have hsplit : List.replicate n (⟨x, a⟩ : Addition) =
      List.replicate i ⟨x, a⟩ ++ List.replicate (n - i) ⟨x, a⟩ := by
    rw [List.replicate_append_replicate, Nat.add_sub_cancel' hin]
  have hkept : (dropOf f x a i).field.KeptIn (dropOf f x a n).field := by
    have hfits : f.Fits (List.replicate n ⟨x, a⟩) := Field.fits_run hx a (by omega)
    rw [hsplit] at hfits
    rw [dropOf, dropOf, hsplit, Field.placeAll_append]
    exact (hf.placeAll (Field.fits_run hx a (by omega))).keptIn_placeAll hfits.of_append
  have hgroup : ⟨x, f.height x + i⟩ ∈ (dropOf f x a n).field.group ⟨x, f.height x + n⟩ :=
    mem_group_of_mem_landings_run ha hx (by omega)
      ((Field.mem_landings_run hx a n _).mpr ⟨rfl, by dsimp only; omega, by dsimp only; omega⟩)
  refine ⟨by omega, ?_⟩
  calc (dropOf f x a i).field.groupSize ⟨x, f.height x + i⟩
      ≤ (dropOf f x a n).field.groupSize ⟨x, f.height x + i⟩ := hkept.groupSize_le _
    _ = (dropOf f x a n).field.groupSize ⟨x, f.height x + n⟩ := Field.groupSize_eq_of_mem hgroup
    _ < 4 := hquiet

theorem sideKeyChains_eq_takeWhile (n i : Nat) :
    sideKeyChains s x a n (dropOf f x a i).field (dropOf f x a i).additions =
      ((List.range' (i + 1) n).takeWhile fun k => f.QuietDrop s.ceiling x a k).flatMap fun k =>
        keyedChains f s (x, a, k) := by
  induction n generalizing i with
  | zero => rfl
  | succ n ih =>
    rw [sideKeyChains, height_dropOf hx, List.range'_succ]
    by_cases hc : s.ceiling ≤ f.height x + i
    · have hno : ¬ f.QuietDrop s.ceiling x a (i + 1) := fun h => by
        have hlow := h.1
        omega
      rw [if_pos hc, List.takeWhile_cons_of_neg (by simpa using hno)]
      rfl
    · have hle := s.ceiling_le
      have hcapacity : i < Additions.capacity := by
        show i < 84
        omega
      rw [if_neg hc, stack?_dropOf hx a f (by omega), add_dropOf hx a f hcapacity]
      dsimp only
      rw [height_dropOf hx]
      by_cases hv : (dropOf f x a (i + 1)).field.inVanishing ⟨x, f.height x + (i + 1)⟩ = true
      · have hno : ¬ f.QuietDrop s.ceiling x a (i + 1) := fun h =>
          Nat.not_le_of_lt h.2 ((Field.inVanishing_iff _ _).mp hv)
        rw [if_pos hv, List.takeWhile_cons_of_neg (by simpa using hno)]
        rfl
      · have hyes : f.QuietDrop s.ceiling x a (i + 1) :=
          ⟨by omega, Nat.lt_of_not_le fun h => hv ((Field.inVanishing_iff _ _).mpr h)⟩
        rw [if_neg hv, List.takeWhile_cons_of_pos (by simpa using hyes), List.flatMap_cons, ih]
        rfl

end

/-- a test that fails for good once it fails takes all for which it holds -/
theorem takeWhile_eq_filter {α : Type} {p : α → Bool} {as : List α}
    (h : as.Pairwise fun a b => p b = true → p a = true) : as.takeWhile p = as.filter p := by
  induction h with
  | nil => rfl
  | @cons a as hfirst _ ih =>
    by_cases ha : p a = true
    · rw [List.takeWhile_cons_of_pos ha, List.filter_cons_of_pos ha, ih]
    · have hnone : as.filter p = [] :=
        List.filter_eq_nil_iff.mpr fun b hb hpb => ha (hfirst b hb hpb)
      rw [List.takeWhile_cons_of_neg ha, List.filter_cons_of_neg ha, hnone]

theorem mem_columnColors_iff (hf : f.Covered) (hx : 1 ≤ x ∧ x ≤ 6) : a ∈ columnColors f x ↔
    a.isNormal = true ∧ ∃ y, (1 ≤ y ∧ y ≤ 12) ∧ f.color x y = a := by
  rw [columnColors, List.mem_filter, Color.mem_normals_iff, List.any_eq_true]
  refine and_congr_right fun ha => ?_
  constructor
  · rintro ⟨⟨z, y⟩, hp, e⟩
    obtain ⟨rfl, h1, _, h12⟩ := (Field.mem_columnCells_iff f visibleHeight x _).mp hp
    exact ⟨y, ⟨h1, h12⟩, beq_iff_eq.mp e⟩
  · rintro ⟨y, ⟨h1, h12⟩, rfl⟩
    refine ⟨⟨x, y⟩, (Field.mem_columnCells_iff f visibleHeight x _).mpr ⟨rfl, h1, ?_, h12⟩,
      beq_self_eq_true _⟩
    by_contra hlt
    refine Color.ne_of_isNormal ha rfl (hf.color_eq_empty hx (Nat.lt_of_not_le hlt) ?_)
    exact Nat.le_trans h12 (by decide)

theorem sideChains_eq (hf : f.Covered) (s : Strategy) :
    sideChains f s = (keyings f s).flatMap (keyedChains f s) := by
  rw [sideChains, keyings, List.flatMap_assoc]
  refine List.flatMap_congr fun x hx => ?_
  rw [List.flatMap_assoc]
  refine List.flatMap_congr fun a ha => ?_
  have hx := (mem_fieldColumns_iff x).mp hx
  have ha := ((mem_columnColors_iff hf hx).mp ha).1
  have hquiet : [1, 2].Pairwise fun k n => decide (f.QuietDrop s.ceiling x a n) = true →
      decide (f.QuietDrop s.ceiling x a k) = true := by
    simp only [decide_eq_true_eq, List.pairwise_pair]
    exact fun h => h.of_le hx ha hf s.ceiling_le (by decide) (by decide)
  have hall := sideKeyChains_eq_takeWhile (f := f) (s := s) (a := a) hx 2 0
  rw [show List.range' (0 + 1) 2 = [1, 2] from rfl, takeWhile_eq_filter hquiet] at hall
  rw [List.flatMap_map]
  exact hall

theorem mem_keyings_iff (hf : f.Covered) : (x, a, n) ∈ keyings f s ↔
    (1 ≤ x ∧ x ≤ 6) ∧ (a.isNormal = true ∧ ∃ y, (1 ≤ y ∧ y ≤ 12) ∧ f.color x y = a) ∧
      (n = 1 ∨ n = 2) ∧ f.QuietDrop s.ceiling x a n := by
  simp only [keyings, List.mem_flatMap, mem_fieldColumns_iff, List.mem_map, List.mem_filter,
    List.mem_cons, List.not_mem_nil, or_false, decide_eq_true_eq, Prod.mk.injEq]
  constructor
  · rintro ⟨x, hx, a, ha, n, ⟨hn, hq⟩, rfl, rfl, rfl⟩
    exact ⟨hx, (mem_columnColors_iff hf hx).mp ha, hn, hq⟩
  · rintro ⟨hx, ha, hn, hq⟩
    exact ⟨x, hx, a, (mem_columnColors_iff hf hx).mpr ha, n, ⟨hn, hq⟩, rfl, rfl, rfl⟩

/-- the keyings are those whose keys are `SideKeys` -/
theorem sideKeys_iff (hf : f.Covered) : SideKeys f s x a keys keyed ↔
    ∃ n, (x, a, n) ∈ keyings f s ∧ dropOf f x a n = ⟨keyed, keys⟩ := by
  have hle := s.ceiling_le
  constructor
  · intro h
    obtain ⟨n, hn, hentries⟩ : ∃ n, (n = 1 ∨ n = 2) ∧ keys = ⟨List.replicate n ⟨x, a⟩⟩ := by
      rcases h.entries with e | e
      · exact ⟨1, Or.inl rfl, congrArg Additions.mk e⟩
      · exact ⟨2, Or.inr rfl, congrArg Additions.mk e⟩
    obtain rfl := hentries
    have htop : ⟨x, f.height x + n⟩ ∈ f.landings (List.replicate n ⟨x, a⟩) :=
      (Field.mem_landings_run h.column a n _).mpr ⟨rfl, by dsimp only; omega, Nat.le_refl _⟩
    obtain ⟨_, rfl⟩ := Field.stackAll?_eq_some
      (fun e he => by rw [List.eq_of_mem_replicate he]; exact h.column) h.stackAll
    have hq : f.QuietDrop s.ceiling x a n := ⟨h.low _ htop, h.quiet _ htop⟩
    exact ⟨n, (mem_keyings_iff hf).mpr ⟨h.column, ⟨h.normal, h.seen⟩, hn, hq⟩, rfl⟩
  · rintro ⟨n, hw, e⟩
    obtain ⟨hx, ⟨ha, hseen⟩, hn, hlow, hquiet⟩ := (mem_keyings_iff hf).mp hw
    obtain ⟨rfl, rfl⟩ := Candidate.mk.inj e
    refine ⟨hx, ha, hseen, ?_, stackAll?_dropOf hx a hf (by omega), fun q hq => ?_,
      fun q hq => ?_⟩
    · rcases hn with rfl | rfl
      · exact Or.inl rfl
      · exact Or.inr rfl
    · obtain ⟨_, _, hqn⟩ := (Field.mem_landings_run hx a n q).mp hq
      exact Nat.le_trans hqn hlow
    · rw [Field.groupSize_eq_of_mem (mem_group_of_mem_landings_run ha hx (by omega) hq)]
      exact hquiet

/-! ## keys and trigger -/

/-- the column and color of the first addition, and how many there are on its column -/
def keyingOf (as : List Addition) : Option (Nat × Color × Nat) :=
  as.head?.map fun e => (e.x, e.color, as.countP fun b => b.x == e.x)

theorem keyingOf_append {bs : List Addition} (hn : 1 ≤ n) (h : ∀ e ∈ bs, e.x ≠ x) :
    keyingOf (List.replicate n ⟨x, a⟩ ++ bs) = some (x, a, n) := by
  obtain ⟨k, rfl⟩ := Nat.exists_eq_add_of_le' hn
  have hbs : (bs.countP fun b => b.x == x) = 0 := List.countP_eq_zero.mpr (by simpa using h)
  rw [keyingOf, List.replicate_succ, List.cons_append, List.head?_cons, Option.map_some,
    ← List.cons_append, ← List.replicate_succ]
  dsimp only
  rw [List.countP_append, List.countP_replicate, if_pos (beq_self_eq_true x), hbs, Nat.add_zero]

/-- a list with a tag for each part has nothing twice if its parts have not -/
theorem nodup_flatMap_of_tag {α β : Type} {as : List α} {part : α → List β} (tag : β → Option α)
    (has : as.Nodup) (hparts : ∀ a ∈ as, (part a).Nodup)
    (htag : ∀ a ∈ as, ∀ b ∈ part a, tag b = some a) : (as.flatMap part).Nodup := by
  refine List.nodup_flatMap.mpr ⟨hparts, ?_⟩
  refine has.pairwise_of_forall_ne fun a ha a' ha' hne b hb hb' => hne ?_
  exact Option.some.inj ((htag a ha b hb).symm.trans (htag a' ha' b hb'))

theorem nodup_keyings (f : Field) (s : Strategy) : (keyings f s).Nodup := by
  refine nodup_flatMap_of_tag (fun w => some w.1) (by decide) (fun x _ => ?_) fun x _ w hw => ?_
  · refine nodup_flatMap_of_tag (fun w => some w.2.1) ?_ (fun a _ => ?_) fun a _ w hw => ?_
    · exact List.Nodup.filter _ (by decide)
    · exact (List.Nodup.filter _ (by decide)).map fun n k e => (Prod.mk.inj (Prod.mk.inj e).2).2
    · obtain ⟨n, _, rfl⟩ := List.mem_map.mp hw
      rfl
  · obtain ⟨a, _, hw⟩ := List.mem_flatMap.mp hw
    obtain ⟨n, _, rfl⟩ := List.mem_map.mp hw
    rfl

/-! ## the chains of keys and triggers -/

theorem sideKeys_dropOf (hf : f.Covered) (h : (x, a, n) ∈ keyings f s) :
    SideKeys f s x a (dropOf f x a n).additions (dropOf f x a n).field :=
  (sideKeys_iff hf).mpr ⟨n, h, rfl⟩

section
variable (hf : f.Covered) (h : SideKeys f s x a keys keyed)
include h

theorem column_of_mem_sideKeys : ∀ e ∈ keys.entries, 1 ≤ e.x ∧ e.x ≤ 6 := by
  intro e he
  obtain rfl : e = ⟨x, a⟩ := by
    rcases h.entries with hk | hk
    · simpa [hk] using he
    · simpa [hk] using he
  exact h.column

include hf

theorem covered_of_sideKeys : keyed.Covered := by
  obtain ⟨hfits, rfl⟩ := Field.stackAll?_eq_some (column_of_mem_sideKeys h) h.stackAll
  exact hf.placeAll hfits

/-- a trigger keeps out of the column of the keys -/
theorem column_ne_of_mem_detected {c : Candidate}
    (hc : c ∈ detected keyed s (.only x) .fire) : ∀ e ∈ c.additions.entries, e.x ≠ x := by
  rintro e he rfl
  have hallowed := ((sound_of_mem_detected (covered_of_sideKeys hf h) hc).allowed e he).2
  rw [ColumnMask.only, ColumnMask.contains_insert _ _ _ h.column, decide_eq_true rfl,
    Bool.true_or] at hallowed
  cases hallowed

theorem keyingOf_sideKeys {c : Candidate} (hc : c ∈ detected keyed s (.only x) .fire) :
    ∃ n, dropOf f x a n = ⟨keyed, keys⟩ ∧
      keyingOf (keys.entries ++ c.additions.entries) = some (x, a, n) := by
  obtain ⟨n, hw, e⟩ := (sideKeys_iff hf).mp h
  obtain ⟨_, _, hn, _⟩ := (mem_keyings_iff hf).mp hw
  have hbeside := column_ne_of_mem_detected hf h hc
  refine ⟨n, e, ?_⟩
  obtain ⟨rfl, rfl⟩ := Candidate.mk.inj e
  exact keyingOf_append (by omega) hbeside

/-- what a detection shows is told apart by its additions -/
theorem eq_of_mem_detected {c d : Candidate} (hc : c ∈ detected keyed s (.only x) .fire)
    (hd : d ∈ detected keyed s (.only x) .fire)
    (e : c.additions.entries = d.additions.entries) : c = d := by
  have hk := covered_of_sideKeys hf h
  have hadditions : c.additions = d.additions := congrArg Additions.mk e
  have hfield := (sound_of_mem_detected hk hc).stackAll
  rw [hadditions, (sound_of_mem_detected hk hd).stackAll] at hfield
  exact congrArg₂ Candidate.mk (Option.some.inj hfield).symm hadditions

/-- the chains after the keys have pairwise different additions -/
theorem nodup_additions_firedFrom :
    ((firedFrom keyed keys s (.only x)).map FiredChain.additions).Nodup := by
  have hnodup : (detected keyed s (.only x) .fire).Nodup :=
    (pairwise_detected keyed s (.only x) .fire).imp fun hne e => hne (by rw [e])
  rw [firedFrom_eq hf (column_of_mem_sideKeys h) h.stackAll, List.map_map]
  simp only [Function.comp_def]
  refine (hnodup.filter _).map_on fun c hc d hd e => ?_
  refine eq_of_mem_detected hf h (List.mem_filter.mp hc).1 (List.mem_filter.mp hd).1 ?_
  exact List.append_cancel_left (Additions.mk.inj e)

end

theorem nodup_additions_sideChains (hf : f.Covered) (s : Strategy) :
    ((sideChains f s).map FiredChain.additions).Nodup := by
  rw [sideChains_eq hf, List.map_flatMap]
  refine nodup_flatMap_of_tag (fun l => keyingOf l.entries) (nodup_keyings f s)
    (fun ⟨x, a, n⟩ hw => nodup_additions_firedFrom hf (sideKeys_dropOf hf hw))
    fun ⟨x, a, n⟩ hw l hl => ?_
  have h := sideKeys_dropOf hf hw
  obtain ⟨c, hc, rfl⟩ := List.mem_map.mp hl
  obtain ⟨d, hd, _, rfl⟩ := (mem_firedFrom_iff hf (column_of_mem_sideKeys h) h.stackAll).mp hc
  obtain ⟨_, _, hn, _⟩ := (mem_keyings_iff hf).mp hw
  exact keyingOf_append (by omega) (column_ne_of_mem_detected hf h hd)

theorem mem_sideChains_iff (hf : f.Covered) {c : FiredChain} : c ∈ sideChains f s ↔
    ∃ x a keys keyed, SideKeys f s x a keys keyed ∧
      ∃ d ∈ detected keyed s (.only x) .fire, 1 ≤ d.field.simulate.2.chains ∧
        c = ⟨d.field.simulate.1, d.field.simulate.2,
          ⟨keys.entries ++ d.additions.entries⟩⟩ := by
  have hfired : ∀ {x a keys keyed}, SideKeys f s x a keys keyed →
      (c ∈ firedFrom keyed keys s (.only x) ↔ _) := fun h =>
    mem_firedFrom_iff hf (column_of_mem_sideKeys h) h.stackAll
  rw [sideChains_eq hf, List.mem_flatMap]
  constructor
  · rintro ⟨⟨x, a, n⟩, hw, hc⟩
    have h := sideKeys_dropOf hf hw
    exact ⟨x, a, _, _, h, (hfired h).mp hc⟩
  · rintro ⟨x, a, keys, keyed, h, hc⟩
    obtain ⟨n, hw, e⟩ := (sideKeys_iff hf).mp h
    obtain ⟨rfl, rfl⟩ := Candidate.mk.inj e
    exact ⟨(x, a, n), hw, (hfired h).mpr hc⟩

/-- **Side chains are keys on one column and a trigger beside it.**  On every field that operations
build and with every strategy, the chains shown, to whatever visitor, are those that follow one or
two quiet keys of a color on a column that has it and a trigger that a detection for firing shows
beside that column; the keys come first in their additions.  No trigger is empty or has a puyo on
the column of the keys, so the additions tell keys and trigger apart, and none are shown twice. -/
theorem visitSideChains_shows_splits (hf : f.Built) (s : Strategy) :
    (∀ {σ : Type} (visit : Visitor σ FiredChain) (state : σ),
      visitSideChains f s visit state = each visit (gather (visitSideChains f s)) state) ∧
    (∀ c, c ∈ gather (visitSideChains f s) ↔
      ∃ x a keys keyed, SideKeys f s x a keys keyed ∧
        ∃ d ∈ detected keyed s (.only x) .fire, 1 ≤ d.field.simulate.2.chains ∧
          c = ⟨d.field.simulate.1, d.field.simulate.2,
            ⟨keys.entries ++ d.additions.entries⟩⟩) ∧
    (∀ x a keys keyed, SideKeys f s x a keys keyed →
      ∀ d ∈ detected keyed s (.only x) .fire,
        d.additions.entries ≠ [] ∧ ∀ e ∈ d.additions.entries, e.x ≠ x) ∧
    (∀ x a keys keyed, SideKeys f s x a keys keyed →
      ∀ x' a' keys' keyed', SideKeys f s x' a' keys' keyed' →
        ∀ d ∈ detected keyed s (.only x) .fire, ∀ d' ∈ detected keyed' s (.only x') .fire,
          keys.entries ++ d.additions.entries = keys'.entries ++ d'.additions.entries →
            x = x' ∧ a = a' ∧ keys = keys' ∧ keyed = keyed' ∧ d = d') ∧
    ((gather (visitSideChains f s)).map FiredChain.additions).Nodup := by
  have hcov := hf.covered
  have hgather : gather (visitSideChains f s) = sideChains f s :=
    gather_eq fun visit state => visitSideChains_eq_each visit f s state
  rw [hgather]
  refine ⟨fun visit state => visitSideChains_eq_each visit f s state,
    fun c => mem_sideChains_iff hcov, fun x a keys keyed h d hd => ?_,
    fun x a keys keyed h x' a' keys' keyed' h' d hd d' hd' e => ?_,
    nodup_additions_sideChains hcov s⟩
  · exact ⟨(sound_of_mem_detected (covered_of_sideKeys hcov h) hd).nonempty,
      column_ne_of_mem_detected hcov h hd⟩
  · obtain ⟨n, hn, hw⟩ := keyingOf_sideKeys hcov h hd
    obtain ⟨n', hn', hw'⟩ := keyingOf_sideKeys hcov h' hd'
    have hsame : (x, a, n) = (x', a', n') := by
      rw [e, hw'] at hw
      exact (Option.some.inj hw).symm
    simp only [Prod.mk.injEq] at hsame
    obtain ⟨rfl, rfl, rfl⟩ := hsame
    obtain ⟨rfl, rfl⟩ := Candidate.mk.inj (hn.symm.trans hn')
    exact ⟨rfl, rfl, rfl, rfl, eq_of_mem_detected hcov h hd hd' (List.append_cancel_left e)⟩

/-- a third red puyo as a key, and a fourth one beside it -/
theorem visitSideChains_shows_splits_redPillar :
    redPillar.Built ∧
      SideKeys redPillar .dropPreset 2 .red ⟨[⟨2, .red⟩]⟩ (redPillar.place 2 .red) ∧
      ∃ d ∈ detected (redPillar.place 2 .red) .dropPreset (.only 2) .fire,
        d.additions.entries = [⟨1, .red⟩] ∧
        (d.additions.entries ≠ [] ∧ ∀ e ∈ d.additions.entries, e.x ≠ 2) ∧
        ∃ c ∈ gather (visitSideChains redPillar .dropPreset),
          c.additions.entries = [⟨2, .red⟩, ⟨1, .red⟩] := by
  have hf : redPillar.Built := ⟨Field.empty, Or.inl rfl, _, rfl⟩
  have hkeys : SideKeys redPillar .dropPreset 2 .red ⟨[⟨2, .red⟩]⟩ (redPillar.place 2 .red) :=
    ⟨by decide, rfl, ⟨1, by decide, by decide +kernel⟩, Or.inl rfl, by decide +kernel,
      by decide +kernel, by decide +kernel⟩
  have hfound : [⟨1, .red⟩] ∈ ((detected (redPillar.place 2 .red) .dropPreset (.only 2)
      .fire).filter fun d => 1 ≤ d.field.simulate.2.chains).map fun d => d.additions.entries := by
    decide +kernel
  obtain ⟨d, hd, e⟩ := List.mem_map.mp hfound
  obtain ⟨hd, hpos⟩ := List.mem_filter.mp hd
  obtain ⟨_, hmem, hbeside, _⟩ := visitSideChains_shows_splits hf .dropPreset
  refine ⟨hf, hkeys, d, hd, e, hbeside _ _ _ _ hkeys d hd, _,
    (hmem _).mpr ⟨_, _, _, _, hkeys, d, hd, decide_eq_true_iff.mp hpos, rfl⟩, ?_⟩
  rw [e]
  rfl

end PuyoChain
