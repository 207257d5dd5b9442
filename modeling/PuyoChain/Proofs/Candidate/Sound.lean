import PuyoChain.Proofs.Candidate.Growing
import PuyoChain.Proofs.Field.Firing
import PuyoChain.Proofs.Field.Operations

/-!
# What a detection shows is sound

* `Complements`       additions that lead from one field to another, in columns that are allowed and
                      not above a ceiling;
* `Affords`           additions in one color, beside garbage, that leave a budget;
* `Candidate.Sound`   what every candidate of a strategy must be;
* `Field.FloatsBeside`   a puyo and a lower column beside it, where a run may be put
                      (`mem_floatSeeds_iff`).

In all three modes a candidate comes about by runs of one color on single columns, and a run keeps
`Complements` and `Affords` (`Complements.run`, `Affords.run`); the last run makes it sound
(`sound_run`).
-/

namespace PuyoChain

/-- additions that lead from the field `f` to the field `g`, in allowed columns and up to a ceiling -/
structure Complements (f : Field) (ceiling : Nat) (prohibited : ColumnMask) (l : Additions)
    (g : Field) : Prop where
  fits : f.Fits l.entries
  field : g = f.placeAll l.entries
  allowed : ∀ e ∈ l.entries, prohibited.contains e.x = false
  low : ∀ q ∈ f.landings l.entries, q.y ≤ ceiling

/-- additions of one color, beside garbage where a strategy has it, that leave a budget of puyos -/
structure Affords (s : Strategy) (a : Color) (budget : Nat) (l : Additions) : Prop where
  color : ∀ e ∈ l.entries, e.color ≠ .garbage → e.color = a
  count : (l.entries.countP fun e => e.color != .garbage) + budget ≤ s.maxPuyos
  garbage : ∀ e ∈ l.entries, e.color = .garbage → s.mode = .float ∧ s.allowsGarbage = true

/-- what a candidate of a strategy must be -/
structure Candidate.Sound (f : Field) (s : Strategy) (prohibited : ColumnMask) (purpose : Purpose)
    (c : Candidate) : Prop where
  nonempty : c.additions.entries ≠ []
  /-- the additions stack, and the field of the candidate is what they make of `f` -/
  stackAll : f.stackAll? c.additions = some c.field
  allowed : ∀ e ∈ c.additions.entries, (1 ≤ e.x ∧ e.x ≤ 6) ∧ prohibited.contains e.x = false
  low : ∀ q ∈ f.landings c.additions.entries, q.y ≤ min s.maxHeight 12
  color : ∃ a, a.isNormal = true ∧ ∀ e ∈ c.additions.entries, e.color ≠ .garbage → e.color = a
  count : (c.additions.entries.countP fun e => e.color != .garbage) ≤ s.maxPuyos
  garbage : ∀ e ∈ c.additions.entries, e.color = .garbage →
    s.mode = .float ∧ s.allowsGarbage = true
  /-- a candidate for firing has an added puyo in a vanishing group -/
  fires : purpose = .fire → c.field.fires = true ∧ ∃ q ∈ f.landings c.additions.entries,
    (c.field.colorAt q).isNormal = true ∧ 4 ≤ c.field.groupSize q

variable {f g : Field} {s : Strategy} {prohibited : ColumnMask} {purpose : Purpose} {a : Color}
  {l m : Additions} {x n : Nat}

/-- no addition of a sound candidate is an empty cell -/
theorem Candidate.Sound.solid {c : Candidate} (h : c.Sound f s prohibited purpose) :
    ∀ e ∈ c.additions.entries, (1 ≤ e.x ∧ e.x ≤ 6) ∧ e.color ≠ .empty := by
  intro e he
  refine ⟨(h.allowed e he).1, ?_⟩
  obtain ⟨a, ha, hcolor⟩ := h.color
  by_cases hg : e.color = .garbage
  · rw [hg]
    decide
  · rw [hcolor e he hg]
    exact Color.ne_of_isNormal ha rfl

/-! ## runs -/

theorem complements_empty (f : Field) (ceiling : Nat) (prohibited : ColumnMask) :
    Complements f ceiling prohibited .empty f where
  fits := f.fits_nil
  field := rfl
  allowed := fun _ he => absurd he List.not_mem_nil
  low := fun _ hq => absurd hq List.not_mem_nil

theorem Complements.run {ceiling : Nat} (h : Complements f ceiling prohibited l g)
    (hm : l.addCopies x a n = some m) (hx : prohibited.contains x = false)
    (hroom : g.height x + n ≤ ceiling) (hc : ceiling ≤ 12) :
    Complements f ceiling prohibited m (g.placeAll (List.replicate n ⟨x, a⟩)) := by
  obtain ⟨hfits, rfl, hallowed, hlow⟩ := h
  have hcol := Additions.column_of_addCopies hm
  have hrun := Field.fits_run (f := f.placeAll l.entries) hcol a (n := n) (by omega)
  refine ⟨?_, ?_, fun e he => ?_, fun q hq => ?_⟩
  · rw [Additions.entries_addCopies hm]
    exact hfits.append hrun
  · rw [Additions.entries_addCopies hm, Field.placeAll_append]
  · rw [Additions.entries_addCopies hm, List.mem_append] at he
    rcases he with he | he
    · exact hallowed e he
    · rw [List.eq_of_mem_replicate he]
      exact hx
  · rw [Additions.entries_addCopies hm, Field.landings_append, List.mem_append] at hq
    rcases hq with hq | hq
    · exact hlow q hq
    · obtain ⟨_, _, hle⟩ := (Field.mem_landings_run hcol a n q).mp hq
      omega

theorem affords_empty (s : Strategy) (a : Color) : Affords s a s.maxPuyos .empty where
  color := fun _ he => absurd he List.not_mem_nil
  count := Nat.le_of_eq (Nat.zero_add _)
  garbage := fun _ he => absurd he List.not_mem_nil

theorem forall_mem_addCopies {P : Addition → Prop} (hm : l.addCopies x a n = some m)
    (hl : ∀ e ∈ l.entries, P e) (hr : 0 < n → P ⟨x, a⟩) : ∀ e ∈ m.entries, P e := by
  intro e he
  rw [Additions.entries_addCopies hm, List.mem_append, List.mem_replicate] at he
  rcases he with he | ⟨hn, rfl⟩
  · exact hl e he
  · exact hr (Nat.pos_of_ne_zero hn)

theorem Affords.run {budget : Nat} (h : Affords s a budget l) (ha : a.isNormal = true)
    (hn : n ≤ budget) (hm : l.addCopies x a n = some m) : Affords s a (budget - n) m where
  color := forall_mem_addCopies hm h.color fun _ _ => rfl
  count := by
    have hcount := h.count
    rw [Additions.entries_addCopies hm, List.countP_append, List.countP_replicate,
      if_pos (bne_iff_ne.mpr (Color.ne_of_isNormal ha rfl))]
    omega
  garbage := forall_mem_addCopies hm h.garbage fun _ e => absurd e (Color.ne_of_isNormal ha rfl)

/-- garbage costs nothing where the strategy has it -/
theorem Affords.props {budget : Nat} (h : Affords s a budget l)
    (hg : 0 < n → s.mode = .float ∧ s.allowsGarbage = true)
    (hm : l.addCopies x .garbage n = some m) : Affords s a budget m where
  color := forall_mem_addCopies hm h.color fun _ hne => absurd rfl hne
  count := by
    have hcount := h.count
    rw [Additions.entries_addCopies hm, List.countP_append, List.countP_replicate,
      if_neg (bne_iff_ne.not.mpr (not_not.mpr rfl))]
    exact hcount
  garbage := forall_mem_addCopies hm h.garbage fun hn _ => hg hn

variable (purpose) in
/-- a run on top of sound additions makes a candidate, sound for firing if the top of the run is in a
vanishing group -/
theorem sound_run {budget : Nat} (hf : f.Covered) (ha : a.isNormal = true)
    (hg : Complements f s.ceiling prohibited l g) (hl : Affords s a budget l) (hn : 0 < n)
    (hb : n ≤ budget) (hm : l.addCopies x a n = some m) (hx : prohibited.contains x = false)
    (hroom : g.height x + n ≤ s.ceiling)
    (hfire : purpose = .fire →
      4 ≤ (g.placeAll (List.replicate n ⟨x, a⟩)).groupSize ⟨x, g.height x + n⟩) :
    Candidate.Sound f s prohibited purpose ⟨g.placeAll (List.replicate n ⟨x, a⟩), m⟩ := by
  have hcol := Additions.column_of_addCopies hm
  have hle := s.ceiling_le
  have hc := hg.run hm hx hroom hle
  have haf := hl.run ha hb hm
  refine ⟨?_, ?_, fun e he => ⟨hc.fits.column e he, hc.allowed e he⟩, hc.low,
    ⟨a, ha, haf.color⟩, Nat.le_trans (Nat.le_add_right _ _) haf.count, haf.garbage, fun hp => ?_⟩
  · rw [Additions.entries_addCopies hm]
    refine List.append_ne_nil_of_right_ne_nil _ fun e => ?_
    rw [List.replicate_eq_nil_iff] at e
    omega
  · rw [hc.field]
    exact Field.stackAll?_of_fits hf hc.fits
  · have hcov : (g.placeAll (List.replicate n ⟨x, a⟩)).Covered := by
      rw [hc.field]
      exact hf.placeAll hc.fits
    have htop : (g.placeAll (List.replicate n ⟨x, a⟩)).color x (g.height x + n) = a := by
      rw [Field.color_run hcol a (by omega), if_pos (by omega)]
    have hnormal : ((g.placeAll (List.replicate n ⟨x, a⟩)).colorAt ⟨x, g.height x + n⟩).isNormal =
        true := by
      rw [Field.colorAt, htop]
      exact ha
    refine ⟨(Field.fires_iff hcov).mpr ⟨_, hnormal, hfire hp⟩, _, ?_, hnormal, hfire hp⟩
    show _ ∈ f.landings m.entries
    rw [Additions.entries_addCopies hm, Field.landings_append, List.mem_append, ← hg.field,
      Field.mem_landings_run hcol]
    exact Or.inr ⟨rfl, by dsimp only; omega, Nat.le_refl _⟩

/-! ## the three modes -/

theorem mem_dropSeeds_iff : (x, a) ∈ dropSeeds prohibited ↔
    (1 ≤ x ∧ x ≤ 6) ∧ prohibited.contains x = false ∧ a.isNormal = true := by
  unfold dropSeeds
  simp only [List.mem_flatMap, List.mem_filter, List.mem_map, mem_fieldColumns_iff,
    Color.mem_normals_iff, Bool.not_eq_true', Prod.mk.injEq]
  constructor
  · rintro ⟨z, ⟨hz, hm⟩, b, hb, rfl, rfl⟩
    exact ⟨hz, hm, hb⟩
  · rintro ⟨hx, hm, ha⟩
    exact ⟨x, ⟨hx, hm⟩, a, ha, rfl, rfl⟩

theorem sound_of_mem_dropRun {budget : Nat} (hf : f.Covered) (ha : a.isNormal = true)
    (hx : prohibited.contains x = false) (hg : Complements f s.ceiling prohibited l g)
    (hl : Affords s a budget l) {c : Candidate}
    (h : c ∈ dropRun purpose s.ceiling x a budget g l) :
    Candidate.Sound f s prohibited purpose c := by
  induction budget generalizing g l with
  | zero => cases h
  | succ budget ih =>
    unfold dropRun at h
    by_cases hc : s.ceiling ≤ g.height x
    · rw [if_pos hc] at h
      cases h
    · rw [if_neg hc] at h
      split at h
      · rename_i g' m hs hm
        obtain ⟨_, rfl⟩ := (Field.stack?_eq_some_iff g g' x a).mp hs
        have hh := Field.height_place g (Additions.column_of_addCopies hm) a x
        rw [if_pos rfl] at hh
        have hrun := sound_run purpose hf ha hg hl Nat.one_pos (by omega) hm hx
          (by omega)
        split at h
        · rename_i hv
          rw [Field.inVanishing_iff] at hv
          obtain rfl := List.mem_singleton.mp h
          exact hrun fun _ => hh ▸ hv
        · rw [List.mem_append, mem_shown_iff] at h
          rcases h with ⟨hkey, rfl⟩ | h
          · exact hrun fun hfire => absurd (hkey.symm.trans hfire) (by decide)
          · exact ih (hg.run hm hx (by omega) s.ceiling_le) (hl.run ha (by omega) hm) h
      · cases h

theorem sound_of_mem_grow {fuel budget : Nat} {group : List Cell} (hf : f.Covered)
    (ha : a.isNormal = true) (hg : Complements f s.ceiling prohibited l g)
    (hl : Affords s a budget l) {c : Candidate}
    (h : c ∈ grow ⟨s.ceiling, prohibited, purpose⟩ a fuel g group budget l) :
    Candidate.Sound f s prohibited purpose c := by
  induction fuel generalizing g group budget l with
  | zero => cases h
  | succ fuel ih =>
    have hle := s.ceiling_le
    obtain ⟨p, hp, hlt, hb, m, hm, hcases⟩ := (mem_grow_succ_iff hle).mp h
    obtain ⟨_, _, hy, hx, _⟩ := (mem_growthCells_iff _ g group p).mp hp
    have htop : g.height p.x + (p.y - g.height p.x) = p.y := by omega
    have hroom : g.height p.x + (p.y - g.height p.x) ≤ s.ceiling := by
      rw [htop]
      exact hy.2
    have hrun := sound_run purpose hf ha hg hl (by omega) hb hm hx hroom
    rw [htop] at hrun
    rcases hcases with ⟨h4, rfl⟩ | ⟨_, ⟨hkey, rfl⟩ | h⟩
    · exact hrun fun _ => h4
    · exact hrun fun hfire => absurd (hkey.symm.trans hfire) (by decide)
    · exact ih (hg.run hm hx hroom hle) (hl.run ha hb hm) h

/-- a puyo of a normal color, and an allowed column beside it that ends below it -/
structure Field.FloatsBeside (f : Field) (s : Strategy) (prohibited : ColumnMask) (p : Cell)
    (x : Nat) : Prop where
  normal : (f.colorAt p).isNormal = true
  low : p.y ≤ s.ceiling
  beside : p.x = x + 1 ∨ x = p.x + 1
  column : 1 ≤ x ∧ x ≤ 6
  allowed : prohibited.contains x = false
  above : f.height x < p.y

/-- what a puyo and a column beside it give the search to start from -/
def floatSeedOf (f : Field) (p : Cell) (x : Nat) : FloatSeed := ⟨p.y, f.colorAt p, x, f.height x⟩

theorem mem_floatSeeds_iff (hf : f.Covered) {seed : FloatSeed} :
    seed ∈ floatSeeds f s prohibited ↔
      ∃ p x, f.FloatsBeside s prohibited p x ∧ seed = floatSeedOf f p x := by
  have hat : ∀ p, seed ∈ floatSeedsAt f prohibited p ↔ (f.colorAt p).isNormal = true ∧
      ∃ x, (x = p.x - 1 ∨ x = p.x + 1) ∧ ((1 ≤ x ∧ x ≤ 6) ∧ prohibited.contains x = false ∧
        f.height x < p.y) ∧ floatSeedOf f p x = seed := by
    intro p
    unfold floatSeedsAt
    by_cases hn : (f.colorAt p).isNormal = true
    · rw [if_pos hn, and_iff_right hn]
      simp only [List.mem_map, List.mem_filter, List.mem_cons, List.not_mem_nil, or_false,
        Bool.and_eq_true, decide_eq_true_eq, Bool.not_eq_true', and_assoc]
      rfl
    · rw [if_neg hn]
      exact iff_of_false List.not_mem_nil fun h => hn h.1
  unfold floatSeeds
  simp only [List.mem_flatMap, mem_fieldColumns_iff, Field.mem_columnCells_iff, hat]
  constructor
  · rintro ⟨p, ⟨z, hz, rfl, h1, _, hlow⟩, hn, x, hbeside, ⟨hx, hm, habove⟩, rfl⟩
    exact ⟨p, x, ⟨hn, hlow, by omega, hx, hm, habove⟩, rfl⟩
  · rintro ⟨p, x, ⟨hn, hlow, hbeside, hx, hm, habove⟩, rfl⟩
    have hin := Field.inField_of_color_ne_wall (f := f) (p := p) (Color.ne_of_isNormal hn rfl)
    rw [Cell.inField_iff] at hin
    have htop := hf.le_height hin.1 hin.2.2 (Color.ne_of_isNormal hn rfl)
    exact ⟨p, ⟨p.x, hin.1, rfl, hin.2.1, htop, hlow⟩, hn, x, by omega, ⟨hx, hm, habove⟩, rfl⟩

theorem of_mem_floatSeeds (hf : f.Covered) {seed : FloatSeed}
    (h : seed ∈ floatSeeds f s prohibited) :
    seed.y ≤ s.ceiling ∧ seed.color.isNormal = true ∧ (1 ≤ seed.x ∧ seed.x ≤ 6) ∧
      prohibited.contains seed.x = false ∧ seed.height = f.height seed.x ∧ seed.height < seed.y := by
  obtain ⟨p, x, hbeside, rfl⟩ := (mem_floatSeeds_iff hf).mp h
  exact ⟨hbeside.low, hbeside.normal, hbeside.column, hbeside.allowed, rfl, hbeside.above⟩

theorem floatCandidate?_eq_some {seed : FloatSeed} {k : Nat} {c : Candidate}
    (h : floatCandidate? f seed k = some c) :
    ∃ l, Additions.empty.addCopies seed.x .garbage (seed.y - k - seed.height) = some l ∧
      l.addCopies seed.x seed.color k = some c.additions ∧
      f.stackAll? c.additions = some c.field := by
  unfold floatCandidate? floatAdditions? at h
  obtain ⟨m, hm, h⟩ := Option.bind_eq_some_iff.mp h
  obtain ⟨l, hl, hm⟩ := Option.bind_eq_some_iff.mp hm
  obtain ⟨g, hg, rfl⟩ := Option.map_eq_some_iff.mp h
  exact ⟨l, hl, hm, hg⟩

/-- a candidate for floating: garbage that ends `k` rows below the row of the seed, and a run upon it -/
theorem exists_garbage_of_floatCandidate? {seed : FloatSeed} {k : Nat} (hf : f.Covered)
    (hseed : seed ∈ floatSeeds f s prohibited) (hk : 0 < k ∧ k ≤ seed.y - seed.height)
    {c : Candidate} (h : floatCandidate? f seed k = some c) :
    ∃ l g, Additions.empty.addCopies seed.x .garbage (seed.y - k - seed.height) = some l ∧
      l.addCopies seed.x seed.color k = some c.additions ∧
      g = f.placeAll (List.replicate (seed.y - k - seed.height) ⟨seed.x, .garbage⟩) ∧
      g.height seed.x + k = seed.y ∧ c.field = g.placeAll (List.replicate k ⟨seed.x, seed.color⟩) ∧
      Complements f s.ceiling prohibited l g ∧
      Complements f s.ceiling prohibited c.additions c.field := by
  obtain ⟨hy, _, hcol, hx, hh, hlt⟩ := of_mem_floatSeeds hf hseed
  obtain ⟨l, hl, hm, hst⟩ := floatCandidate?_eq_some h
  have hle := s.ceiling_le
  have hprops := (complements_empty f s.ceiling prohibited).run hl hx (by omega) hle
  have hrow : (f.placeAll (List.replicate (seed.y - k - seed.height)
      ⟨seed.x, .garbage⟩)).height seed.x + k = seed.y := by
    rw [Field.height_run hcol, if_pos rfl]
    omega
  have hfull := hprops.run hm hx (by omega) hle
  rw [Field.stackAll?_of_fits hf hfull.fits, ← hfull.field, Option.some.injEq] at hst
  rw [hst] at hfull
  exact ⟨l, _, hl, hm, rfl, hrow, hst.symm, hprops, hfull⟩

variable (purpose) in
/-- the run of a candidate for floating ends in the row of its seed -/
theorem sound_of_floatCandidate? {seed : FloatSeed} {k : Nat} (hs : s.mode = .float)
    (hf : f.Covered) (hseed : seed ∈ floatSeeds f s prohibited)
    (hk : 0 < k ∧ k ≤ s.maxPuyos ∧ k ≤ seed.y - seed.height)
    (hprops : 0 < seed.y - k - seed.height → s.allowsGarbage = true) {c : Candidate}
    (h : floatCandidate? f seed k = some c)
    (hfire : purpose = .fire → 4 ≤ c.field.groupSize ⟨seed.x, seed.y⟩) :
    Candidate.Sound f s prohibited purpose c := by
  obtain ⟨hy, ha, _, hx, _, _⟩ := of_mem_floatSeeds hf hseed
  obtain ⟨l, g, hl, hm, _, hrow, hfield, hc, _⟩ :=
    exists_garbage_of_floatCandidate? hf hseed ⟨hk.1, hk.2.2⟩ h
  have haf := (affords_empty s seed.color).props (fun hn => ⟨hs, hprops hn⟩) hl
  have hrun := sound_run purpose hf ha hc haf hk.1 hk.2.1 hm hx (by omega)
  rw [hrow, ← hfield] at hrun
  exact hrun hfire

theorem sound_of_mem_floatRun {seed : FloatSeed} (hs : s.mode = .float) (hf : f.Covered)
    (hseed : seed ∈ floatSeeds f s prohibited) {ks : List Nat}
    (hks : ∀ k ∈ ks, 0 < k ∧ k ≤ s.maxPuyos ∧ k ≤ seed.y - seed.height) {c : Candidate}
    (h : c ∈ floatRun f s purpose seed ks) : Candidate.Sound f s prohibited purpose c := by
  induction ks with
  | nil => cases h
  | cons k ks ih =>
    obtain ⟨hk, hks⟩ := List.forall_mem_cons.mp hks
    unfold floatRun at h
    split at h
    · exact ih hks h
    · rename_i hskip
      have hprops : 0 < seed.y - k - seed.height → s.allowsGarbage = true := by
        intro hn
        simpa [hn] using hskip
      split at h
      · cases h
      · rename_i d hd
        have hsound := sound_of_floatCandidate? purpose hs hf hseed hk hprops hd
        split at h
        · rename_i hv
          obtain rfl := List.mem_singleton.mp h
          exact hsound fun _ => (Field.inVanishing_iff _ _).mp hv
        · rw [List.mem_append, mem_shown_iff] at h
          rcases h with ⟨hkey, rfl⟩ | h
          · exact hsound fun hfire => absurd (hkey.symm.trans hfire) (by decide)
          · exact ih hks h

theorem sound_of_mem_candidates (hf : f.Covered) {c : Candidate}
    (h : c ∈ candidates f s prohibited purpose) : Candidate.Sound f s prohibited purpose c := by
  unfold candidates at h
  cases hs : s.mode with
  | drop =>
    rw [hs] at h
    obtain ⟨⟨x, a⟩, hseed, h⟩ := List.mem_flatMap.mp h
    obtain ⟨_, hx, ha⟩ := mem_dropSeeds_iff.mp hseed
    exact sound_of_mem_dropRun hf ha hx (complements_empty f s.ceiling prohibited)
      (affords_empty s a) h
  | float =>
    rw [hs] at h
    obtain ⟨seed, hseed, h⟩ := List.mem_flatMap.mp h
    refine sound_of_mem_floatRun hs hf hseed (fun k hk => ?_) h
    rw [mem_rowsUpTo_iff] at hk
    omega
  | extend =>
    rw [hs] at h
    obtain ⟨group, hseed, h⟩ := List.mem_flatMap.mp h
    obtain ⟨p, _, hn, rfl⟩ := Field.mem_groupsFrom (List.mem_filter.mp hseed).1
    exact sound_of_mem_grow hf hn (complements_empty f s.ceiling prohibited)
      (affords_empty s _) h

theorem sound_of_mem_detected (hf : f.Covered) {c : Candidate}
    (h : c ∈ detected f s prohibited purpose) : c.Sound f s prohibited purpose :=
  sound_of_mem_candidates hf (mem_candidates_of_mem_detected h)

/-- **What a detection shows is sound.**  On every field that operations build, in every mode and
within any limits, a detection shows its candidates one after the other to whatever visitor it has,
until that stops it; each of them is sound, and no two of them are of one field. -/
theorem detect_shows_sound (hf : f.Built) (s : Strategy) (prohibited : ColumnMask)
    (purpose : Purpose) :
    (∀ {σ : Type} (visit : Visitor σ Candidate) (state : σ),
      detect f s prohibited purpose visit state =
        each visit (detected f s prohibited purpose) state) ∧
    (∀ c ∈ detected f s prohibited purpose, c.Sound f s prohibited purpose) ∧
    (detected f s prohibited purpose).Pairwise fun c d => c.field ≠ d.field := by
  refine ⟨detect_eq_each_detected f s prohibited purpose, fun c hc => ?_, ?_⟩
  · exact sound_of_mem_candidates hf.covered (mem_candidates_of_mem_detected hc)
  · exact (pairwise_detected f s prohibited purpose).imp fun hne e => hne (by rw [e])

/-- three red puyos on column 2 -/
def redTower : Field := Field.empty.run (List.replicate 3 (.stack 2 .red))

/-- a fourth red puyo beside the middle one, on a garbage puyo -/
theorem detect_shows_sound_redTower :
    redTower.Built ∧ (∃ c ∈ detected redTower .floatPreset .empty .fire,
      c.additions.entries = [⟨1, .garbage⟩, ⟨1, .red⟩] ∧
        c.Sound redTower .floatPreset .empty .fire) := by
  have hf : redTower.Built := ⟨Field.empty, Or.inl rfl, _, rfl⟩
  have hmem : ⟨[⟨1, .garbage⟩, ⟨1, .red⟩]⟩ ∈
      (detected redTower .floatPreset .empty .fire).map Candidate.additions := by decide +kernel
  obtain ⟨c, hc, e⟩ := List.mem_map.mp hmem
  obtain ⟨_, hsound, _⟩ := detect_shows_sound hf .floatPreset .empty .fire
  exact ⟨hf, c, hc, by rw [e], hsound c hc⟩

end PuyoChain
