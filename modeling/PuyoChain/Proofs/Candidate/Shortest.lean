import Mathlib.Order.Bounds.Defs
import PuyoChain.Proofs.Candidate.Sound

/-!
# A detection shows the shortest run that fires

* `Field.VanishesAt`     with additions stacked, a cell is in a vanishing group;
* `firstRun`             the candidate with the first length of a list that fires;
* `dropRun_eq_firstRun`, `floatRun_eq_firstRun`   what a run shows for firing, in these terms;
* `Field.firingDrops`    the numbers of puyos that fire on top of a column;
* `Field.firingRuns`     the lengths of the runs beside a puyo that are allowed and fire;
* `mem_candidates_drop_iff`, `mem_candidates_float_iff`   the candidates for firing are those with the
                         least number and the least length.
-/

namespace PuyoChain

variable {f : Field} {s : Strategy} {prohibited : ColumnMask} {a : Color} {x : Nat}

/-! ## the first length that fires -/

/-- with the additions of a list stacked, a cell is in a group of four or more -/
def Field.VanishesAt (f : Field) (l : Additions) (p : Cell) : Prop :=
  ∃ g, f.stackAll? l = some g ∧ 4 ≤ g.groupSize p

instance (f : Field) (l : Additions) (p : Cell) : Decidable (f.VanishesAt l p) :=
  inferInstanceAs (Decidable (∃ g ∈ f.stackAll? l, 4 ≤ g.groupSize p))

theorem Field.vanishesAt_iff {g : Field} {l : Additions} (h : f.stackAll? l = some g) (p : Cell) :
    f.VanishesAt l p ↔ g.inVanishing p = true := by
  rw [VanishesAt, h, Field.inVanishing_iff]
  simp

/-- the candidate with the first length of a list that passes a test -/
def firstRun (test : Nat → Bool) (candidate : Nat → Candidate) (lengths : List Nat) :
    List Candidate :=
  ((lengths.find? test).map candidate).toList

theorem firstRun_cons (test : Nat → Bool) (candidate : Nat → Candidate) (k : Nat) (ks : List Nat) :
    firstRun test candidate (k :: ks) =
      if test k = true then [candidate k] else firstRun test candidate ks := by
  unfold firstRun
  by_cases h : test k = true
  · rw [if_pos h, List.find?_cons_of_pos h]
    rfl
  · rw [if_neg h, List.find?_cons_of_neg h]

theorem rowsUpTo_eq_range' (n : Nat) : rowsUpTo n = List.range' 1 n := by
  rw [rowsUpTo, List.range'_eq_map_range]
  exact List.map_congr_left fun i _ => Nat.add_comm i 1

/-- a length passes first if it is the least that passes -/
theorem mem_firstRun_rowsUpTo_iff {test : Nat → Bool} {candidate : Nat → Candidate} {n : Nat}
    {c : Candidate} : c ∈ firstRun test candidate (rowsUpTo n) ↔
      ∃ k, IsLeast {k | (1 ≤ k ∧ k ≤ n) ∧ test k = true} k ∧ c = candidate k := by
  rw [firstRun, Option.mem_toList, Option.map_eq_some_iff, rowsUpTo_eq_range']
  refine exists_congr fun k => and_congr ?_ eq_comm
  rw [List.find?_range'_eq_some, List.mem_range'_1]
  constructor
  · intro ⟨hk, hin, hfirst⟩
    refine ⟨⟨by omega, hk⟩, fun j hj => ?_⟩
    by_contra hlt
    have hno := hfirst j hj.1.1 (by omega)
    rw [hj.2] at hno
    cases hno
  · intro ⟨⟨hin, hk⟩, hleast⟩
    refine ⟨hk, by omega, fun j hj hlt => ?_⟩
    rw [Bool.not_eq_true']
    by_contra hyes
    have hle : k ≤ j := hleast ⟨⟨hj, by omega⟩, by simpa using hyes⟩
    omega

/-! ## dropping -/

/-- the candidate with `n` puyos of a color on top of a column -/
def dropOf (f : Field) (x : Nat) (a : Color) (n : Nat) : Candidate :=
  ⟨f.placeAll (List.replicate n ⟨x, a⟩), ⟨List.replicate n ⟨x, a⟩⟩⟩

/-- the `n` puyos of a color on top of a column put the topmost of them in a vanishing group -/
def Field.DropFires (f : Field) (x : Nat) (a : Color) (n : Nat) : Prop :=
  f.VanishesAt ⟨List.replicate n ⟨x, a⟩⟩ ⟨x, f.height x + n⟩

instance (f : Field) (x : Nat) (a : Color) (n : Nat) : Decidable (f.DropFires x a n) :=
  inferInstanceAs (Decidable (f.VanishesAt _ _))

section
variable (hx : 1 ≤ x ∧ x ≤ 6) (a : Color)
include hx

theorem stackAll?_dropOf (hf : f.Covered) {n : Nat} (h : f.height x + n ≤ 14) :
    f.stackAll? (dropOf f x a n).additions = some (dropOf f x a n).field :=
  Field.stackAll?_of_fits hf (Field.fits_run hx a h)

theorem height_dropOf (f : Field) (n : Nat) :
    (dropOf f x a n).field.height x = f.height x + n := by
  rw [dropOf, Field.height_run hx, if_pos rfl]

/-- one more puyo finds room below the top row -/
theorem stack?_dropOf (f : Field) {n : Nat} (h : f.height x + n < 14) :
    (dropOf f x a n).field.stack? x a = some (dropOf f x a (n + 1)).field := by
  have hplace : (dropOf f x a n).field.place x a = (dropOf f x a (n + 1)).field := by
    simp only [dropOf, List.replicate_succ', Field.placeAll_append]
    rfl
  rw [← hplace]
  exact if_pos ⟨hx, by rw [height_dropOf hx]; exact h⟩

theorem add_dropOf (f : Field) {n : Nat} (h : n < Additions.capacity) :
    (dropOf f x a n).additions.add x a = some (dropOf f x a (n + 1)).additions := by
  have hsize : (dropOf f x a n).additions.size = n := List.length_replicate
  rw [Additions.add, Additions.addCopies, hsize, if_pos ⟨hx, h⟩]
  simp only [dropOf, List.replicate_succ']
  rfl

theorem dropRun_eq_firstRun (hf : f.Covered) (budget i : Nat) :
    dropRun .fire s.ceiling x a budget (dropOf f x a i).field (dropOf f x a i).additions =
      firstRun (fun n => decide (f.DropFires x a n)) (dropOf f x a)
        (List.range' (i + 1) (min budget (s.ceiling - (f.height x + i)))) := by
  induction budget generalizing i with
  | zero =>
    rw [Nat.zero_min]
    rfl
  | succ budget ih =>
    rw [dropRun, height_dropOf hx]
    by_cases hc : s.ceiling ≤ f.height x + i
    · rw [if_pos hc, Nat.sub_eq_zero_of_le hc, Nat.min_zero]
      rfl
    · have hle := s.ceiling_le
      have hcapacity : i < Additions.capacity := by
        show i < 84
        omega
      have htest : (dropOf f x a (i + 1)).field.inVanishing ⟨x, f.height x + (i + 1)⟩ =
          decide (f.DropFires x a (i + 1)) := by
        rw [Bool.eq_iff_iff, decide_eq_true_iff]
        exact (Field.vanishesAt_iff (stackAll?_dropOf hx a hf (by omega)) _).symm
      have hlen : min (budget + 1) (s.ceiling - (f.height x + i)) =
          min budget (s.ceiling - (f.height x + (i + 1))) + 1 := by omega
      rw [if_neg hc, stack?_dropOf hx a f (by omega), add_dropOf hx a f hcapacity, hlen,
        List.range'_succ, firstRun_cons]
      dsimp only
      rw [height_dropOf hx, htest, ih (i + 1)]
      rfl

end

/-- the numbers of puyos of a color that fire on top of a column -/
def Field.firingDrops (f : Field) (x : Nat) (a : Color) : Set Nat := {n | 1 ≤ n ∧ f.DropFires x a n}

/-- a bound on the numbers that are tried is one on the least of them -/
theorem isLeast_bounded_iff {S : Set Nat} {n k : Nat} :
    IsLeast {m | m ≤ n ∧ m ∈ S} k ↔ IsLeast S k ∧ k ≤ n := by
  constructor
  · intro ⟨⟨hkn, hk⟩, hleast⟩
    refine ⟨⟨hk, fun m hm => ?_⟩, hkn⟩
    by_cases hmn : m ≤ n
    · exact hleast ⟨hmn, hm⟩
    · omega
  · intro ⟨⟨hk, hleast⟩, hkn⟩
    exact ⟨⟨hkn, hk⟩, fun m hm => hleast hm.2⟩

/-- dropping for firing lists the least number of puyos that fires, where it is within the limits -/
theorem mem_candidates_drop_iff (hf : f.Covered) (hs : s.mode = .drop) {c : Candidate} :
    c ∈ candidates f s prohibited .fire ↔
      ∃ x a n, ((1 ≤ x ∧ x ≤ 6) ∧ prohibited.contains x = false ∧ a.isNormal = true) ∧
        IsLeast (f.firingDrops x a) n ∧ n ≤ s.maxPuyos ∧ f.height x + n ≤ s.ceiling ∧
        c = dropOf f x a n := by
  have hrun : ∀ x a, 1 ≤ x ∧ x ≤ 6 → (c ∈ dropCandidates f s .fire (x, a) ↔
      ∃ n, IsLeast (f.firingDrops x a) n ∧ n ≤ s.maxPuyos ∧ f.height x + n ≤ s.ceiling ∧
        c = dropOf f x a n) := by
    intro x a hx
    have hall : dropCandidates f s .fire (x, a) = _ :=
      dropRun_eq_firstRun hx a hf s.maxPuyos 0
    rw [hall, ← rowsUpTo_eq_range', mem_firstRun_rowsUpTo_iff]
    have hset : {k | (1 ≤ k ∧ k ≤ min s.maxPuyos (s.ceiling - (f.height x + 0))) ∧
        decide (f.DropFires x a k) = true} =
        {k | k ≤ min s.maxPuyos (s.ceiling - f.height x) ∧ k ∈ f.firingDrops x a} := by
      refine Set.ext fun k => ?_
      show (1 ≤ k ∧ k ≤ _) ∧ _ = true ↔ k ≤ _ ∧ 1 ≤ k ∧ f.DropFires x a k
      rw [decide_eq_true_iff, Nat.add_zero]
      tauto
    rw [hset]
    refine exists_congr fun n => ?_
    rw [isLeast_bounded_iff, and_assoc]
    refine and_congr_right fun hleast => ?_
    have hpos : 1 ≤ n := hleast.1.1
    rw [← and_assoc]
    exact and_congr_left' (by omega)
  unfold candidates
  rw [hs]
  dsimp only
  rw [List.mem_flatMap]
  constructor
  · intro ⟨⟨x, a⟩, hseed, hc⟩
    obtain ⟨hx, hm, ha⟩ := mem_dropSeeds_iff.mp hseed
    obtain ⟨n, h⟩ := (hrun x a hx).mp hc
    exact ⟨x, a, n, ⟨hx, hm, ha⟩, h⟩
  · intro ⟨x, a, n, hxa, h⟩
    exact ⟨(x, a), mem_dropSeeds_iff.mpr hxa, (hrun x a hxa.1).mpr ⟨n, h⟩⟩

/-! ## floating -/

/-- the candidate with a run of `k` puyos in column `x`, of the color of the puyo in the cell `p` and
up to its row, and garbage under the run -/
def floatOf (f : Field) (p : Cell) (x k : Nat) : Candidate :=
  let l := List.replicate (p.y - k - f.height x) ⟨x, .garbage⟩ ++ List.replicate k ⟨x, f.colorAt p⟩
  ⟨f.placeAll l, ⟨l⟩⟩

/-- the run of `k` puyos needs no garbage that the strategy has not, and puts its top in a vanishing
group -/
def Field.RunFires (f : Field) (s : Strategy) (p : Cell) (x k : Nat) : Prop :=
  (0 < p.y - k - f.height x → s.allowsGarbage = true) ∧
    f.VanishesAt (floatOf f p x k).additions ⟨x, p.y⟩

instance (f : Field) (s : Strategy) (p : Cell) (x k : Nat) : Decidable (f.RunFires s p x k) :=
  inferInstanceAs (Decidable (_ ∧ _))

/-- the lengths of the runs beside a puyo that fire, of those that are allowed -/
def Field.firingRuns (f : Field) (s : Strategy) (p : Cell) (x : Nat) : Set Nat :=
  {k | (1 ≤ k ∧ k ≤ min s.maxPuyos (p.y - f.height x)) ∧ f.RunFires s p x k}

theorem stackAll?_floatOf (hf : f.Covered) {p : Cell} (h : f.FloatsBeside s prohibited p x) {k : Nat}
    (hk : 1 ≤ k ∧ k ≤ p.y - f.height x) :
    f.stackAll? (floatOf f p x k).additions = some (floatOf f p x k).field := by
  have hle := s.ceiling_le
  have hlow := h.low
  refine Field.stackAll?_of_fits hf (Field.Fits.append ?_ ?_)
  · exact Field.fits_run h.column .garbage (by omega)
  · refine Field.fits_run h.column _ ?_
    rw [Field.height_run h.column, if_pos rfl]
    omega

/-- a run that ends in the row of the puyo is always found room for -/
theorem floatCandidate?_floatSeedOf (hf : f.Covered) {p : Cell}
    (h : f.FloatsBeside s prohibited p x) {k : Nat} (hk : 1 ≤ k ∧ k ≤ p.y - f.height x) :
    floatCandidate? f (floatSeedOf f p x) k = some (floatOf f p x k) := by
  have hle := s.ceiling_le
  have hlow := h.low
  have hgarbage : Additions.empty.addCopies x .garbage (p.y - k - f.height x) =
      some ⟨List.replicate (p.y - k - f.height x) ⟨x, .garbage⟩⟩ :=
    if_pos ⟨h.column, by simp [Additions.size, Additions.empty, Additions.capacity]; omega⟩
  have hrun : (⟨List.replicate (p.y - k - f.height x) ⟨x, .garbage⟩⟩ : Additions).addCopies x
      (f.colorAt p) k = some (floatOf f p x k).additions :=
    if_pos ⟨h.column, by simp [Additions.size, Additions.capacity]; omega⟩
  unfold floatCandidate? floatAdditions? floatSeedOf
  dsimp only
  rw [hgarbage, Option.bind_some, hrun, Option.bind_some, stackAll?_floatOf hf h hk]
  rfl

theorem floatRun_eq_firstRun (hf : f.Covered) {p : Cell} (h : f.FloatsBeside s prohibited p x)
    {ks : List Nat} (hks : ∀ k ∈ ks, 1 ≤ k ∧ k ≤ p.y - f.height x) :
    floatRun f s .fire (floatSeedOf f p x) ks =
      firstRun (fun k => decide (f.RunFires s p x k)) (floatOf f p x) ks := by
  induction ks with
  | nil => rfl
  | cons k ks ih =>
    obtain ⟨hk, hks⟩ := List.forall_mem_cons.mp hks
    have htest : decide (f.RunFires s p x k) =
        (!(decide (0 < p.y - k - f.height x) && !s.allowsGarbage) &&
          (floatOf f p x k).field.inVanishing ⟨x, p.y⟩) := by
      rw [Bool.eq_iff_iff, decide_eq_true_iff, Field.RunFires,
        Field.vanishesAt_iff (stackAll?_floatOf hf h hk), Bool.and_eq_true]
      cases s.allowsGarbage <;> simp
    rw [floatRun, firstRun_cons, floatCandidate?_floatSeedOf hf h hk, ih hks, htest]
    show (if (decide (0 < p.y - k - f.height x) && !s.allowsGarbage) = true then _
      else if (floatOf f p x k).field.inVanishing ⟨x, p.y⟩ = true then _ else [] ++ _) = _
    -- a length that is passed over and one that does not fire are left out alike
    cases decide (0 < p.y - k - f.height x) && !s.allowsGarbage with
    | true => rfl
    | false => rfl

/-- floating for firing lists the least length that fires, of those that are allowed -/
theorem mem_candidates_float_iff (hf : f.Covered) (hs : s.mode = .float) {c : Candidate} :
    c ∈ candidates f s prohibited .fire ↔
      ∃ p x k, f.FloatsBeside s prohibited p x ∧ IsLeast (f.firingRuns s p x) k ∧
        c = floatOf f p x k := by
  have hrun : ∀ p x, f.FloatsBeside s prohibited p x →
      (c ∈ floatCandidates f s .fire (floatSeedOf f p x) ↔
        ∃ k, IsLeast (f.firingRuns s p x) k ∧ c = floatOf f p x k) := by
    intro p x h
    have hall : floatCandidates f s .fire (floatSeedOf f p x) = _ :=
      floatRun_eq_firstRun hf h fun k hk => by
        rw [mem_rowsUpTo_iff] at hk
        exact ⟨hk.1, Nat.le_trans hk.2 (Nat.min_le_right ..)⟩
    rw [hall, mem_firstRun_rowsUpTo_iff]
    simp only [decide_eq_true_iff]
    rfl
  unfold candidates
  rw [hs]
  dsimp only
  rw [List.mem_flatMap]
  constructor
  · rintro ⟨seed, hseed, hc⟩
    obtain ⟨p, x, h, rfl⟩ := (mem_floatSeeds_iff hf).mp hseed
    obtain ⟨k, hk⟩ := (hrun p x h).mp hc
    exact ⟨p, x, k, h, hk⟩
  · intro ⟨p, x, k, h, hk⟩
    exact ⟨floatSeedOf f p x, (mem_floatSeeds_iff hf).mpr ⟨p, x, h, rfl⟩, (hrun p x h).mpr ⟨k, hk⟩⟩

/-! ## what is shown -/

/-- **A detection for firing shows the shortest runs that fire, and misses none.**  On every field
that operations build, with any strategy and outside any columns, to any visitor.  Dropping shows
only puyos of one normal color on one allowed column, the least number that puts the topmost of them
in a vanishing group; and where that number is within the limits, a field with the hash of the
stacking is shown.  Floating shows only a run of the color of a puyo beside it, up to its row and
over garbage, of the least allowed length that puts the top of the run in a vanishing group; and for
every puyo and every column beside it that has such a length, a field with that hash is shown. -/
theorem detect_fire_shows_shortest (hf : f.Built) (s : Strategy) (prohibited : ColumnMask) :
    (∀ {σ : Type} (visit : Visitor σ Candidate) (state : σ),
      detect f s prohibited .fire visit state =
        each visit (detected f s prohibited .fire) state) ∧
    (s.mode = .drop →
      (∀ c ∈ detected f s prohibited .fire, ∃ x a n,
        ((1 ≤ x ∧ x ≤ 6) ∧ prohibited.contains x = false ∧ a.isNormal = true) ∧
        IsLeast (f.firingDrops x a) n ∧ n ≤ s.maxPuyos ∧ f.height x + n ≤ s.ceiling ∧
        c.additions.entries = List.replicate n ⟨x, a⟩ ∧ f.stackAll? c.additions = some c.field) ∧
      ∀ x a n, (1 ≤ x ∧ x ≤ 6) ∧ prohibited.contains x = false ∧ a.isNormal = true →
        IsLeast (f.firingDrops x a) n → n ≤ s.maxPuyos → f.height x + n ≤ s.ceiling →
        ∃ g, f.stackAll? ⟨List.replicate n ⟨x, a⟩⟩ = some g ∧
          ∃ c ∈ detected f s prohibited .fire, c.field.zobristHash = g.zobristHash) ∧
    (s.mode = .float →
      (∀ c ∈ detected f s prohibited .fire, ∃ p x k,
        f.FloatsBeside s prohibited p x ∧ IsLeast (f.firingRuns s p x) k ∧
        c.additions.entries = List.replicate (p.y - k - f.height x) ⟨x, .garbage⟩ ++
          List.replicate k ⟨x, f.colorAt p⟩ ∧ f.stackAll? c.additions = some c.field) ∧
      ∀ p x k, f.FloatsBeside s prohibited p x → IsLeast (f.firingRuns s p x) k →
        ∃ g, f.stackAll? ⟨List.replicate (p.y - k - f.height x) ⟨x, .garbage⟩ ++
            List.replicate k ⟨x, f.colorAt p⟩⟩ = some g ∧
          ∃ c ∈ detected f s prohibited .fire, c.field.zobristHash = g.zobristHash) := by
  have hc := hf.covered
  refine ⟨detect_eq_each_detected f s prohibited .fire, fun hs => ⟨fun c h => ?_, ?_⟩,
    fun hs => ⟨fun c h => ?_, ?_⟩⟩
  · have hstack := (sound_of_mem_detected hc h).stackAll
    obtain ⟨x, a, n, hxa, hleast, hn, hrow, rfl⟩ :=
      (mem_candidates_drop_iff hc hs).mp (mem_candidates_of_mem_detected h)
    exact ⟨x, a, n, hxa, hleast, hn, hrow, rfl, hstack⟩
  · intro x a n hxa hleast hn hrow
    have hle := s.ceiling_le
    have hmem := (mem_candidates_drop_iff hc hs).mpr ⟨x, a, n, hxa, hleast, hn, hrow, rfl⟩
    exact ⟨_, stackAll?_dropOf hxa.1 a hc (by omega), exists_mem_detected hmem⟩
  · have hstack := (sound_of_mem_detected hc h).stackAll
    obtain ⟨p, x, k, hbeside, hleast, rfl⟩ :=
      (mem_candidates_float_iff hc hs).mp (mem_candidates_of_mem_detected h)
    exact ⟨p, x, k, hbeside, hleast, rfl, hstack⟩
  · intro p x k hbeside hleast
    have hmem := (mem_candidates_float_iff hc hs).mpr ⟨p, x, k, hbeside, hleast, rfl⟩
    have hk : 1 ≤ k ∧ k ≤ p.y - f.height x :=
      ⟨hleast.1.1.1, Nat.le_trans hleast.1.1.2 (Nat.min_le_right ..)⟩
    exact ⟨_, stackAll?_floatOf hc hbeside hk, exists_mem_detected hmem⟩

/-- runs of up to three puyos that nothing props up -/
def bareRuns : Strategy := ⟨.float, 3, 12, false⟩

/-- beside the middle one of three red puyos, the run of one that fires would need garbage, and so
the run of two is shown -/
theorem detect_fire_shows_shortest_redTower :
    redTower.Built ∧ IsLeast (redTower.firingRuns bareRuns ⟨2, 2⟩ 1) 2 ∧
      ∃ g, redTower.stackAll? ⟨[⟨1, .red⟩, ⟨1, .red⟩]⟩ = some g ∧
        ∃ c ∈ detected redTower bareRuns .empty .fire, c.field.zobristHash = g.zobristHash := by
  have hf : redTower.Built := ⟨Field.empty, Or.inl rfl, _, rfl⟩
  have hbeside : redTower.FloatsBeside bareRuns .empty ⟨2, 2⟩ 1 :=
    ⟨by decide +kernel, by decide, by decide, by decide, by decide, by decide +kernel⟩
  have hone : ¬ redTower.RunFires bareRuns ⟨2, 2⟩ 1 1 := by decide +kernel
  have hleast : IsLeast (redTower.firingRuns bareRuns ⟨2, 2⟩ 1) 2 := by
    refine ⟨⟨by decide +kernel, by decide +kernel⟩, fun k hk => ?_⟩
    by_contra hlt
    have hpos : 1 ≤ k := hk.1.1
    obtain rfl : k = 1 := by omega
    exact hone hk.2
  obtain ⟨_, _, hfloat⟩ := detect_fire_shows_shortest hf bareRuns .empty
  exact ⟨hf, hleast, (hfloat rfl).2 ⟨2, 2⟩ 1 2 hbeside hleast⟩

end PuyoChain
