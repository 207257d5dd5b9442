import PuyoChain.Proofs.Candidate.Sound

/-!
# The candidates for firing among the keys

* `Complements.fires_iff`   where all additions of a normal color are in the group of one cell, a
                            field that did not fire before fires just if that group vanishes;
* `Clustered`               what a run keeps so that this is so: its additions are in one group;
* `candidates_fire`         so a run ends with its first candidate that fires, and in each mode the
                            candidates for firing are those keys whose field fires;
* `unseen_filter`           leaving out repeated fields commutes with a test that a hash decides;
* `detected_fire_eq_filter_key`   a detection for firing shows the keys that fire, in their order.
-/

namespace PuyoChain

variable {f g : Field} {s : Strategy} {prohibited : ColumnMask} {a : Color} {l m : Additions}
  {ceiling x n : Nat} {c p : Cell}

/-! ## additions in one group -/

/-- a cell that fires has an addition in its group, and so have they all -/
theorem Complements.fires_iff (hf : f.Covered) (hn : f.fires = false)
    (hg : Complements f ceiling prohibited l g) (hc : (g.colorAt c).isNormal = true)
    (hin : ∀ q ∈ f.landings l.entries, (g.colorAt q).isNormal = true → q ∈ g.group c) :
    g.fires = true ↔ 4 ≤ g.groupSize c := by
  constructor
  · intro h
    have same : ∀ q, q.isVisible = true → q ∉ f.landings l.entries → f.colorAt q = g.colorAt q := by
      intro q _ hq
      rw [hg.field, Field.colorAt_placeAll_of_not_mem hg.fits hq]
    rcases Field.fires_of_agree hf same h with h | ⟨q, hq, hqn, h4⟩
    · rw [hn] at h
      cases h
    · rwa [Field.groupSize_eq_of_mem (hin q hq hqn)] at h4
  · intro h
    have hcov : g.Covered := by
      rw [hg.field]
      exact hf.placeAll hg.fits
    exact (Field.fires_iff hcov).mpr ⟨c, hc, h⟩

/-- the cells of a run are in the group of its top -/
theorem mem_group_of_mem_landings_run (ha : a.isNormal = true) (hx : 1 ≤ x ∧ x ≤ 6)
    (h : g.height x + n ≤ 12) {q : Cell} (hq : q ∈ g.landings (List.replicate n ⟨x, a⟩)) :
    q ∈ (g.placeAll (List.replicate n ⟨x, a⟩)).group ⟨x, g.height x + n⟩ := by
  obtain ⟨z, y⟩ := q
  obtain ⟨rfl, hlt, hle⟩ := (Field.mem_landings_run hx a n _).mp hq
  dsimp only at hlt hle hx h ⊢
  refine Field.mem_group_symm (Field.mem_group_above hx (by omega) hle h (Color.ne_of_isNormal ha rfl)
    (Color.ne_of_isNormal ha rfl) fun k hk hk' => ?_)
  rw [Field.color_run hx a (by omega), if_pos (by omega)]

/-- additions that lead from `f` to `g` and are all in the group of the cell `c`, of color `a` -/
structure Clustered (f : Field) (ceiling : Nat) (prohibited : ColumnMask) (a : Color)
    (l : Additions) (g : Field) (c : Cell) : Prop extends Complements f ceiling prohibited l g where
  together : ∀ q ∈ f.landings l.entries, q ∈ g.group c ∧ g.colorAt c = a

theorem clustered_empty (f : Field) (ceiling : Nat) (prohibited : ColumnMask) (a : Color)
    (c : Cell) : Clustered f ceiling prohibited a .empty f c where
  toComplements := complements_empty f ceiling prohibited
  together := fun _ hq => absurd hq List.not_mem_nil

namespace Clustered

theorem fires_iff (h : Clustered f ceiling prohibited a l g c) (hf : f.Covered)
    (hn : f.fires = false) (ha : a.isNormal = true) (hc : g.colorAt c = a) :
    g.fires = true ↔ 4 ≤ g.groupSize c :=
  h.toComplements.fires_iff hf hn (by rw [hc]; exact ha) fun q hq _ => (h.together q hq).1

/-- filling a column up to a cell beside the group keeps the additions together -/
theorem fillUpTo (h : Clustered f ceiling prohibited a l g c) (hf : f.Covered)
    (ha : a.isNormal = true) (hceil : ceiling ≤ 12)
    (hm : l.addCopies p.x a (p.y - g.height p.x) = some m) (hlt : g.height p.x < p.y)
    (hp : p.y ≤ ceiling) (hx : prohibited.contains p.x = false)
    (hbeside : ∀ q ∈ f.landings l.entries, ∃ r ∈ g.group c, p ∈ r.neighbors) :
    Clustered f ceiling prohibited a m (g.fillUpTo a p) p ∧ (g.fillUpTo a p).colorAt p = a := by
  have hcol := Additions.column_of_addCopies hm
  have htop : g.height p.x + (p.y - g.height p.x) = p.y := by omega
  have hcolor := Field.colorAt_fillUpTo_self hcol (by omega) hlt a
  refine ⟨⟨h.toComplements.run hm hx (by omega) hceil, fun q hq => ⟨?_, hcolor⟩⟩, hcolor⟩
  rw [Additions.entries_addCopies hm, Field.landings_append, List.mem_append] at hq
  rcases hq with hq | hq
  · have hcov : g.Covered := by
      rw [h.field]
      exact hf.placeAll h.fits
    have hv : p.isVisible = true := (Cell.isVisible_iff p).mpr ⟨hcol, by omega⟩
    obtain ⟨hqc, hca⟩ := h.together q hq
    obtain ⟨r, hr, hpr⟩ := hbeside q hq
    exact hcov.mem_group_fillUpTo hr hpr hv hlt hca hqc
  · rw [← h.field] at hq
    have hrun := mem_group_of_mem_landings_run ha hcol (by omega) hq
    rwa [htop] at hrun

end Clustered

/-! ## runs -/

def firing (cs : List Candidate) : List Candidate := cs.filter fun c => c.field.fires

theorem firing_append (cs ds : List Candidate) : firing (cs ++ ds) = firing cs ++ firing ds :=
  List.filter_append ..

theorem firing_flatMap {α : Type} (as : List α) (run : α → List Candidate) :
    firing (as.flatMap run) = as.flatMap fun a => firing (run a) :=
  List.filter_flatMap ..

/-- a run that ends with a marked candidate, if the marked candidates are those that fire -/
theorem firing_shown {marked : Prop} [Decidable marked] {d : Candidate} {cs ds : List Candidate}
    (hd : d.field.fires = true ↔ marked) (hcs : cs = firing ds) :
    (if marked then [d] else d.shown .fire ++ cs) =
      firing (if marked then [d] else d.shown .key ++ ds) := by
  by_cases h : marked
  · have hfires : d.field.fires = true := hd.mpr h
    rw [if_pos h, if_pos h]
    simp [firing, hfires]
  · have hfires : ¬ d.field.fires = true := fun e => h (hd.mp e)
    rw [if_neg h, if_neg h, firing_append, ← hcs]
    simp [firing, Candidate.shown, hfires]

theorem fillUpTo_top (g : Field) (x : Nat) (a : Color) :
    g.fillUpTo a ⟨x, g.height x + 1⟩ = g.place x a := by
  show g.placeAll (List.replicate (g.height x + 1 - g.height x) ⟨x, a⟩) = _
  rw [Nat.add_sub_cancel_left]
  rfl

theorem dropRun_fire (hf : f.Covered) (hn : f.fires = false) (ha : a.isNormal = true)
    (hx : prohibited.contains x = false) (budget : Nat)
    (h : Clustered f s.ceiling prohibited a l g ⟨x, g.height x⟩) :
    dropRun .fire s.ceiling x a budget g l = firing (dropRun .key s.ceiling x a budget g l) := by
  induction budget generalizing g l with
  | zero => rfl
  | succ budget ih =>
    rw [dropRun, dropRun]
    by_cases hc : s.ceiling ≤ g.height x
    · rw [if_pos hc, if_pos hc]
      rfl
    · rw [if_neg hc, if_neg hc]
      cases hs : g.stack? x a with
      | none => rfl
      | some g' =>
        cases hm : l.add x a with
        | none => rfl
        | some m =>
          obtain ⟨_, rfl⟩ := (Field.stack?_eq_some_iff g g' x a).mp hs
          have hh : (g.place x a).height x = g.height x + 1 := by
            rw [Field.height_place g (Additions.column_of_addCopies hm), if_pos rfl]
          have hm' : l.addCopies x a (g.height x + 1 - g.height x) = some m := by
            rw [Nat.add_sub_cancel_left]
            exact hm
          obtain ⟨hnext, hcolor⟩ := h.fillUpTo (p := ⟨x, g.height x + 1⟩) hf ha s.ceiling_le hm'
            (Nat.lt_succ_self _) (Nat.lt_of_not_le hc) hx fun q hq =>
              ⟨_, Field.mem_group_self (Field.canJoin_of_mem_group (h.together q hq).1),
                by simp [Cell.neighbors]⟩
          rw [fillUpTo_top, ← hh] at hnext hcolor
          refine firing_shown ?_ (ih hnext)
          rw [Field.inVanishing_iff]
          exact hnext.fires_iff hf hn ha hcolor

theorem grow_fire (hf : f.Covered) (hn : f.fires = false) (ha : a.isNormal = true)
    (fuel budget : Nat) (h : Clustered f s.ceiling prohibited a l g c) (hc : g.colorAt c = a) :
    grow ⟨s.ceiling, prohibited, .fire⟩ a fuel g (g.group c) budget l =
      firing (grow ⟨s.ceiling, prohibited, .key⟩ a fuel g (g.group c) budget l) := by
  induction fuel generalizing g c budget l with
  | zero => rfl
  | succ fuel ih =>
    rw [grow, grow, firing_flatMap]
    refine List.flatMap_congr fun p hp => ?_
    obtain ⟨⟨r, hr, hpr⟩, hfill⟩ := (mem_growthCells_iff _ g _ p).mp hp
    have hy := hfill.row
    have hle := s.ceiling_le
    dsimp only at hy ⊢
    by_cases hcost : p.y - g.height p.x = 0 ∨ budget < p.y - g.height p.x
    · rw [if_pos hcost, if_pos hcost]
      rfl
    · rw [if_neg hcost, if_neg hcost]
      cases hm : l.addCopies p.x a (p.y - g.height p.x) with
      | none => rfl
      | some m =>
        have hgrown : stackCopies p.x a (p.y - g.height p.x) g = g.fillUpTo a p :=
          Field.stackCopies_eq_run hfill.column a (by omega)
        obtain ⟨hnext, hcolor⟩ := h.fillUpTo hf ha hle hm (by omega) hy.2 hfill.allowed
          fun q _ => ⟨r, hr, hpr⟩
        dsimp only
        rw [hgrown]
        exact firing_shown (hnext.fires_iff hf hn ha hcolor) (ih _ hnext hcolor)

/-- of a run over garbage, only the run has a normal color -/
theorem fires_iff_of_floatCandidate? (hf : f.Covered) (hn : f.fires = false) {seed : FloatSeed}
    (hseed : seed ∈ floatSeeds f s prohibited) {k : Nat} (hk : 0 < k ∧ k ≤ seed.y - seed.height)
    {d : Candidate} (h : floatCandidate? f seed k = some d) :
    d.field.fires = true ↔ 4 ≤ d.field.groupSize ⟨seed.x, seed.y⟩ := by
  obtain ⟨hy, ha, hcol, _, _, _⟩ := of_mem_floatSeeds hf hseed
  obtain ⟨l, g, hl, hm, hg, hrow, hfield, hprops, hfull⟩ :=
    exists_garbage_of_floatCandidate? hf hseed hk h
  have hle := s.ceiling_le
  -- the colors above the garbage, and the garbage
  have hcolor : ∀ y, d.field.color seed.x y =
      if g.height seed.x < y ∧ y ≤ seed.y then seed.color else g.color seed.x y := by
    intro y
    rw [hfield, Field.color_run hcol _ (by omega), hrow]
    simp only [true_and]
  have htop : (d.field.colorAt ⟨seed.x, seed.y⟩).isNormal = true := by
    show (d.field.color seed.x seed.y).isNormal = true
    rw [hcolor, if_pos (by omega)]
    exact ha
  refine hfull.fires_iff hf hn htop fun q hq hqn => ?_
  rw [Additions.entries_addCopies hm, Field.landings_append, List.mem_append,
    ← hprops.field] at hq
  rcases hq with hq | hq
  · rw [Additions.entries_addCopies hl] at hq
    obtain ⟨e, hlo, hhi⟩ := (Field.mem_landings_run hcol _ _ q).mp hq
    have hend : g.height seed.x = f.height seed.x + (seed.y - k - seed.height) := by
      rw [hg, Field.height_run hcol, if_pos rfl]
    have hgarbage : d.field.colorAt q = .garbage := by
      show d.field.color q.x q.y = _
      rw [e, hcolor, if_neg (by omega), hg, Field.color_run hcol _ (by omega),
        if_pos ⟨rfl, hlo, hhi⟩]
    rw [hgarbage] at hqn
    cases hqn
  · have hrun := mem_group_of_mem_landings_run ha hcol (by omega) hq
    rwa [← hfield, hrow] at hrun

theorem floatRun_fire (hf : f.Covered) (hn : f.fires = false) {seed : FloatSeed}
    (hseed : seed ∈ floatSeeds f s prohibited) {ks : List Nat}
    (hks : ∀ k ∈ ks, 0 < k ∧ k ≤ seed.y - seed.height) :
    floatRun f s .fire seed ks = firing (floatRun f s .key seed ks) := by
  induction ks with
  | nil => rfl
  | cons k ks ih =>
    obtain ⟨hk, hks⟩ := List.forall_mem_cons.mp hks
    rw [floatRun, floatRun]
    split
    · exact ih hks
    · cases hd : floatCandidate? f seed k with
      | none => rfl
      | some d =>
        refine firing_shown ?_ (ih hks)
        rw [Field.inVanishing_iff]
        exact fires_iff_of_floatCandidate? hf hn hseed hk hd

/-- in each mode the candidates for firing are the keys whose field fires -/
theorem candidates_fire (hf : f.Covered) (hn : f.fires = false) (s : Strategy)
    (prohibited : ColumnMask) :
    candidates f s prohibited .fire = firing (candidates f s prohibited .key) := by
  unfold candidates
  cases hs : s.mode with
  | drop =>
    dsimp only
    rw [firing_flatMap]
    refine List.flatMap_congr fun seed hseed => ?_
    obtain ⟨x, a⟩ := seed
    obtain ⟨_, hx, ha⟩ := mem_dropSeeds_iff.mp hseed
    exact dropRun_fire hf hn ha hx s.maxPuyos (clustered_empty f s.ceiling prohibited a _)
  | float =>
    dsimp only
    rw [firing_flatMap]
    refine List.flatMap_congr fun seed hseed => floatRun_fire hf hn hseed fun k hk => ?_
    rw [mem_rowsUpTo_iff] at hk
    omega
  | extend =>
    dsimp only
    rw [firing_flatMap]
    refine List.flatMap_congr fun group hgroup => ?_
    obtain ⟨p, _, hp, rfl⟩ := Field.mem_groupsFrom (List.mem_filter.mp hgroup).1
    exact grow_fire hf hn hp growthLevels s.maxPuyos
      (clustered_empty f s.ceiling prohibited _ p) rfl

/-! ## repeated fields -/

/-- leaving out repeated hashes commutes with a test that candidates of one hash pass alike, also
where other candidates have been seen -/
theorem unseen_filter (test : Candidate → Bool) {cs : List Candidate} {hs hs' : List UInt64}
    (htest : ∀ c ∈ cs, ∀ d ∈ cs, c.field.zobristHash = d.field.zobristHash → test c = test d)
    (hagree : ∀ c ∈ cs, test c = true →
      (c.field.zobristHash ∈ hs' ↔ c.field.zobristHash ∈ hs)) :
    unseen hs' (cs.filter test) = (unseen hs cs).filter test := by
  induction cs generalizing hs hs' with
  | nil => rfl
  | cons c cs ih =>
    have htest' : ∀ d ∈ cs, ∀ e ∈ cs, d.field.zobristHash = e.field.zobristHash →
        test d = test e :=
      fun d hd e he => htest d (List.mem_cons_of_mem c hd) e (List.mem_cons_of_mem c he)
    obtain ⟨hagree_c, hagree⟩ := List.forall_mem_cons.mp hagree
    by_cases hc : test c = true
    · rw [List.filter_cons_of_pos hc]
      by_cases hmem : c.field.zobristHash ∈ hs
      · rw [unseen_of_mem hmem, unseen_of_mem ((hagree_c hc).mpr hmem)]
        exact ih htest' hagree
      · rw [unseen_of_not_mem hmem, unseen_of_not_mem fun e => hmem ((hagree_c hc).mp e),
          List.filter_cons_of_pos hc]
        refine congrArg (c :: ·) (ih htest' fun d hd hd' => ?_)
        rw [List.mem_cons, List.mem_cons, hagree d hd hd']
    · rw [List.filter_cons_of_neg hc]
      by_cases hmem : c.field.zobristHash ∈ hs
      · rw [unseen_of_mem hmem]
        exact ih htest' hagree
      · rw [unseen_of_not_mem hmem, List.filter_cons_of_neg hc]
        refine ih htest' fun d hd hd' => ?_
        -- what passes the test has not the hash of what does not
        have hne : d.field.zobristHash ≠ c.field.zobristHash := fun e => hc
          (by rw [← htest d (List.mem_cons_of_mem c hd) c List.mem_cons_self e]; exact hd')
        rw [List.mem_cons, or_iff_right hne, hagree d hd hd']

/-- **A detection for firing shows the keys that fire.**  On every field that operations build and
that does not fire by itself, in every mode, within any limits and outside any columns: if no two
different candidate fields have one hash, then a detection for firing shows to any visitor just the
candidates of the detection for keys whose field fires, in the same order and with the same
additions. -/
theorem detected_fire_eq_filter_key (hf : f.Built) (hn : f.fires = false) (s : Strategy)
    (prohibited : ColumnMask)
    (hhash : ∀ c ∈ candidates f s prohibited .key, ∀ d ∈ candidates f s prohibited .key,
      c.field.zobristHash = d.field.zobristHash → c.field = d.field) :
    detected f s prohibited .fire =
        (detected f s prohibited .key).filter (fun c => c.field.fires) ∧
      ∀ {σ : Type} (visit : Visitor σ Candidate) (state : σ),
        detect f s prohibited .fire visit state =
          each visit ((detected f s prohibited .key).filter fun c => c.field.fires) state := by
  have hlist : detected f s prohibited .fire =
      (detected f s prohibited .key).filter fun c => c.field.fires := by
    rw [detected_eq_unseen, detected_eq_unseen, candidates_fire hf.covered hn]
    refine unseen_filter _ (fun c hc d hd e => ?_) fun _ _ _ => Iff.rfl
    rw [hhash c hc d hd e]
  refine ⟨hlist, fun visit state => ?_⟩
  rw [detect_eq_each_detected, hlist]

/-- two red puyos on column 2 -/
def redPillar : Field := Field.empty.run (List.replicate 2 (.stack 2 .red))

/-- up to two puyos of each color on column 2 alone -/
theorem detected_fire_eq_filter_key_redPillar :
    redPillar.Built ∧ redPillar.fires = false ∧
      ((detected redPillar ⟨.drop, 2, 12, false⟩ (.ofList [1, 3, 4, 5, 6]) .key).length = 8 ∧
        (detected redPillar ⟨.drop, 2, 12, false⟩ (.ofList [1, 3, 4, 5, 6]) .fire).length = 1) ∧
      detected redPillar ⟨.drop, 2, 12, false⟩ (.ofList [1, 3, 4, 5, 6]) .fire =
        (detected redPillar ⟨.drop, 2, 12, false⟩ (.ofList [1, 3, 4, 5, 6]) .key).filter
          (fun c => c.field.fires) := by
  have hf : redPillar.Built := ⟨Field.empty, Or.inl rfl, _, rfl⟩
  have hn : redPillar.fires = false := by decide +kernel
  have hhash : ∀ c ∈ candidates redPillar ⟨.drop, 2, 12, false⟩ (.ofList [1, 3, 4, 5, 6]) .key,
      ∀ d ∈ candidates redPillar ⟨.drop, 2, 12, false⟩ (.ofList [1, 3, 4, 5, 6]) .key,
        c.field.zobristHash = d.field.zobristHash → c.field = d.field := by
    decide +kernel
  refine ⟨hf, hn, by decide +kernel, ?_⟩
  exact (detected_fire_eq_filter_key hf hn ⟨.drop, 2, 12, false⟩ (.ofList [1, 3, 4, 5, 6]) hhash).1

end PuyoChain
