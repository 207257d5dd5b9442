import PuyoChain.Proofs.Candidate.Recursion

/-!
# Detection as a program

A detection that works its candidates out while it shows them: each is made from the one before it,
and no further one is made once the visitor stops.

* `emitNew`        what all searches of a detection show their candidates to: a hash is kept before
                   the visitor is asked, also where the visitor then stops;
* `dropLoops?`     columns, colors and puyos, with a loop that breaks off (`showsList_dropLoops?`);
* `floatLoops?`    cells, the columns beside them and lengths of runs (`showsList_floatLoops?`);
* `extendLoops?`   the scan for groups, with the cells that were visited
                   (`extendLoops?_eq_extend?`);
* `detect?_eq`     no step fails, and every visitor is shown what `detect` shows it.
-/

namespace PuyoChain

section
variable {σ : Type}

/-! ## fields that were seen -/

/-- shows a candidate, unless the hash of its field was seen before; from then on it was -/
def emitNew (visit : Visitor σ Candidate) : Visitor (Seen σ) Candidate := fun seen c =>
  if c.field.zobristHash ∈ seen.hashes then .proceed seen
  else
    let after := Seen.mk (c.field.zobristHash :: seen.hashes)
    (visit seen.state c).mapBoth after after

/-- what was seen does not matter any more once the visitor has stopped the search -/
theorem mapBoth_emitNew (visit : Visitor σ Candidate) (c : Candidate) (seen : Seen σ) :
    (emitNew visit seen c).mapBoth Seen.state (fun seen => seen) = showNew visit seen c := by
  unfold emitNew showNew
  dsimp only
  split
  · rfl
  · cases visit seen.state c <;> rfl

theorem each_emitNew (visit : Visitor σ Candidate) (cs : List Candidate) (seen : Seen σ) :
    (each (emitNew visit) cs seen).mapBoth Seen.state Seen.state =
      (each (showNew visit) cs seen).map Seen.state := by
  rw [← each_mapBoth (mapBoth_emitNew visit)]
  cases each (emitNew visit) cs seen <;> rfl

/-! ## dropping -/

section
variable (f : Field) (s : Strategy) (prohibited : ColumnMask) (purpose : Purpose)
  (visit : Visitor σ Candidate)

/-- puts one more puyo on the copy of the field and into the list; breaks off at the ceiling, and
where the puyo fires -/
def dropTurn? (x : Nat) (a : Color) (t : σ × Candidate) :
    Option (Flow σ (ForInStep (σ × Candidate))) :=
  if s.ceiling ≤ t.2.field.height x then some (.proceed (.done t))
  else
    match t.2.field.stack? x a with
    | none => some (.proceed (.done t))
    | some g =>
      -- the list stays as it is where it has no room
      let c : Candidate := ⟨g, (t.2.additions.add x a).getD t.2.additions⟩
      if g.inVanishing ⟨x, g.height x⟩ then
        some (((visit t.1 c).map fun st => (st, c)).map .done)
      else some (((each visit (c.shown purpose) t.1).map fun st => (st, c)).map .yield)

/-- the puyos of one color on one column, on a copy of the field and with a list of their own -/
def dropLoop? (x : Nat) (st : σ) (a : Color) : Option (Flow σ σ) :=
  (loop? (fun t _ => dropTurn? s purpose visit x a t) (List.range s.maxPuyos)
    (st, ⟨f, .empty⟩)).map fun w => w.map Prod.fst

def dropLoops? : σ → Option (Flow σ σ) :=
  each? (fun st x =>
    if prohibited.contains x then some (.proceed st)
    else each? (dropLoop? f s purpose visit x) Color.normals st) fieldColumns

end

section
variable {s : Strategy} (purpose : Purpose) (visit : Visitor σ Candidate) {x : Nat} {a : Color}
  {c : Candidate} (st : σ)

theorem dropTurn?_of_full
    (h : s.ceiling ≤ c.field.height x ∨ c.field.stack? x a = none) :
    dropTurn? s purpose visit x a (st, c) =
      some ((Flow.proceed (st, c)).map .done) := by
  unfold dropTurn?
  dsimp only
  by_cases htop : s.ceiling ≤ c.field.height x
  · rw [if_pos htop]
    rfl
  · rw [if_neg htop, h.resolve_left htop]
    rfl

theorem dropTurn?_of_room {g : Field} {m : Additions} (htop : ¬ s.ceiling ≤ c.field.height x)
    (hg : c.field.stack? x a = some g) (hm : c.additions.add x a = some m) :
    dropTurn? s purpose visit x a (st, c) =
      if g.inVanishing ⟨x, g.height x⟩ then
        some (((visit st ⟨g, m⟩).map fun st => (st, ⟨g, m⟩)).map .done)
      else
        some (((each visit (Candidate.shown purpose ⟨g, m⟩) st).map
          fun st => (st, ⟨g, m⟩)).map .yield) := by
  unfold dropTurn?
  dsimp only
  rw [if_neg htop, hg, hm]
  rfl

/-- the list is never longer than the column is high, so that it always has room -/
theorem loop?_dropTurn? (a : Color) (hx : 1 ≤ x ∧ x ≤ 6) (turns : List Nat)
    (hc : c.additions.size ≤ c.field.height x) :
    (loop? (fun t _ => dropTurn? s purpose visit x a t) turns (st, c)).map
        (fun w => w.map Prod.fst) =
      some (each visit
        (dropRun purpose s.ceiling x a turns.length c.field c.additions) st) := by
  induction turns generalizing c st with
  | nil => rfl
  | cons i turns ih =>
    rw [List.length_cons, dropRun]
    by_cases htop : s.ceiling ≤ c.field.height x
    · rw [loop?_cons_done (dropTurn?_of_full purpose visit st (Or.inl htop)), if_pos htop]
      rfl
    · rw [if_neg htop]
      cases hg : c.field.stack? x a with
      | none =>
        rw [loop?_cons_done (dropTurn?_of_full purpose visit st (Or.inr hg))]
        rfl
      | some g =>
        have hle := s.ceiling_le
        have hroom : c.additions.size + 1 ≤ Additions.capacity := by
          unfold Additions.capacity
          omega
        obtain ⟨m, hm⟩ : ∃ m, c.additions.add x a = some m := ⟨_, if_pos ⟨hx, hroom⟩⟩
        have hturn := dropTurn?_of_room purpose visit st htop hg hm
        rw [hm]
        dsimp only
        by_cases hv : g.inVanishing ⟨x, g.height x⟩ = true
        · rw [if_pos hv] at hturn ⊢
          rw [loop?_cons_done hturn, each_singleton]
          exact congrArg some (Flow.map_fst_pair _ _)
        · rw [if_neg hv] at hturn ⊢
          have hsize : m.size ≤ g.height x := by
            rw [Additions.size_addCopies hm, Field.height_of_stack? hg]
            omega
          rw [loop?_cons_yield hturn, each_append]
          cases each visit (Candidate.shown purpose ⟨g, m⟩) st with
          | stop st => rfl
          | proceed st => exact ih st hsize

theorem showsList_dropLoops? (f : Field) (prohibited : ColumnMask) :
    ShowsList visit ((dropSeeds prohibited).flatMap (dropCandidates f s purpose))
      (dropLoops? f s prohibited purpose visit) := by
  have hseeds : (dropSeeds prohibited).flatMap (dropCandidates f s purpose) =
      fieldColumns.flatMap fun x =>
        if prohibited.contains x = false then
          Color.normals.flatMap fun a => dropCandidates f s purpose (x, a)
        else [] := by
    rw [flatMap_ite, dropSeeds, List.flatMap_assoc]
    simp only [List.flatMap_map, Bool.decide_eq_false]
  rw [hseeds]
  refine showsList_each? fun x hx st => ?_
  dsimp only
  cases prohibited.contains x with
  | true => rfl
  | false =>
    refine showsList_each? (fun a _ st => ?_) st
    have hloop := loop?_dropTurn? purpose visit st a ((mem_fieldColumns_iff x).mp hx)
      (s := s) (c := ⟨f, .empty⟩) (List.range s.maxPuyos) (Nat.zero_le _)
    rw [List.length_range] at hloop
    exact hloop

end

/-! ## floating -/

section
variable (f : Field) (s : Strategy) (prohibited : ColumnMask) (purpose : Purpose)
  (visit : Visitor σ Candidate)

/-- a run of length `k` over the garbage that it needs; goes on to longer runs where garbage is not
allowed, and breaks off where the run does not fit and where it fires -/
def floatTurn? (seed : FloatSeed) (st : σ) (k : Nat) : Option (Flow σ (ForInStep σ)) := do
  let gap ← Nat.psub (← Nat.psub seed.y k) seed.height
  if 0 < gap && !s.allowsGarbage then return (Flow.proceed st).map .yield
  let list? := (Additions.empty.addCopies seed.x .garbage gap).bind fun l =>
    l.addCopies seed.x seed.color k
  match list?.bind fun l => (f.stackAll? l).map fun g => (⟨g, l⟩ : Candidate) with
  | none => return (Flow.proceed st).map .done
  | some c =>
    if c.field.inVanishing ⟨seed.x, seed.y⟩ then return (visit st c).map .done
    else return (each visit (c.shown purpose) st).map .yield

/-- the runs in a column beside a puyo -/
def floatBeside? (p : Cell) (st : σ) (x : Nat) : Option (Flow σ σ) :=
  if 1 ≤ x && x ≤ 6 && !prohibited.contains x && f.height x < p.y then
    (Nat.psub p.y (f.height x)).bind fun room =>
      loop? (floatTurn? f s purpose visit ⟨p.y, f.colorAt p, x, f.height x⟩)
        (rowsUpTo (min s.maxPuyos room)) st
  else some (.proceed st)

/-- the columns left and right of a puyo of a normal color -/
def floatAt? (st : σ) (p : Cell) : Option (Flow σ σ) :=
  if (f.colorAt p).isNormal then
    p.x.ppred.bind fun left =>
      each? (floatBeside? f s prohibited purpose visit p) [left, p.x + 1] st
  else some (.proceed st)

def floatLoops? : σ → Option (Flow σ σ) :=
  each? (floatAt? f s prohibited purpose visit) (fieldColumns.flatMap (f.columnCells s.ceiling))

end

section
variable (f : Field) (s : Strategy) (prohibited : ColumnMask) (purpose : Purpose)
  (visit : Visitor σ Candidate)

/-- the garbage below a run that is not too long is what the seed says -/
theorem floatTurn?_eq {seed : FloatSeed} {k : Nat} (hk : k + seed.height ≤ seed.y) (st : σ) :
    floatTurn? f s purpose visit seed st k =
      if 0 < seed.y - k - seed.height && !s.allowsGarbage then
        some ((Flow.proceed st).map .yield)
      else
        match floatCandidate? f seed k with
        | none => some ((Flow.proceed st).map .done)
        | some c =>
          if c.field.inVanishing ⟨seed.x, seed.y⟩ then some ((visit st c).map .done)
          else some ((each visit (c.shown purpose) st).map .yield) := by
  unfold floatTurn? floatCandidate? floatAdditions?
  rw [Nat.psub_eq_sub (by omega : k ≤ seed.y)]
  show (do let gap ← Nat.psub (seed.y - k) seed.height; _) = _
  rw [Nat.psub_eq_sub (by omega : seed.height ≤ seed.y - k)]
  rfl

theorem showsList_floatTurn? {seed : FloatSeed} {ks : List Nat}
    (hks : ∀ k ∈ ks, k + seed.height ≤ seed.y) :
    ShowsList visit (floatRun f s purpose seed ks)
      (loop? (floatTurn? f s purpose visit seed) ks) := by
  intro st
  induction ks generalizing st with
  | nil => rfl
  | cons k ks ih =>
    obtain ⟨hk, hks⟩ := List.forall_mem_cons.mp hks
    have hturn := floatTurn?_eq f s purpose visit hk st
    rw [floatRun]
    by_cases hgap : (0 < seed.y - k - seed.height && !s.allowsGarbage) = true
    · rw [if_pos hgap] at hturn ⊢
      rw [loop?_cons_yield hturn]
      exact ih hks st
    · rw [if_neg hgap] at hturn ⊢
      cases hc : floatCandidate? f seed k with
      | none =>
        rw [hc] at hturn
        rw [loop?_cons_done hturn]
        rfl
      | some c =>
        rw [hc] at hturn
        dsimp only at hturn ⊢
        by_cases hv : c.field.inVanishing ⟨seed.x, seed.y⟩ = true
        · rw [if_pos hv] at hturn ⊢
          rw [loop?_cons_done hturn, each_singleton]
        · rw [if_neg hv] at hturn ⊢
          rw [loop?_cons_yield hturn, each_append]
          exact Flow.andThen?_eq_some (ih hks)

theorem showsList_floatBeside? (p : Cell) (x : Nat) :
    ShowsList visit
      (if (1 ≤ x && x ≤ 6 && !prohibited.contains x && f.height x < p.y) = true then
        floatCandidates f s purpose ⟨p.y, f.colorAt p, x, f.height x⟩
      else [])
      fun st => floatBeside? f s prohibited purpose visit p st x := by
  intro st
  dsimp only
  unfold floatBeside?
  by_cases h : (1 ≤ x && x ≤ 6 && !prohibited.contains x && f.height x < p.y) = true
  · have hlt : f.height x < p.y := by
      rw [Bool.and_eq_true, decide_eq_true_eq] at h
      exact h.2
    rw [if_pos h, if_pos h, Nat.psub_eq_sub hlt.le]
    refine showsList_floatTurn? f s purpose visit (fun k hk => ?_) st
    have := (mem_rowsUpTo_iff _ k).mp hk
    dsimp only
    omega
  · rw [if_neg h, if_neg h]
    rfl

theorem showsList_floatLoops? :
    ShowsList visit ((floatSeeds f s prohibited).flatMap (floatCandidates f s purpose))
      (floatLoops? f s prohibited purpose visit) := by
  unfold floatSeeds
  rw [List.flatMap_assoc]
  refine showsList_each? fun p hp st => ?_
  obtain ⟨x, hx, hp⟩ := List.mem_flatMap.mp hp
  have hcol := (mem_fieldColumns_iff x).mp hx
  rw [Field.mem_columnCells_iff] at hp
  dsimp only
  unfold floatAt? floatSeedsAt
  split
  · have hbeside := flatMap_ite
      (fun x => (1 ≤ x && x ≤ 6 && !prohibited.contains x && f.height x < p.y) = true)
      (fun x => floatCandidates f s purpose ⟨p.y, f.colorAt p, x, f.height x⟩)
      [p.x - 1, p.x + 1]
    simp only [Bool.decide_eq_true] at hbeside
    rw [Nat.ppred_eq_pred (by omega), List.flatMap_map, ← hbeside]
    exact showsList_each?
      (fun x _ => showsList_floatBeside? f s prohibited purpose visit p x) st
  · rfl

end

/-! ## extending -/

section
variable (f : Field) (s : Strategy) (prohibited : ColumnMask) (purpose : Purpose)
  (visit : Visitor σ Candidate)

/-- visits the group of a cell, unless it was visited, and grows it if it is too small to vanish -/
def extendAt? (t : Shared σ × List Cell) (p : Cell) : Option (Flow σ (Shared σ × List Cell)) :=
  if (f.colorAt p).isNormal && p ∉ t.2 then
    (f.fill? p).bind fun cells =>
      if 4 ≤ cells.length then some (.proceed (t.1, cells ++ t.2))
      else
        (grow? (s.growth prohibited purpose) (f.colorAt p) visit growthLevels
          ⟨f, cells, s.maxPuyos⟩ t.1).map fun w => w.map fun t' => (t', cells ++ t.2)
  else some (.proceed t)

def extendLoops? (st : σ) : Option (Flow σ (Shared σ)) :=
  (each? (extendAt? f s prohibited purpose visit) f.scannedCells ((st, .empty), [])).map fun w =>
    w.map Prod.fst

theorem map_each?_extendAt? (ps seen : List Cell) (t : Shared σ) :
    (each? (extendAt? f s prohibited purpose visit) ps (t, seen)).map (fun w => w.map Prod.fst) =
      each? (fun t g => grow? (s.growth prohibited purpose) g.color visit growthLevels
        (seedCall f s g) t) ((f.groupsFrom ps seen).filter fun g => !g.vanishes) t := by
  induction ps generalizing seen t with
  | nil => rfl
  | cons p ps ih =>
    rw [each?_cons, Field.groupsFrom]
    unfold extendAt?
    by_cases hnew : ((f.colorAt p).isNormal && p ∉ seen) = true
    · rw [if_pos hnew, if_pos hnew, Field.fill?_eq_group]
      dsimp only [Option.bind_some]
      have hvanishes : Group.vanishes ⟨f.colorAt p, f.group p⟩ = decide (4 ≤ (f.group p).length) :=
        rfl
      by_cases h4 : 4 ≤ (f.group p).length
      · rw [if_pos h4, List.filter_cons_of_neg (by simp [hvanishes, h4])]
        exact ih _ t
      · rw [if_neg h4, List.filter_cons_of_pos (by simp [hvanishes, h4]),
          each?_cons]
        show _ = ((grow? _ (f.colorAt p) visit growthLevels ⟨f, f.group p, s.maxPuyos⟩ t).bind _)
        cases grow? (s.growth prohibited purpose) (f.colorAt p) visit growthLevels
            ⟨f, f.group p, s.maxPuyos⟩ t with
        | none => rfl
        | some w =>
          cases w with
          | stop st => rfl
          | proceed t => exact ih _ t
    · rw [if_neg hnew, if_neg hnew]
      exact ih seen t

/-- the scan finds the groups from which a field is extended -/
theorem extendLoops?_eq_extend? (st : σ) :
    extendLoops? f s prohibited purpose visit st = extend? f s prohibited purpose visit st :=
  map_each?_extendAt? f s prohibited purpose visit f.scannedCells [] (st, .empty)

end

/-! ## detection -/

section
variable (f : Field) (s : Strategy) (prohibited : ColumnMask) (purpose : Purpose)

/-- the search of a strategy, whose candidates are shown to one visitor -/
def search? (visit : Visitor σ Candidate) (st : σ) : Option (Flow σ σ) :=
  match s.mode with
  | .drop => dropLoops? f s prohibited purpose visit st
  | .float => floatLoops? f s prohibited purpose visit st
  | .extend => (extendLoops? f s prohibited purpose visit st).map fun w => w.map Prod.fst

theorem showsList_search? {f : Field} (hf : f.Built) (visit : Visitor σ Candidate) :
    ShowsList visit (candidates f s prohibited purpose) (search? f s prohibited purpose visit) := by
  intro st
  unfold search? candidates
  cases s.mode with
  | drop => exact showsList_dropLoops? purpose visit f prohibited st
  | float => exact showsList_floatLoops? f s prohibited purpose visit st
  | extend =>
    dsimp only
    rw [extendLoops?_eq_extend?, extend?_eq hf.covered]
    exact congrArg some (Flow.map_fst_pair _ _)

/-- the search with the hashes of the fields that were shown, which are given up at its end -/
def detect? (visit : Visitor σ Candidate) (st : σ) : Option (Flow σ σ) :=
  (search? f s prohibited purpose (emitNew visit) ⟨[], st⟩).map fun w =>
    w.mapBoth Seen.state Seen.state

/-- **A detection makes its candidates as it shows them.**  On every field that operations build, no
step of the program fails, and it does with every visitor what `detect` does, which works each run
out before it shows it. -/
theorem detect?_eq {f : Field} (hf : f.Built) (visit : Visitor σ Candidate) (st : σ) :
    detect? f s prohibited purpose visit st =
      some (detect f s prohibited purpose visit st) := by
  unfold detect?
  rw [showsList_search? s prohibited purpose hf (emitNew visit), detect_eq_each]
  exact congrArg some (each_emitNew visit _ _)

end

end

end PuyoChain
