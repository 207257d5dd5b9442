import PuyoChain.Found.Search
import PuyoChain.Proofs.Candidate.Keys
import PuyoChain.Proofs.Candidate.Layers
import PuyoChain.Proofs.Field.Stacking

/-!
# The chains found are those of the additions

* `FiredChain.Replays`, `TrackedChain.Replays`   the additions of a chain, made to the field at
                       once, stack, and simulating what they make of it gives the chain;
* `firedFrom`          the chains of the candidates on a field with keys (`visitFired_eq_each`,
                       `firedFrom_eq`);
* `sideKeyChains`      those on a field with up to a number of keys on one column;
* `Shows`              a search shows a list, whatever visitor it has.

Keys and candidates are stacked one after the other and may as well be stacked together
(`replays_of_mem_firedFrom`).  Layered candidates are stacked together to begin with; on a settled
field the bottom layer starts a chain there, and the layers upon it do not put it out
(`Tower.chains_pos`).
-/

namespace PuyoChain

/-- the chain is that of the field with its additions -/
def FiredChain.Replays (f : Field) (c : FiredChain) : Prop :=
  ∃ g, f.stackAll? c.additions = some g ∧ g.simulate = (c.field, c.result)

/-- the chain and its track, from an empty one on, are those of the field with its additions -/
def TrackedChain.Replays (f : Field) (c : TrackedChain) : Prop :=
  ∃ g, f.stackAll? c.additions = some g ∧ g.simulateTracked .empty = (c.field, c.result, c.track)

variable {f g keyed : Field} {s : Strategy} {prohibited : ColumnMask} {keys : Additions}
  {k n x : Nat} {a : Color}

/-! ## chains after keys -/

/-- the chain of a candidate after keys, if both make one list and the candidate has a chain -/
def firedChain? (keys : Additions) (c : Candidate) : Option FiredChain :=
  (keys.merge c.additions).bind fun l =>
    if c.field.simulate.2.chains = 0 then none
    else some ⟨c.field.simulate.1, c.field.simulate.2, l⟩

/-- the chains of the candidates on a field with keys -/
def firedFrom (keyed : Field) (keys : Additions) (s : Strategy) (prohibited : ColumnMask) :
    List FiredChain :=
  (detected keyed s prohibited .fire).filterMap (firedChain? keys)

/-- the chains after at most `maxKeys` keys -/
def possibleChains (f : Field) (maxKeys : Nat) (s : Strategy) : List FiredChain :=
  (keysUpTo f s .empty maxKeys maxKeys maxKeys).flatMap fun c =>
    firedFrom c.field c.additions s .empty

/-- the chains with up to `n` more keys of a color on column `x`, until the keys fire -/
def sideKeyChains (s : Strategy) (x : Nat) (a : Color) : Nat → Field → Additions → List FiredChain
  | 0, _, _ => []
  | n + 1, f, keys =>
    if s.ceiling ≤ f.height x then []
    else
      match f.stack? x a, keys.add x a with
      | some g, some m =>
        if g.inVanishing ⟨x, g.height x⟩ then []
        else firedFrom g m s (.only x) ++ sideKeyChains s x a n g m
      | _, _ => []

/-- the chains with one or two keys on a column, of a color that the column has -/
def sideChains (f : Field) (s : Strategy) : List FiredChain :=
  fieldColumns.flatMap fun x => (columnColors f x).flatMap fun a => sideKeyChains s x a 2 f .empty

section
variable {σ : Type} (visit : Visitor σ FiredChain)

theorem visitFired_eq_each (keyed : Field) (keys : Additions) (s : Strategy)
    (prohibited : ColumnMask) (state : σ) :
    visitFired keyed keys s prohibited visit state =
      each visit (firedFrom keyed keys s prohibited) state := by
  rw [visitFired, detect_eq_each_detected, firedFrom, ← each_filterMap]
  refine each_congr (fun c _ state => ?_) state
  unfold firedChain?
  -- the chain is never worked out here
  generalize c.field.simulate = r
  obtain ⟨after, result⟩ := r
  cases keys.merge c.additions with
  | none => rfl
  | some l =>
    rw [Option.bind_some]
    dsimp only
    split <;> rfl

theorem visitPossible_eq_each (f : Field) (maxKeys : Nat) (s : Strategy) (state : σ) :
    visitPossible f maxKeys s visit state = each visit (possibleChains f maxKeys s) state := by
  rw [visitPossible, visitKeysUpTo_eq_each, possibleChains, each_flatMap]
  refine each_congr (fun c _ state => ?_) state
  exact visitFired_eq_each visit c.field c.additions s .empty state

theorem visitSideKeys_eq_each (s : Strategy) (x : Nat) (a : Color) (n : Nat) (f : Field)
    (keys : Additions) (state : σ) :
    visitSideKeys s visit x a n f keys state =
      each visit (sideKeyChains s x a n f keys) state := by
  induction n generalizing f keys state with
  | zero => rfl
  | succ n ih =>
    unfold visitSideKeys sideKeyChains
    split
    · rfl
    · cases f.stack? x a with
      | none => rfl
      | some g =>
        cases keys.add x a with
        | none => rfl
        | some m =>
          dsimp only
          split
          · rfl
          · rw [visitFired_eq_each, each_append]
            exact Flow.andThen_congr (ih g m)

theorem visitSideChains_eq_each (f : Field) (s : Strategy) (state : σ) :
    visitSideChains f s visit state = each visit (sideChains f s) state := by
  rw [visitSideChains, sideChains, each_flatMap]
  refine each_congr (fun x _ state => ?_) state
  rw [each_flatMap]
  exact each_congr (fun a _ state => visitSideKeys_eq_each visit s x a 2 f .empty state) state

end

/-- the chains after keys are those of the triggers that have one, each with the keys before it: a
list always has room for both -/
theorem firedFrom_eq (hf : f.Covered) (hcol : ∀ e ∈ keys.entries, 1 ≤ e.x ∧ e.x ≤ 6)
    (hkeys : f.stackAll? keys = some keyed) :
    firedFrom keyed keys s prohibited =
      ((detected keyed s prohibited .fire).filter fun c => 1 ≤ c.field.simulate.2.chains).map
        fun c => ⟨c.field.simulate.1, c.field.simulate.2,
          ⟨keys.entries ++ c.additions.entries⟩⟩ := by
  have hcov : keyed.Covered := by
    obtain ⟨hfit, rfl⟩ := Field.stackAll?_eq_some hcol hkeys
    exact hf.placeAll hfit
  have hchain : ∀ c ∈ detected keyed s prohibited .fire, firedChain? keys c =
      if 1 ≤ c.field.simulate.2.chains then
        some ⟨c.field.simulate.1, c.field.simulate.2, ⟨keys.entries ++ c.additions.entries⟩⟩
      else none := by
    intro c hc
    have hsound := sound_of_mem_detected hcov hc
    have hmerge := Field.merge_bind_stackAll? hf hcol fun e he => (hsound.solid e he).1
    rw [hkeys, Option.bind_some, hsound.stackAll] at hmerge
    obtain ⟨m, hm, _⟩ := Option.bind_eq_some_iff.mp hmerge
    have hentries : m = ⟨keys.entries ++ c.additions.entries⟩ :=
      congrArg Additions.mk (Additions.entries_merge hm)
    unfold firedChain?
    rw [hm, Option.bind_some, hentries]
    -- the chain is never worked out here
    generalize c.field.simulate = r
    obtain ⟨after, result⟩ := r
    dsimp only
    by_cases h : result.chains = 0
    · rw [if_pos h, if_neg (by omega)]
    · rw [if_neg h, if_pos (by omega)]
  rw [firedFrom, List.filterMap_congr hchain, ← List.filterMap_eq_map, List.filterMap_filter]
  simp only [decide_eq_true_eq, Function.comp_apply]

theorem mem_firedFrom_iff (hf : f.Covered) (hcol : ∀ e ∈ keys.entries, 1 ≤ e.x ∧ e.x ≤ 6)
    (hkeys : f.stackAll? keys = some keyed) {c : FiredChain} :
    c ∈ firedFrom keyed keys s prohibited ↔ ∃ d ∈ detected keyed s prohibited .fire,
      1 ≤ d.field.simulate.2.chains ∧ c = ⟨d.field.simulate.1, d.field.simulate.2,
        ⟨keys.entries ++ d.additions.entries⟩⟩ := by
  simp only [firedFrom_eq hf hcol hkeys, List.mem_map, List.mem_filter, decide_eq_true_eq,
    and_assoc, @eq_comm _ c]

/-- what stacks upon keys stacks with them, so the chain is that of both together -/
theorem replays_of_mem_firedFrom (hf : f.Covered) (hkeys : f.stackAll? keys = some keyed)
    (hcol : ∀ e ∈ keys.entries, 1 ≤ e.x ∧ e.x ≤ 6) {c : FiredChain}
    (h : c ∈ firedFrom keyed keys s prohibited) : c.Replays f ∧ 1 ≤ c.result.chains := by
  obtain ⟨d, hd, hpos, rfl⟩ := (mem_firedFrom_iff hf hcol hkeys).mp h
  have hcov : keyed.Covered := by
    obtain ⟨hfits, rfl⟩ := Field.stackAll?_eq_some hcol hkeys
    exact hf.placeAll hfits
  have hsound := sound_of_mem_detected hcov hd
  -- the chain is never worked out here
  generalize hchain : d.field.simulate = r at hpos ⊢
  refine ⟨⟨d.field, ?_, hchain⟩, hpos⟩
  exact Field.stackAll?_append hf hcol (fun e he => (hsound.solid e he).1) rfl hkeys
    hsound.stackAll

theorem replays_of_mem_possibleChains (hf : f.Covered) {maxKeys : Nat} {c : FiredChain}
    (h : c ∈ possibleChains f maxKeys s) : c.Replays f ∧ 1 ≤ c.result.chains := by
  obtain ⟨d, hd, h⟩ := List.mem_flatMap.mp h
  obtain ⟨hstack, hcol⟩ := of_mem_keysUpTo hd
  exact replays_of_mem_firedFrom hf hstack hcol h

theorem replays_of_mem_sideKeyChains (hf : f.Covered)
    (hg : Complements f s.ceiling .empty keys g) {c : FiredChain}
    (h : c ∈ sideKeyChains s x a n g keys) : c.Replays f ∧ 1 ≤ c.result.chains := by
  induction n generalizing g keys with
  | zero => cases h
  | succ n ih =>
    unfold sideKeyChains at h
    split at h
    · cases h
    · rename_i hroom
      split at h
      · rename_i g' m hs hm
        obtain ⟨_, rfl⟩ := (Field.stack?_eq_some_iff g g' x a).mp hs
        have hnext := hg.run hm (ColumnMask.contains_empty x) (by omega) s.ceiling_le
        have hstack := Field.stackAll?_of_fits hf hnext.fits
        rw [← hnext.field] at hstack
        split at h
        · cases h
        · rcases List.mem_append.mp h with h | h
          · exact replays_of_mem_firedFrom hf hstack hnext.fits.column h
          · exact ih hnext h
      · cases h

theorem replays_of_mem_sideChains (hf : f.Covered) {c : FiredChain} (h : c ∈ sideChains f s) :
    c.Replays f ∧ 1 ≤ c.result.chains := by
  obtain ⟨x, _, h⟩ := List.mem_flatMap.mp h
  obtain ⟨a, _, h⟩ := List.mem_flatMap.mp h
  exact replays_of_mem_sideKeyChains hf (complements_empty f s.ceiling .empty) h

/-! ## chains of layers -/

/-- the candidate tops a tower of layers -/
def OnTower (f : Field) (s : Strategy) (c : Candidate) : Prop :=
  ∃ calls below g k l, Tower f s calls below g k ∧ c.Tops f s below ⟨g, l⟩

/-- the visitor with answers that it has no say in -/
def answering {σ : Type} (answer : Candidate → Nat) (visit : Visitor σ Candidate) :
    ChainVisitor σ :=
  fun state c => (visit state c).map fun state => (state, answer c)

/-- after the hashes `hs`, a search shows a list of candidates with the property `P`, whatever
visitor it has -/
def Shows (P : Candidate → Prop) (hs : List UInt64)
    (search : (σ : Type) → Visitor σ Candidate → Seen σ → Flow σ (Seen σ)) : Prop :=
  ∃ cs hs', (∀ c ∈ cs, P c) ∧ ∀ (σ : Type) (visit : Visitor σ Candidate) (state : σ),
    search σ visit ⟨hs, state⟩ = (each visit cs state).map fun state => ⟨hs', state⟩

theorem shows_nil (P : Candidate → Prop) (hs : List UInt64) :
    Shows P hs fun _ _ seen => .proceed seen :=
  ⟨[], hs, nofun, fun _ _ _ => rfl⟩

theorem shows_each {P : Candidate → Prop} {cs : List Candidate}
    {part : (σ : Type) → Visitor σ Candidate → Seen σ → Candidate → Flow σ (Seen σ)}
    (h : ∀ c ∈ cs, ∀ hs, Shows P hs fun σ visit seen => part σ visit seen c) (hs : List UInt64) :
    Shows P hs fun σ visit seen => each (part σ visit) cs seen := by
  induction cs generalizing hs with
  | nil => exact shows_nil P hs
  | cons c cs ih =>
    obtain ⟨hc, hcs⟩ := List.forall_mem_cons.mp h
    obtain ⟨first, hs', hP, hfirst⟩ := hc hs
    obtain ⟨later, hs'', hP', hlater⟩ := ih hcs hs'
    refine ⟨first ++ later, hs'', fun d hd => ?_, fun σ visit state => ?_⟩
    · rcases List.mem_append.mp hd with hd | hd
      · exact hP d hd
      · exact hP' d hd
    · dsimp only at hfirst ⊢
      rw [each_cons, hfirst, each_append, Flow.map_andThen, Flow.andThen_map]
      exact Flow.andThen_congr (hlater σ visit)

variable {calls : List Call} {below : List Layer} {base l : Additions} {c : Candidate}

theorem showLayer_answering {σ : Type} (answer : Candidate → Nat) (visit : Visitor σ Candidate)
    (above : Candidate → Nat → Seen σ → Flow σ (Seen σ)) {hs : List UInt64}
    (hnew : c.field.zobristHash ∉ hs) (state : σ) :
    showLayer (answering answer visit) above k ⟨hs, state⟩ c =
      (visit state c).andThen fun state =>
        if k < answer c then above c (answer c) ⟨c.field.zobristHash :: hs, state⟩
        else .proceed ⟨c.field.zobristHash :: hs, state⟩ := by
  rw [showLayer_of_not_mem hnew]
  unfold answering
  cases visit state c <;> rfl

theorem shows_visitLayers (hf : f.Covered) (answer : Candidate → Nat) {rest : Nat}
    (htower : Tower f s calls below g k) (hbase : base.entries = layerEntries below)
    (hs : List UInt64) : Shows (OnTower f s) hs fun _ visit seen =>
      visitLayers f s (answering answer visit) rest g base k seen := by
  induction rest generalizing g base k below calls hs with
  | zero => exact shows_nil _ hs
  | succ rest ih =>
    simp only [visitLayers_succ]
    refine shows_each (fun c hc hs => ?_) hs
    obtain ⟨l, htops⟩ := exists_tops_of_mem_composed (htower.covered hf) hbase hc
    have hc : OnTower f s c := ⟨calls, below, g, k, l, htower, htops⟩
    by_cases hold : c.field.zobristHash ∈ hs
    · exact ⟨[], hs, nofun, fun _ _ _ => showLayer_of_mem hold⟩
    · by_cases hmore : k < answer c
      · have hup : Tower f s (⟨c, some (answer c)⟩ :: calls) (below ++ [⟨g, l⟩])
            c.field.simulate.1 (answer c) :=
          .layer (htower.mono (List.subset_cons_self _ _)) htops List.mem_cons_self hmore
        obtain ⟨cs, hs', hP, habove⟩ := ih hup htops.entries (c.field.zobristHash :: hs)
        refine ⟨c :: cs, hs', List.forall_mem_cons.mpr ⟨hc, hP⟩, fun σ visit state => ?_⟩
        dsimp only at habove ⊢
        rw [showLayer_answering answer visit _ hold, each_cons, Flow.andThen_map]
        apply Flow.andThen_congr
        intro state
        rw [if_pos hmore]
        exact habove σ visit state
      · refine ⟨[c], c.field.zobristHash :: hs, List.forall_mem_singleton.mpr hc,
          fun σ visit state => ?_⟩
        dsimp only
        rw [showLayer_answering answer visit _ hold, each_singleton]
        simp only [if_neg hmore]
        rfl

/-- the chain of a candidate, with its track -/
def trackedChain (c : Candidate) : TrackedChain :=
  let (after, result, track) := c.field.simulateTracked .empty
  ⟨after, result, c.additions, track⟩

theorem visitTracked_eq {σ : Type} (f : Field) (maxLayers : Nat) (s : Strategy)
    (visit : Visitor σ TrackedChain) (state : σ) :
    visitTracked f maxLayers s visit state =
      visitLayered f s maxLayers (answering (fun c => (trackedChain c).result.chains)
        fun state c => visit state (trackedChain c)) state := by
  unfold visitTracked
  refine congrArg (fun v => visitLayered f s maxLayers v state) ?_
  funext state c
  unfold answering
  dsimp only
  unfold trackedChain
  -- the chain is never worked out here
  generalize c.field.simulateTracked .empty = r
  obtain ⟨after, result, track⟩ := r
  rfl

theorem exists_tracked_list (hf : f.Covered) (s : Strategy) (maxLayers : Nat) :
    ∃ cs : List Candidate, (∀ c ∈ cs, OnTower f s c) ∧
      ∀ (σ : Type) (visit : Visitor σ TrackedChain) (state : σ),
        visitTracked f maxLayers s visit state = each visit (cs.map trackedChain) state := by
  have hground : Tower f s [] [] f 0 := .ground
  have hall : Shows (OnTower f s) [] fun _ visit seen =>
      visitLayers f s (answering (fun c => (trackedChain c).result.chains) visit) maxLayers f
        .empty 0 seen := shows_visitLayers hf _ hground rfl []
  obtain ⟨cs, hs', hP, hshows⟩ := hall
  refine ⟨cs, hP, fun σ visit state => ?_⟩
  have h := hshows σ (fun state c => visit state (trackedChain c)) state
  dsimp only at h
  rw [visitTracked_eq, visitLayered, h, each_map, Flow.map_map]
  exact Flow.map_id _

theorem simulateTracked_eq_trackedChain (c : Candidate) :
    c.field.simulateTracked .empty =
      ((trackedChain c).field, (trackedChain c).result, (trackedChain c).track) ∧
    (trackedChain c).additions = c.additions := by
  unfold trackedChain
  generalize c.field.simulateTracked .empty = r
  exact ⟨rfl, rfl⟩

theorem replays_trackedChain (h : OnTower f s c) : (trackedChain c).Replays f := by
  obtain ⟨_, _, _, _, _, _, htops⟩ := h
  obtain ⟨hchain, hadditions⟩ := simulateTracked_eq_trackedChain c
  refine ⟨c.field, ?_, hchain⟩
  rw [hadditions]
  exact htops.stackAll

/-- at the bottom of what tops a tower are additions that were found on the field itself -/
theorem Tower.exists_root (h : Tower f s calls below g k) (ht : c.Tops f s below ⟨g, l⟩) :
    ∃ d ∈ detected f s .empty .fire, d.additions.entries <+: c.additions.entries := by
  induction h generalizing c l with
  | ground =>
    obtain ⟨d, hd, e⟩ := ht.found
    refine ⟨d, hd, ?_⟩
    rw [ht.entries, layerEntries_append, layerEntries_singleton, e]
    exact List.prefix_refl _
  | layer tower tops _ _ ih =>
    obtain ⟨d, hd, hprefix⟩ := ih tops
    refine ⟨d, hd, hprefix.trans ?_⟩
    rw [ht.entries, tops.entries, layerEntries_append (_ ++ _)]
    exact List.prefix_append _ _

/-- on a settled field the bottom layer starts a chain, and the layers upon it leave it its puyos -/
theorem Tower.chains_pos (hf : f.Exact) (hs : f.Settled) (h : Tower f s calls below g k)
    (ht : c.Tops f s below ⟨g, l⟩) : 1 ≤ c.field.simulate.2.chains := by
  have hcov := hf.covered
  obtain ⟨d, hd, rest, e⟩ := h.exists_root ht
  have hsound := sound_of_mem_detected hcov hd
  obtain ⟨hdfits, hdfield⟩ :=
    Field.stackAll?_eq_some (fun e he => (hsound.solid e he).1) hsound.stackAll
  obtain ⟨hfits, hfield⟩ := h.fits_tops hcov ht
  have hsolid : ∀ e ∈ c.additions.entries, e.color ≠ .empty := fun e he =>
    (h.solid_tops hcov ht e he).2
  have hkept : d.field.KeptIn c.field := by
    rw [← e] at hfits
    rw [hfield, ← e, Field.placeAll_append, hdfield]
    exact (hcov.placeAll hdfits).keptIn_placeAll hfits.of_append
  have hexact : c.field.Exact := by
    rw [hfield]
    exact hf.placeAll hfits hsolid
  have hsettled : c.field.Settled := by
    rw [hfield]
    exact hf.settled_placeAll hs hfits hsolid
  refine c.field.chains_simulate_pos_iff_fires.mpr ?_
  rw [hexact.drop_of_settled hsettled]
  exact hkept.fires hexact.covered (hsound.fires rfl).1

theorem chains_trackedChain_pos (hf : f.Exact) (hs : f.Settled) (h : OnTower f s c) :
    1 ≤ (trackedChain c).result.chains := by
  obtain ⟨_, _, _, _, _, htower, htops⟩ := h
  have hresult := Field.simulateTracked_result c.field .empty
  rw [(simulateTracked_eq_trackedChain c).1] at hresult
  dsimp only at hresult
  rw [hresult]
  exact htower.chains_pos hf hs htops

/-- **Every chain found is the chain of its additions.**  On every field that operations build, each
of the three searches shows a list of chains to whatever visitor it has.  The additions of a chain,
made to the field at once, give the chain: its field, its outcome and, from an empty track on, its
track.  Chains after keys have a step; chains of layers have one where the heights of the field are
exact and it has no gap. -/
theorem found_chains_replay (hf : f.Built) (s : Strategy) (maxKeys maxLayers : Nat) :
    (∀ {σ : Type} (visit : Visitor σ FiredChain) (state : σ),
      visitPossible f maxKeys s visit state =
        each visit (gather (visitPossible f maxKeys s)) state) ∧
    (∀ {σ : Type} (visit : Visitor σ FiredChain) (state : σ),
      visitSideChains f s visit state = each visit (gather (visitSideChains f s)) state) ∧
    (∀ {σ : Type} (visit : Visitor σ TrackedChain) (state : σ),
      visitTracked f maxLayers s visit state =
        each visit (gather (visitTracked f maxLayers s)) state) ∧
    (∀ c ∈ gather (visitPossible f maxKeys s), c.Replays f ∧ 1 ≤ c.result.chains) ∧
    (∀ c ∈ gather (visitSideChains f s), c.Replays f ∧ 1 ≤ c.result.chains) ∧
    (∀ c ∈ gather (visitTracked f maxLayers s), c.Replays f ∧
      (f.Exact → f.Settled → 1 ≤ c.result.chains)) := by
  have hcov := hf.covered
  have hpossible : gather (visitPossible f maxKeys s) = possibleChains f maxKeys s :=
    gather_eq fun visit state => visitPossible_eq_each visit f maxKeys s state
  have hside : gather (visitSideChains f s) = sideChains f s :=
    gather_eq fun visit state => visitSideChains_eq_each visit f s state
  obtain ⟨cs, hcs, hshows⟩ := exists_tracked_list hcov s maxLayers
  have htracked : gather (visitTracked f maxLayers s) = cs.map trackedChain :=
    gather_eq (hshows _)
  rw [hpossible, hside, htracked]
  refine ⟨fun visit state => visitPossible_eq_each visit f maxKeys s state,
    fun visit state => visitSideChains_eq_each visit f s state,
    fun visit state => hshows _ visit state,
    fun c hc => replays_of_mem_possibleChains hcov hc,
    fun c hc => replays_of_mem_sideChains hcov hc, fun c hc => ?_⟩
  obtain ⟨d, hd, rfl⟩ := List.mem_map.mp hc
  exact ⟨replays_trackedChain (hcs d hd), fun hexact hsettled =>
    chains_trackedChain_pos hexact hsettled (hcs d hd)⟩

/-- red puyos on a red key, and a fourth blue one in the layer upon a fourth red one -/
theorem found_chains_replay_twoTowers :
    twoTowers.Built ∧ twoTowers.Exact ∧ twoTowers.Settled ∧
      (∃ c ∈ gather (visitPossible twoTowers 1 ⟨.drop, 1, 3, false⟩),
        c.additions.entries = [⟨3, .red⟩, ⟨2, .red⟩] ∧ c.Replays twoTowers ∧ 1 ≤ c.result.chains) ∧
      ∃ c ∈ gather (visitTracked twoTowers 2 ⟨.drop, 1, 3, false⟩),
        c.additions.entries = [⟨2, .red⟩, ⟨5, .blue⟩] ∧ c.Replays twoTowers ∧
          1 ≤ c.result.chains := by
  have hf : twoTowers.Built := ⟨Field.empty, Or.inl rfl, _, rfl⟩
  have hexact : twoTowers.Exact := by decide +kernel
  have hsettled : twoTowers.Settled := by decide +kernel
  have hkey : ⟨twoTowers.place 3 .red, ⟨[⟨3, .red⟩]⟩⟩ ∈
      keysUpTo twoTowers ⟨.drop, 1, 3, false⟩ .empty 1 1 1 := by decide +kernel
  have hred : ⟨[⟨3, .red⟩, ⟨2, .red⟩]⟩ ∈ (firedFrom (twoTowers.place 3 .red) ⟨[⟨3, .red⟩]⟩
      ⟨.drop, 1, 3, false⟩ .empty).map FiredChain.additions := by decide +kernel
  have hblue : ⟨[⟨2, .red⟩, ⟨5, .blue⟩]⟩ ∈ (gather (visitTracked twoTowers 2
      ⟨.drop, 1, 3, false⟩)).map TrackedChain.additions := by decide +kernel
  obtain ⟨_, _, _, hpossible, _, htracked⟩ := found_chains_replay hf ⟨.drop, 1, 3, false⟩ 1 2
  obtain ⟨c, hc, e⟩ := List.mem_map.mp hred
  have hlist : gather (visitPossible twoTowers 1 ⟨.drop, 1, 3, false⟩) =
      possibleChains twoTowers 1 ⟨.drop, 1, 3, false⟩ :=
    gather_eq fun visit state => visitPossible_eq_each visit _ _ _ state
  have hshown : c ∈ gather (visitPossible twoTowers 1 ⟨.drop, 1, 3, false⟩) := by
    rw [hlist]
    exact List.mem_flatMap.mpr ⟨_, hkey, hc⟩
  obtain ⟨d, hd, e'⟩ := List.mem_map.mp hblue
  obtain ⟨hreplays, hpos⟩ := htracked d hd
  exact ⟨hf, hexact, hsettled, ⟨c, hshown, by rw [e], hpossible c hshown⟩,
    d, hd, by rw [e'], hreplays, hpos hexact hsettled⟩

end PuyoChain
