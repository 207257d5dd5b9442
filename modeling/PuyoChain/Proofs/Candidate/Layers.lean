import PuyoChain.Candidate.Layered
import PuyoChain.Proofs.Candidate.Sound
import PuyoChain.Proofs.Search.Visiting

/-!
# What layered detection shows

* `Call`, `ChainVisitor.logged`   a call of a visitor, and a visitor that keeps its calls;
* `Layer`                additions, and the field on which they were found;
* `Candidate.Tops`       a candidate is made of layers and one more on top of them;
* `Tower`                layers, each found on the field that the chain of those below leaves and
                         answered with more steps than those below;
* `LayerRecord`          what the calls of a visitor are, each on a tower of earlier calls.

One layer is a search through the candidates that it composes (`visitLayers_succ`).  Each of its
calls continues the record (`LayerRecord.concat`), whatever the visitor answers, so whole searches
make records (`visitLayers_ends`).  Every layer adds a puyo, so that from as many layers on as the
field has cells nothing is added any more (`visitLayers_of_capacity_le`).
-/

namespace PuyoChain

/-- one call of a visitor: what it was shown, and what it answered, unless it stopped the search -/
structure Call where
  shown : Candidate
  answer : Option Nat

def Call.hash (c : Call) : UInt64 := c.shown.field.zobristHash

/-- additions that were found on a field -/
structure Layer where
  ground : Field
  additions : Additions

/-- the additions of several layers, from below -/
def layerEntries (layers : List Layer) : List Addition :=
  layers.flatMap fun l => l.additions.entries

/-- the candidate is the field `f` with the additions of the layers `below` and those of a layer on
top, which a detection has found on its ground -/
structure Candidate.Tops (f : Field) (s : Strategy) (below : List Layer) (top : Layer)
    (c : Candidate) : Prop where
  found : ∃ d ∈ detected top.ground s .empty .fire, d.additions = top.additions
  nonempty : top.additions.entries ≠ []
  entries : c.additions.entries = layerEntries (below ++ [top])
  stackAll : f.stackAll? c.additions = some c.field

/-- layers from the ground `f` up, each of them topped an earlier call that was answered with more
steps than the one below; then the field that the last chain leaves, and the answer to it -/
inductive Tower (f : Field) (s : Strategy) (earlier : List Call) :
    List Layer → Field → Nat → Prop where
  | ground : Tower f s earlier [] f 0
  | layer {below : List Layer} {g : Field} {k n : Nat} {l : Additions} {c : Candidate}
      (tower : Tower f s earlier below g k) (tops : c.Tops f s below ⟨g, l⟩)
      (answered : ⟨c, some n⟩ ∈ earlier) (more : k < n) :
      Tower f s earlier (below ++ [⟨g, l⟩]) c.field.simulate.1 n

/-- the call shows at most `maxLayers` layers, all but the top one of which are a tower of earlier
calls -/
def Call.Builds (f : Field) (s : Strategy) (maxLayers : Nat) (earlier : List Call) (c : Call) :
    Prop :=
  ∃ below g k l, Tower f s earlier below g k ∧ c.shown.Tops f s below ⟨g, l⟩ ∧
    below.length + 1 ≤ maxLayers

/-- what the calls of a visitor are: fields of different hashes, each built upon earlier calls -/
structure LayerRecord (f : Field) (s : Strategy) (maxLayers : Nat) (calls : List Call) : Prop where
  distinct : calls.Pairwise fun c d => c.hash ≠ d.hash
  builds : ∀ earlier c, earlier ++ [c] <+: calls → c.Builds f s maxLayers earlier

section
variable {σ : Type}

/-- the visitor, with all its calls kept, in order -/
def ChainVisitor.logged (visit : ChainVisitor σ) : ChainVisitor (σ × List Call) := fun t c =>
  match visit t.1 c with
  | .stop state => .stop (state, t.2 ++ [⟨c, none⟩])
  | .proceed (state, n) => .proceed ((state, t.2 ++ [⟨c, some n⟩]), n)

/-- the calls of a visitor in a layered detection -/
def layeredCalls (f : Field) (s : Strategy) (maxLayers : Nat) (visit : ChainVisitor σ)
    (state : σ) : List Call :=
  (visitLayered f s maxLayers visit.logged (state, [])).state.2

end

variable {f g : Field} {s : Strategy} {maxLayers rest k : Nat} {base l : Additions}
  {below : List Layer} {calls calls' : List Call} {c : Candidate}

theorem layerEntries_append (ls ms : List Layer) :
    layerEntries (ls ++ ms) = layerEntries ls ++ layerEntries ms := List.flatMap_append

theorem layerEntries_singleton (l : Layer) : layerEntries [l] = l.additions.entries :=
  List.flatMap_singleton ..

theorem exists_prefix_of_mem {call : Call} (h : call ∈ calls) :
    ∃ earlier, earlier ++ [call] <+: calls := by
  obtain ⟨earlier, later, e⟩ := List.append_of_mem h
  exact ⟨earlier, later, by rw [e, List.append_assoc, List.singleton_append]⟩

/-! ## one layer -/

/-- the candidates that a layer on the field `g` composes -/
def composed (f : Field) (s : Strategy) (g : Field) (base : Additions) : List Candidate :=
  (layerAdditions g s).filterMap (compose? f base)

section
variable {σ : Type}

/-- what a layer does with a candidate that it has composed; `above` are the layers upon it -/
def showLayer (visit : ChainVisitor σ) (above : Candidate → Nat → Seen σ → Flow σ (Seen σ))
    (previous : Nat) (seen : Seen σ) (c : Candidate) : Flow σ (Seen σ) :=
  let hash := c.field.zobristHash
  if hash ∈ seen.hashes then .proceed seen
  else
    (visit seen.state c).andThen fun (state, chains) =>
      let seen := ⟨hash :: seen.hashes, state⟩
      if previous < chains then above c chains seen else .proceed seen

section
variable {visit : ChainVisitor σ} {above : Candidate → Nat → Seen σ → Flow σ (Seen σ)}
  {previous : Nat} {seen : Seen σ}

theorem showLayer_of_mem (h : c.field.zobristHash ∈ seen.hashes) :
    showLayer visit above previous seen c = .proceed seen := if_pos h

theorem showLayer_of_not_mem (h : c.field.zobristHash ∉ seen.hashes) :
    showLayer visit above previous seen c = (visit seen.state c).andThen fun r =>
      if previous < r.2 then above c r.2 ⟨c.field.zobristHash :: seen.hashes, r.1⟩
      else .proceed ⟨c.field.zobristHash :: seen.hashes, r.1⟩ := if_neg h

end

theorem showLayer_congr {visit : ChainVisitor σ}
    {above above' : Candidate → Nat → Seen σ → Flow σ (Seen σ)} {previous : Nat} {seen : Seen σ}
    (h : ∀ n t, above c n t = above' c n t) :
    showLayer visit above previous seen c = showLayer visit above' previous seen c := by
  have e : above c = above' c := by
    funext n t
    exact h n t
  unfold showLayer
  rw [e]

theorem visitLayers_succ (f : Field) (s : Strategy) (visit : ChainVisitor σ) (rest : Nat)
    (g : Field) (base : Additions) (previous : Nat) (seen : Seen σ) :
    visitLayers f s visit (rest + 1) g base previous seen =
      each (showLayer visit (fun c => visitLayers f s visit rest c.field.simulate.1 c.additions)
        previous) (composed f s g base) seen := by
  rw [visitLayers, composed, ← each_filterMap]
  refine each_congr (fun l _ seen => ?_) seen
  cases compose? f base l with
  | none => rfl
  | some c => rfl

end

/-- what is composed has more additions than the base, and no more than there are cells -/
theorem of_mem_composed (hg : g.Covered) (h : c ∈ composed f s g base) :
    (∃ d ∈ detected g s .empty .fire, d.additions.entries ≠ [] ∧
      c.additions.entries = base.entries ++ d.additions.entries) ∧
    f.stackAll? c.additions = some c.field ∧
    base.size < c.additions.size ∧ c.additions.size ≤ Additions.capacity := by
  obtain ⟨l, hl, hc⟩ := List.mem_filterMap.mp h
  obtain ⟨d, hd, rfl⟩ := List.mem_map.mp hl
  obtain ⟨m, hm, hc⟩ := Option.bind_eq_some_iff.mp hc
  obtain ⟨g', hg', rfl⟩ := Option.map_eq_some_iff.mp hc
  have hsound := sound_of_mem_detected hg hd
  have hentries := Additions.entries_merge hm
  have hpos := List.length_pos_of_ne_nil hsound.nonempty
  refine ⟨⟨d, hd, hsound.nonempty, hentries⟩, hg', ?_, ?_⟩
  · unfold Additions.size
    rw [hentries, List.length_append]
    omega
  · unfold Additions.merge at hm
    split at hm
    · obtain rfl := Option.some.inj hm
      rw [Additions.size, List.length_append]
      assumption
    · cases hm

/-- what is composed upon layers tops them -/
theorem exists_tops_of_mem_composed (hg : g.Covered) (hbase : base.entries = layerEntries below)
    (h : c ∈ composed f s g base) : ∃ l, c.Tops f s below ⟨g, l⟩ := by
  obtain ⟨⟨d, hd, hne, hentries⟩, hstack, _⟩ := of_mem_composed hg h
  refine ⟨d.additions, ⟨d, hd, rfl⟩, hne, ?_, hstack⟩
  rw [hentries, hbase, layerEntries_append, layerEntries_singleton]

/-! ## towers -/

theorem Tower.eq_of_nil (h : Tower f s calls below g k) (hnil : below = []) : f = g := by
  cases h with
  | ground => rfl
  | layer => simp at hnil

theorem Tower.mono (h : Tower f s calls below g k) (hsub : calls ⊆ calls') :
    Tower f s calls' below g k := by
  induction h with
  | ground => exact .ground
  | layer _ tops answered more ih => exact .layer ih tops (hsub answered) more

theorem Tower.covered (hf : f.Covered) (h : Tower f s calls below g k) : g.Covered := by
  cases h with
  | ground => exact hf
  | layer => exact (Field.exact_simulate _).covered

theorem Candidate.Tops.sound (hg : g.Covered) (h : c.Tops f s below ⟨g, l⟩) :
    ∃ d ∈ detected g s .empty .fire, d.Sound g s .empty .fire ∧ d.additions = l := by
  obtain ⟨d, hd, e⟩ := h.found
  exact ⟨d, hd, sound_of_mem_detected hg hd, e⟩

/-- one layer more on layers of puyos on columns of the field -/
theorem Candidate.Tops.solid (hg : g.Covered) (h : c.Tops f s below ⟨g, l⟩)
    (hbelow : ∀ e ∈ layerEntries below, (1 ≤ e.x ∧ e.x ≤ 6) ∧ e.color ≠ .empty) :
    ∀ e ∈ c.additions.entries, (1 ≤ e.x ∧ e.x ≤ 6) ∧ e.color ≠ .empty := by
  obtain ⟨d, _, hsound, hd⟩ := h.sound hg
  intro e he
  rw [h.entries, layerEntries_append, layerEntries_singleton, ← hd, List.mem_append] at he
  rcases he with he | he
  · exact hbelow e he
  · exact hsound.solid e he

theorem Tower.solid (hf : f.Covered) (h : Tower f s calls below g k) :
    ∀ e ∈ layerEntries below, (1 ≤ e.x ∧ e.x ≤ 6) ∧ e.color ≠ .empty := by
  induction h with
  | ground => exact fun e he => absurd he List.not_mem_nil
  | layer tower tops _ _ ih =>
    rw [← tops.entries]
    exact tops.solid (tower.covered hf) ih

section
variable (hf : f.Covered) (h : Tower f s calls below g k) (ht : c.Tops f s below ⟨g, l⟩)
include hf h ht

theorem Tower.solid_tops :
    ∀ e ∈ c.additions.entries, (1 ≤ e.x ∧ e.x ≤ 6) ∧ e.color ≠ .empty :=
  ht.solid (h.covered hf) (h.solid hf)

theorem Tower.fits_tops :
    f.Fits c.additions.entries ∧ c.field = f.placeAll c.additions.entries :=
  Field.stackAll?_eq_some (fun e he => (h.solid_tops hf ht e he).1) ht.stackAll

end

/-! ## records -/

theorem layerRecord_nil (f : Field) (s : Strategy) (maxLayers : Nat) :
    LayerRecord f s maxLayers [] where
  distinct := List.Pairwise.nil
  builds := fun earlier c h => by simp at h

theorem LayerRecord.concat {call : Call} (h : LayerRecord f s maxLayers calls)
    (hnew : ∀ c ∈ calls, c.hash ≠ call.hash) (hbuilds : call.Builds f s maxLayers calls) :
    LayerRecord f s maxLayers (calls ++ [call]) where
  distinct := List.pairwise_append.mpr ⟨h.distinct, List.pairwise_singleton _ call,
    fun c hc d hd => List.mem_singleton.mp hd ▸ hnew c hc⟩
  builds := by
    intro earlier c hprefix
    rcases List.prefix_concat_iff.mp hprefix with e | hprefix
    · obtain ⟨hearlier, hcall⟩ := List.append_inj' e rfl
      rw [hearlier, List.singleton_inj.mp hcall]
      exact hbuilds
    · exact h.builds earlier c hprefix

section
variable {σ : Type} {visit : ChainVisitor σ} {seen : Seen (σ × List Call)}

/-- the calls so far make a record, and all their hashes are seen -/
def Recorded (f : Field) (s : Strategy) (maxLayers : Nat) (seen : Seen (σ × List Call)) : Prop :=
  LayerRecord f s maxLayers seen.state.2 ∧ ∀ c ∈ seen.state.2, c.hash ∈ seen.hashes

/-- layers above a tower go on with the record -/
theorem visitLayers_ends (hf : f.Covered) (hseen : Recorded f s maxLayers seen)
    (htower : Tower f s seen.state.2 below g k) (hbase : base.entries = layerEntries below)
    (hlen : below.length + rest ≤ maxLayers) :
    (visitLayers f s visit.logged rest g base k seen).Ends
      (fun t => LayerRecord f s maxLayers t.2)
      (fun after => Recorded f s maxLayers after ∧ seen.state.2 ⊆ after.state.2) := by
  induction rest generalizing g base k below seen with
  | zero => exact ⟨hseen, List.Subset.refl _⟩
  | succ rest ih =>
    rw [visitLayers_succ]
    refine each_ends (fun c hc t ht => ?_) ⟨hseen, List.Subset.refl _⟩
    obtain ⟨⟨hrecord, hhashes⟩, hsub⟩ := ht
    by_cases hold : c.field.zobristHash ∈ t.hashes
    · rw [showLayer_of_mem hold]
      exact ⟨⟨hrecord, hhashes⟩, hsub⟩
    · rw [showLayer_of_not_mem hold]
      obtain ⟨l, htops⟩ := exists_tops_of_mem_composed (htower.covered hf) hbase hc
      have hchain := htower.mono hsub
      have hcall : ∀ answer, LayerRecord f s maxLayers (t.state.2 ++ [⟨c, answer⟩]) := by
        intro answer
        refine hrecord.concat (fun d hd e => hold ?_) ⟨below, g, k, l, hchain, htops, by omega⟩
        have hmem := hhashes d hd
        rw [e] at hmem
        exact hmem
      unfold ChainVisitor.logged
      cases visit t.state.1 c with
      | stop state => exact hcall none
      | proceed r =>
        obtain ⟨state, n⟩ := r
        have hafter : Recorded f s maxLayers
            ⟨c.field.zobristHash :: t.hashes, (state, t.state.2 ++ [⟨c, some n⟩])⟩ := by
          refine ⟨hcall (some n), fun d hd => ?_⟩
          rcases List.mem_append.mp hd with hd | hd
          · exact List.mem_cons_of_mem _ (hhashes d hd)
          · rw [List.mem_singleton.mp hd]
            exact List.mem_cons_self
        have hlonger : t.state.2 ⊆ t.state.2 ++ [⟨c, some n⟩] := List.subset_append_left _ _
        show (if k < n then _ else Flow.proceed _).Ends _ _
        by_cases hmore : k < n
        · rw [if_pos hmore]
          have hanswered : (⟨c, some n⟩ : Call) ∈ t.state.2 ++ [⟨c, some n⟩] := by simp
          have habove := ih hafter
            (Tower.layer (hchain.mono hlonger) htops hanswered hmore) htops.entries
            (by rw [List.length_append, List.length_singleton]; omega)
          refine habove.mono fun after hend => ⟨hend.1, ?_⟩
          exact List.Subset.trans hsub (List.Subset.trans hlonger hend.2)
        · rw [if_neg hmore]
          exact ⟨hafter, List.Subset.trans hsub hlonger⟩

end

theorem layerRecord_layeredCalls {σ : Type} (hf : f.Covered) (s : Strategy) (maxLayers : Nat)
    (visit : ChainVisitor σ) (state : σ) :
    LayerRecord f s maxLayers (layeredCalls f s maxLayers visit state) := by
  have hstart : Recorded f s maxLayers ⟨[], (state, [])⟩ := ⟨layerRecord_nil f s maxLayers, nofun⟩
  have hends : (visitLayers f s visit.logged maxLayers f .empty 0 ⟨[], (state, [])⟩).Ends _ _ :=
    visitLayers_ends hf hstart Tower.ground rfl (Nat.le_of_eq (Nat.zero_add maxLayers))
  unfold layeredCalls visitLayered
  cases h : visitLayers f s visit.logged maxLayers f .empty 0 ⟨[], (state, [])⟩ with
  | stop t =>
    rw [h] at hends
    exact hends
  | proceed after =>
    rw [h] at hends
    exact hends.1.1

/-! ## the log changes nothing -/

section
variable {σ : Type}

/-- the state of a search with the log left out -/
def Seen.unlogged (seen : Seen (σ × List Call)) : Seen σ := ⟨seen.hashes, seen.state.1⟩

theorem visitLayers_logged (f : Field) (s : Strategy) (visit : ChainVisitor σ) (rest : Nat)
    (g : Field) (base : Additions) (k : Nat) (seen : Seen (σ × List Call)) :
    (visitLayers f s visit.logged rest g base k seen).mapBoth Prod.fst Seen.unlogged =
      visitLayers f s visit rest g base k seen.unlogged := by
  induction rest generalizing g base k seen with
  | zero => rfl
  | succ rest ih =>
    rw [visitLayers_succ, visitLayers_succ]
    refine each_mapBoth (fun c t => ?_) _ seen
    by_cases hold : c.field.zobristHash ∈ t.hashes
    · have hold' : c.field.zobristHash ∈ t.unlogged.hashes := hold
      rw [showLayer_of_mem hold, showLayer_of_mem hold']
      rfl
    · have hold' : c.field.zobristHash ∉ t.unlogged.hashes := hold
      rw [showLayer_of_not_mem hold, showLayer_of_not_mem hold']
      unfold ChainVisitor.logged
      show _ = (visit t.state.1 c).andThen _
      cases visit t.state.1 c with
      | stop state => rfl
      | proceed r =>
        show (if k < r.2 then _ else Flow.proceed _).mapBoth _ _ = if k < r.2 then _ else _
        by_cases hmore : k < r.2
        · rw [if_pos hmore, if_pos hmore]
          exact ih _ _ _ _
        · rw [if_neg hmore, if_neg hmore]
          rfl

theorem visitLayered_logged (f : Field) (s : Strategy) (maxLayers : Nat) (visit : ChainVisitor σ)
    (state : σ) : (visitLayered f s maxLayers visit.logged (state, [])).mapBoth Prod.fst Prod.fst =
      visitLayered f s maxLayers visit state := by
  have h := visitLayers_logged f s visit maxLayers f .empty 0 ⟨[], (state, [])⟩
  unfold visitLayered
  rw [show (⟨[], state⟩ : Seen σ) = Seen.unlogged ⟨[], (state, [])⟩ from rfl, ← h]
  cases visitLayers f s visit.logged maxLayers f .empty 0 ⟨[], (state, [])⟩ <;> rfl

/-! ## how many layers there can be -/

theorem composed_eq_nil (hg : g.Covered) (h : Additions.capacity ≤ base.size) :
    composed f s g base = [] := by
  refine List.eq_nil_iff_forall_not_mem.mpr fun c hc => ?_
  obtain ⟨_, _, hlt, hle⟩ := of_mem_composed hg hc
  omega

/-- a layer adds a puyo, so `room` layers are all that there are where so many more puyos fit -/
theorem visitLayers_of_capacity_le (visit : ChainVisitor σ) {room : Nat} (hg : g.Covered)
    (hroom : Additions.capacity ≤ base.size + room) (hrest : room ≤ rest) (k : Nat)
    (seen : Seen σ) : visitLayers f s visit rest g base k seen =
      visitLayers f s visit room g base k seen := by
  induction room generalizing rest g base k seen with
  | zero =>
    cases rest with
    | zero => rfl
    | succ rest =>
      rw [visitLayers_succ, composed_eq_nil hg hroom]
      rfl
  | succ room ih =>
    obtain ⟨rest, rfl⟩ := Nat.exists_eq_add_of_le' hrest
    show visitLayers f s visit (rest + room + 1) g base k seen = _
    rw [visitLayers_succ, visitLayers_succ]
    refine each_congr (fun c hc seen => ?_) seen
    obtain ⟨_, _, hlt, _⟩ := of_mem_composed hg hc
    exact showLayer_congr fun n t =>
      ih c.field.exact_simulate.covered (by omega) (Nat.le_add_left _ _) n t

end

/-- **What layered detection shows is composed of layers.**  On every field that operations build,
in every mode and for whatever visitor, a layered detection shows fields of different hashes, each
of them made of layers upon earlier ones, at most as many as it may; and what it may beyond one
layer for each cell of the field makes no difference.  The log of the calls leaves the search as it
is. -/
theorem visitLayered_composes (hf : f.Built) (s : Strategy) (maxLayers : Nat) {σ : Type}
    (visit : ChainVisitor σ) (state : σ) :
    (visitLayered f s maxLayers visit.logged (state, [])).mapBoth Prod.fst Prod.fst =
      visitLayered f s maxLayers visit state ∧
    (Additions.capacity ≤ maxLayers → visitLayered f s maxLayers visit state =
      visitLayered f s Additions.capacity visit state) ∧
    ((layeredCalls f s maxLayers visit state).Pairwise fun c d =>
      c.shown.field.zobristHash ≠ d.shown.field.zobristHash) ∧
    (∀ earlier c, earlier ++ [c] <+: layeredCalls f s maxLayers visit state →
      f.stackAll? c.shown.additions = some c.shown.field ∧
      ∃ below g k l, Tower f s earlier below g k ∧ c.shown.Tops f s below ⟨g, l⟩ ∧
        below.length + 1 ≤ maxLayers) := by
  have hrecord := layerRecord_layeredCalls hf.covered s maxLayers visit state
  refine ⟨visitLayered_logged f s maxLayers visit state, fun hmax => ?_, hrecord.distinct,
    fun earlier c hprefix => ?_⟩
  · unfold visitLayered
    rw [visitLayers_of_capacity_le visit hf.covered (Nat.le_add_left _ _) hmax]
  · obtain ⟨below, g, k, l, htower, htops, hlen⟩ := hrecord.builds earlier c hprefix
    exact ⟨htops.stackAll, below, g, k, l, htower, htops, hlen⟩

/-- three red puyos on column 1 and three blue ones on column 6 -/
def twoTowers : Field :=
  Field.empty.run (List.replicate 3 (.stack 1 .red) ++ List.replicate 3 (.stack 6 .blue))

/-- a visitor that takes the number of additions for the number of steps and stops at the second -/
def countAdditions : ChainVisitor Nat := fun n c =>
  if c.additions.size = 2 then .stop n else .proceed (n + 1, c.additions.size)

/-- a blue puyo beside the blue tower tops a red one beside the red tower -/
theorem visitLayered_composes_twoTowers :
    twoTowers.Built ∧
      ∃ earlier c, earlier ++ [c] <+:
          layeredCalls twoTowers ⟨.drop, 1, 3, false⟩ 2 countAdditions 0 ∧
        c.shown.additions.entries = [⟨2, .red⟩, ⟨5, .blue⟩] ∧
        ∃ below g k l, Tower twoTowers ⟨.drop, 1, 3, false⟩ earlier below g k ∧
          c.shown.Tops twoTowers ⟨.drop, 1, 3, false⟩ below ⟨g, l⟩ ∧ below.length + 1 ≤ 2 := by
  have hf : twoTowers.Built := ⟨Field.empty, Or.inl rfl, _, rfl⟩
  have hmem : ⟨[⟨2, .red⟩, ⟨5, .blue⟩]⟩ ∈
      (layeredCalls twoTowers ⟨.drop, 1, 3, false⟩ 2 countAdditions 0).map
        fun c => c.shown.additions := by
    decide +kernel
  obtain ⟨c, hc, e⟩ := List.mem_map.mp hmem
  obtain ⟨earlier, hprefix⟩ := exists_prefix_of_mem hc
  obtain ⟨_, _, _, hbuilds⟩ := visitLayered_composes hf ⟨.drop, 1, 3, false⟩ 2 countAdditions 0
  exact ⟨hf, earlier, c, hprefix, by rw [e], (hbuilds earlier c hprefix).2⟩

end PuyoChain
