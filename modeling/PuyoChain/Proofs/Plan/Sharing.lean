import PuyoChain.Proofs.Field.Firing
import PuyoChain.Proofs.Field.Locking
import PuyoChain.Proofs.Plan.Listing

/-!
# The placements of a node do not see each other

* `resolve_of_chains_eq_zero`   a placement without a chain leaves the field as it is, or fallen;
* `carried_eq_self`             on a settled field every placement hands back the node's field;
* `collectPlans_eq_freshPlans`  so the search finds just the plans that it would find if every
                                placement had a copy of the node's field.
-/

namespace PuyoChain

/-- no known piece has an empty cell -/
def PieceQueue.Solid (queue : PieceQueue) : Prop := ∀ p ∈ queue.pieces, p.Solid

instance (queue : PieceQueue) : Decidable queue.Solid :=
  inferInstanceAs (Decidable (∀ p ∈ queue.pieces, p.Solid))

/-- every known piece has normal colors only -/
def PieceQueue.Normal (queue : PieceQueue) : Prop := ∀ p ∈ queue.pieces, p.Normal

instance (queue : PieceQueue) : Decidable queue.Normal :=
  inferInstanceAs (Decidable (∀ p ∈ queue.pieces, p.Normal))

theorem PieceQueue.Normal.solid {queue : PieceQueue} (h : queue.Normal) : queue.Solid :=
  fun p hp => (h p hp).solid

namespace PlanSearch

/-! ## what is tried -/

theorem mem_choices_iff (queue : PieceQueue) (depth : Nat) (f : Field) (c : Piece × Decision) :
    c ∈ choices queue depth f ↔
      c.1 ∈ kindsAt queue depth ∧ c.2 ∈ Decision.forPiece c.1 ∧
        (DecisionSet.reachable f).contains c.2 = true := by
  unfold choices
  simp only [List.mem_flatMap, List.mem_map, List.mem_filter]
  constructor
  · rintro ⟨p, hp, d, hd, rfl⟩
    exact ⟨hp, hd⟩
  · rintro ⟨hp, hd⟩
    exact ⟨c.1, hp, c.2, hd, rfl⟩

/-- what the known pieces and all kinds have, the pieces to try at a depth have -/
theorem of_mem_kindsAt {P : Piece → Prop} {queue : PieceQueue} (hq : ∀ p ∈ queue.pieces, P p)
    (hk : ∀ p ∈ Piece.kinds, P p) {depth : Nat} {p : Piece} (h : p ∈ kindsAt queue depth) :
    P p := by
  unfold kindsAt at h
  cases e : queue.get? depth with
  | none =>
    rw [e] at h
    exact hk p h
  | some q =>
    rw [e] at h
    rw [List.mem_singleton.mp h]
    exact hq q (List.mem_of_getElem? e)

theorem solid_of_mem_choices {queue : PieceQueue} (hq : queue.Solid) {depth : Nat} {f : Field}
    {c : Piece × Decision} (h : c ∈ choices queue depth f) : c.1.Solid :=
  of_mem_kindsAt hq (by decide) ((mem_choices_iff queue depth f c).mp h).1

/-! ## one placement -/

theorem resolve_of_chains_eq_zero {g : Field} {d : Decision} (h : (resolve g d).2.chains = 0) :
    resolve g d = (if g.firesAfter d then g.drop.1 else g, .zero) := by
  unfold resolve at h ⊢
  by_cases e : g.firesAfter d = true
  · rw [if_pos e] at h
    rw [if_pos e, if_pos e]
    exact Field.simulate_of_chains_eq_zero h
  · rw [if_neg e, if_neg e]

/-- a chain that the search works out starts from the fallen field -/
theorem resolve_of_chains_pos {g : Field} {d : Decision} (h : 0 < (resolve g d).2.chains) :
    resolve g d = g.simulate ∧ g.drop.1.fires = true := by
  unfold resolve at h ⊢
  by_cases e : g.firesAfter d = true
  · rw [if_pos e] at h ⊢
    exact ⟨rfl, (Field.chains_simulate_pos_iff_fires g).mp h⟩
  · rw [if_neg e] at h
    exact absurd h (Nat.lt_irrefl 0)

/-- where no group vanished before, a vanishing group makes the search work out the chain -/
theorem resolve_eq_simulate_of_fires {f g : Field} (hf : f.Covered) (hn : f.fires = false)
    {d : Decision} {p : Piece} (hl : f.lock? d p = some g) (hg : g.fires = true) :
    resolve g d = g.simulate := by
  rcases Field.fires_of_lock? hf hl hg with h | h
  · rw [hn] at h
    cases h
  · exact if_pos h

/-- on a settled field a placement without a chain leaves just the locked piece -/
theorem resolve_eq_locked {f g : Field} (hf : f.Exact) (hs : f.Settled) {d : Decision} {p : Piece}
    (hp : p.Solid) (hl : f.lock? d p = some g) (h : (resolve g d).2.chains = 0) :
    resolve g d = (g, .zero) := by
  have hdrop := (hf.lock? hp hl).drop_of_settled (hf.settled_lock? hs hp hl)
  rw [resolve_of_chains_eq_zero h, hdrop, ite_self]

theorem leaves_of_lock?_eq_none {f : Field} {c : Piece × Decision} (h : f.lock? c.2 c.1 = none) :
    leaves f c = (f, false) := by
  unfold leaves
  rw [h]

theorem leaves_of_lock?_eq_some {f g : Field} {c : Piece × Decision}
    (h : f.lock? c.2 c.1 = some g) :
    leaves f c =
      (if 0 < (resolve g c.2).2.chains then (resolve g c.2).1 else (resolve g c.2).1.unlock c.2,
        decide (0 < (resolve g c.2).2.chains)) := by
  unfold leaves
  rw [h]

/-- on a settled field a placement without a chain hands the field back as it was -/
theorem leaves_eq_self {f : Field} (hf : f.Exact) (hs : f.Settled) {c : Piece × Decision}
    (hp : c.1.Solid) (h : (leaves f c).2 = false) : (leaves f c).1 = f := by
  cases hl : f.lock? c.2 c.1 with
  | none => rw [leaves_of_lock?_eq_none hl]
  | some g =>
    rw [leaves_of_lock?_eq_some hl] at h ⊢
    rw [decide_eq_false_iff_not] at h
    rw [if_neg h, resolve_eq_locked hf hs hp hl (by omega)]
    exact Field.unlock_lock? hf hp hl

theorem carried_eq_self {f : Field} (hf : f.Exact) (hs : f.Settled) {c : Piece × Decision}
    (hp : c.1.Solid) : carried f f c = f := by
  unfold carried
  by_cases h : (leaves f c).2 = true
  · rw [if_pos h]
  · rw [if_neg h]
    exact leaves_eq_self hf hs hp (Bool.eq_false_iff.mpr h)

/-! ## the whole search -/

theorem sharedFrom_eq_flatMap {below : Field → Branch → List Plan} {last : Bool} {branch : Branch}
    {f : Field} {cs : List (Piece × Decision)} (h : ∀ c ∈ cs, carried f f c = f) :
    sharedFrom below last branch f f cs = cs.flatMap (freshFrom below last branch f) := by
  induction cs with
  | nil => rfl
  | cons c cs ih =>
    unfold sharedFrom
    rw [h c List.mem_cons_self, ih fun b hb => h b (List.mem_cons_of_mem c hb), List.flatMap_cons]

/-- only fields that a placement leaves without a chain are searched further -/
theorem freshFrom_congr {below below' : Field → Branch → List Plan} {last : Bool} {branch : Branch}
    {f : Field} {c : Piece × Decision}
    (h : ∀ g, f.lock? c.2 c.1 = some g → (resolve g c.2).2.chains = 0 →
      below (resolve g c.2).1 = below' (resolve g c.2).1) :
    freshFrom below last branch f c = freshFrom below' last branch f c := by
  unfold freshFrom
  cases hl : f.lock? c.2 c.1 with
  | none => rfl
  | some g =>
    dsimp only
    by_cases h0 : 0 < (resolve g c.2).2.chains
    · rw [decide_eq_true h0, Bool.or_true, if_pos rfl, if_pos rfl]
    · rw [h g hl (by omega)]

theorem sharedPlans_eq_freshPlans {queue : PieceQueue} (hq : queue.Solid) (rest depth : Nat)
    {f : Field} (hf : f.Exact) (hs : f.Settled) (branch : Branch) :
    sharedPlans queue rest depth f branch = freshPlans queue rest depth f branch := by
  induction rest generalizing depth f branch with
  | zero => rfl
  | succ rest ih =>
    unfold sharedPlans freshPlans
    rw [sharedFrom_eq_flatMap fun c hc => carried_eq_self hf hs (solid_of_mem_choices hq hc)]
    refine List.flatMap_congr fun c hc => freshFrom_congr fun g hl h0 => ?_
    have hp := solid_of_mem_choices hq hc
    rw [resolve_eq_locked hf hs hp hl h0]
    funext b
    exact ih (depth + 1) (hf.lock? hp hl) (hf.settled_lock? hs hp hl) b

/-- **Taking pieces off again is never seen.**  On a settled field with exact heights the search,
whose placements share one working field, finds the plans that it would find with a fresh copy of
the node's field for every placement. -/
theorem collectPlans_eq_freshPlans {f : Field} (hf : f.Exact) (hs : f.Settled) {queue : PieceQueue}
    (hq : queue.Solid) (maxDepth : Nat) :
    collectPlans f queue maxDepth = freshPlans queue maxDepth 0 f .start := by
  rw [collectPlans_eq]
  exact sharedPlans_eq_freshPlans hq maxDepth 0 hf hs .start

/-- three red and three blue puyos on the floor -/
def redBlueFloor : Field :=
  Field.empty.placeAll [⟨1, .red⟩, ⟨2, .red⟩, ⟨3, .red⟩, ⟨4, .blue⟩, ⟨5, .blue⟩, ⟨6, .blue⟩]

/-- on this floor some placements of a red piece fire and others do not -/
theorem collectPlans_eq_freshPlans_redBlueFloor :
    (redBlueFloor.Exact ∧ redBlueFloor.Settled ∧ PieceQueue.Solid ⟨[⟨.red, .red⟩]⟩) ∧
      collectPlans redBlueFloor ⟨[⟨.red, .red⟩]⟩ 1 =
        freshPlans ⟨[⟨.red, .red⟩]⟩ 1 0 redBlueFloor .start ∧
      (collectPlans redBlueFloor ⟨[⟨.red, .red⟩]⟩ 1).length = 11 ∧
      (collectPlans redBlueFloor ⟨[⟨.red, .red⟩]⟩ 1).countP Plan.hasChain = 6 :=
  ⟨by decide +kernel,
    collectPlans_eq_freshPlans (by decide +kernel) (by decide +kernel) (by decide) 1,
    by decide +kernel, by decide +kernel⟩

end PlanSearch

end PuyoChain
