import PuyoChain.Proofs.Plan.Fallen

/-!
# The search apart for each first placement

* `falseAlarm`   a placement after which the search works out a chain, and there is none;
* `marked`       the placements of a node, each with whether the search tries it on the fallen field;
* `sharedFrom_eq_marked`         after a false alarm the working field stays fallen until a chain;
* `collectPlansByRoot_eq_iff`    the two searches find the same plans just if none of the placements
                                 tried on the fallen field gives another plan there.

A false alarm works gravity into the working field, which taking the piece off again does not undo
(`unlock_drop_lock?`).
-/

namespace PuyoChain

/-! ## lists of lists -/

section
variable {α β : Type}

theorem length_flatMap_le {F G : α → List β} {l : List α}
    (h : ∀ a ∈ l, (F a).length ≤ (G a).length) : (l.flatMap F).length ≤ (l.flatMap G).length := by
  induction l with
  | nil => exact Nat.le_refl _
  | cons a l ih =>
    have ha := h a List.mem_cons_self
    have hl := ih fun b hb => h b (List.mem_cons_of_mem a hb)
    rw [List.flatMap_cons, List.flatMap_cons, List.length_append, List.length_append]
    omega

/-- lists that agree in one row, and none of which is longer than its counterpart, agree each -/
theorem eq_of_flatMap_eq {F G : α → List β} {l : List α}
    (hle : ∀ a ∈ l, (F a).length ≤ (G a).length) (h : l.flatMap F = l.flatMap G) :
    ∀ a ∈ l, F a = G a := by
  induction l with
  | nil =>
    intro a ha
    cases ha
  | cons a l ih =>
    have hle' : ∀ b ∈ l, (F b).length ≤ (G b).length :=
      fun b hb => hle b (List.mem_cons_of_mem a hb)
    have ha := hle a List.mem_cons_self
    have hl := length_flatMap_le hle'
    rw [List.flatMap_cons, List.flatMap_cons] at h
    have hlen := congrArg List.length h
    rw [List.length_append, List.length_append] at hlen
    obtain ⟨hhead, htail⟩ := List.append_inj h (by omega)
    intro b hb
    rcases List.mem_cons.mp hb with rfl | hb
    · exact hhead
    · exact ih hle' htail b hb

end

namespace PlanSearch

/-! ## the working field of a node -/

/-- the search works out a chain after the placement, and there is none -/
def falseAlarm (f : Field) (c : Piece × Decision) : Bool :=
  match f.lock? c.2 c.1 with
  | none => false
  | some g => g.firesAfter c.2 && g.simulate.2.chains == 0

/-- the working field, as it is or fallen -/
def workAt (f : Field) (fallen : Bool) : Field := if fallen then f.drop.1 else f

/-- the placements of a node, each with whether it is tried on the fallen field: from a false alarm
on, until one starts a chain -/
def marked (f : Field) : Bool → List (Piece × Decision) → List (Bool × (Piece × Decision))
  | _, [] => []
  | fallen, c :: cs =>
    (fallen, c) :: marked f (if fallen then !(leaves f.drop.1 c).2 else falseAlarm f c) cs

theorem map_snd_marked (f : Field) (fallen : Bool) (cs : List (Piece × Decision)) :
    (marked f fallen cs).map Prod.snd = cs := by
  induction cs generalizing fallen with
  | nil => rfl
  | cons c cs ih =>
    unfold marked
    rw [List.map_cons, ih]

/-- a placement on the field leaves it fallen just after a false alarm -/
theorem carried_eq_of_falseAlarm {f : Field} (hf : f.Exact) {c : Piece × Decision}
    (hp : c.1.Solid) : carried f f c = workAt f (falseAlarm f c) := by
  unfold carried falseAlarm
  cases hl : f.lock? c.2 c.1 with
  | none =>
    rw [leaves_of_lock?_eq_none hl]
    rfl
  | some g =>
    rw [leaves_of_lock?_eq_some hl]
    by_cases h : 0 < (resolve g c.2).2.chains
    · obtain ⟨hsim, _⟩ := resolve_of_chains_pos h
      have hn : (g.simulate.2.chains == 0) = false := by
        rw [beq_eq_false_iff_ne, ← hsim]
        omega
      dsimp only
      rw [if_pos (decide_eq_true h), hn, Bool.and_false]
      rfl
    · have hres := resolve_of_chains_eq_zero (g := g) (d := c.2) (by omega)
      dsimp only
      rw [if_neg (by simpa using h), if_neg h, hres]
      by_cases e : g.firesAfter c.2 = true
      · have hz : g.simulate.2.chains = 0 := by
          have : resolve g c.2 = g.simulate := if_pos e
          rw [this] at h
          omega
        rw [if_pos e, e, hz]
        exact Field.unlock_drop_lock? hf hp hl
      · rw [if_neg e, Bool.eq_false_iff.mpr e]
        exact Field.unlock_lock? hf hp hl

/-- the fallen field stays the working field until a chain -/
theorem carried_drop {f : Field} {c : Piece × Decision} (hp : c.1.Solid) :
    carried f f.drop.1 c = workAt f (!(leaves f.drop.1 c).2) := by
  unfold carried
  by_cases h : (leaves f.drop.1 c).2 = true
  · rw [if_pos h, h]
    rfl
  · rw [if_neg h, Bool.eq_false_iff.mpr h,
      leaves_eq_self f.exact_drop f.settled_drop hp (Bool.eq_false_iff.mpr h)]
    rfl

theorem sharedFrom_eq_marked {f : Field} (hf : f.Exact) {below : Field → Branch → List Plan}
    {last : Bool} {branch : Branch} {cs : List (Piece × Decision)} (hp : ∀ c ∈ cs, c.1.Solid)
    (fallen : Bool) :
    sharedFrom below last branch f (workAt f fallen) cs =
      (marked f fallen cs).flatMap fun m => freshFrom below last branch (workAt f m.1) m.2 := by
  induction cs generalizing fallen with
  | nil => rfl
  | cons c cs ih =>
    have hc := hp c List.mem_cons_self
    have ih' := ih fun b hb => hp b (List.mem_cons_of_mem c hb)
    unfold sharedFrom marked
    rw [List.flatMap_cons]
    cases fallen with
    | false =>
      rw [show workAt f false = f from rfl, carried_eq_of_falseAlarm hf hc, ih']
      rfl
    | true =>
      rw [show workAt f true = f.drop.1 from rfl, carried_drop hc, ih']
      rfl

/-- a false alarm shows that the fallen field has no vanishing group -/
theorem fires_drop_of_falseAlarm {f : Field} (hf : f.Covered) {c : Piece × Decision}
    (hp : c.1.Solid) (h : falseAlarm f c = true) : f.drop.1.fires = false := by
  unfold falseAlarm at h
  cases hl : f.lock? c.2 c.1 with
  | none =>
    rw [hl] at h
    cases h
  | some g =>
    rw [hl] at h
    dsimp only at h
    rw [Bool.and_eq_true, beq_iff_eq] at h
    rw [Bool.eq_false_iff]
    intro hfires
    have hg := (Field.keptIn_drop_lock? hf hp hl).fires g.exact_drop.covered hfires
    rw [← Field.chains_simulate_pos_iff_fires, h.2] at hg
    exact Nat.lt_irrefl 0 hg

/-- a placement is tried on the fallen field only where that has no vanishing group -/
theorem fires_drop_of_mem_marked {f : Field} (hf : f.Covered) {cs : List (Piece × Decision)}
    (hp : ∀ c ∈ cs, c.1.Solid) {fallen : Bool} (hfallen : fallen = true → f.drop.1.fires = false)
    {c : Piece × Decision} (h : (true, c) ∈ marked f fallen cs) : f.drop.1.fires = false := by
  induction cs generalizing fallen with
  | nil => cases h
  | cons b cs ih =>
    unfold marked at h
    rcases List.mem_cons.mp h with e | h
    · exact hfallen (Prod.mk.inj e).1.symm
    · refine ih (fun c hc => hp c (List.mem_cons_of_mem b hc)) (fun e => ?_) h
      cases fallen with
      | false => exact fires_drop_of_falseAlarm hf (hp b List.mem_cons_self) e
      | true => exact hfallen rfl

/-! ## the plans of one placement -/

/-- the plan of a placement at the last depth, or what it leads to -/
theorem freshFrom_eq_flatMap (below : Field → Branch → List Plan) (last : Bool) (branch : Branch)
    (f : Field) (c : Piece × Decision) :
    freshFrom below last branch f c =
      (freshFrom below true branch f c).flatMap fun plan =>
        if last || plan.hasChain then [plan]
        else below plan.field
          ⟨plan.decisions, plan.splits, plan.framesToInitiate + plan.lastDropFrames⟩ := by
  unfold freshFrom
  cases f.lock? c.2 c.1 with
  | none => rfl
  | some g =>
    dsimp only
    by_cases hn : (!(resolve g c.2).1.isEmpty Cell.neck.x Cell.neck.y) = true
    · rw [if_pos hn, if_pos hn]
      rfl
    · rw [if_neg hn, if_neg hn, Bool.true_or, if_pos rfl, List.flatMap_singleton]
      rfl

theorem freshFrom_last (below below' : Field → Branch → List Plan) (branch : Branch) (f : Field)
    (c : Piece × Decision) : freshFrom below true branch f c = freshFrom below' true branch f c := by
  unfold freshFrom
  cases f.lock? c.2 c.1 with
  | none => rfl
  | some g =>
    dsimp only
    rw [Bool.true_or, if_pos rfl, if_pos rfl]

theorem length_freshFrom_last (below : Field → Branch → List Plan) (branch : Branch) (f : Field)
    (c : Piece × Decision) :
    (freshFrom below true branch f c).length ≤ 1 ∧
      (0 < (freshFrom below true branch f c).length ↔ Yields f c) := by
  unfold freshFrom Yields
  cases f.lock? c.2 c.1 with
  | none => simp
  | some g =>
    dsimp only
    by_cases hn : (resolve g c.2).1.isEmpty Cell.neck.x Cell.neck.y = true
    · rw [hn, Bool.not_true, if_neg Bool.false_ne_true, Bool.true_or, if_pos rfl]
      exact ⟨Nat.le_refl 1, fun _ => ⟨g, rfl, hn⟩, fun _ => Nat.one_pos⟩
    · rw [Bool.eq_false_iff.mpr hn, Bool.not_false, if_pos rfl]
      refine ⟨Nat.zero_le 1, fun h => absurd h (Nat.lt_irrefl 0), ?_⟩
      rintro ⟨g', e, hg'⟩
      rw [← Option.some.inj e] at hg'
      exact absurd hg' hn

/-- a placement with the same plan on two fields at the last depth has the same plans at any -/
theorem plansFrom_congr {f g : Field} {queue : PieceQueue} {c : Piece × Decision}
    (h : plansFrom g queue 0 c = plansFrom f queue 0 c) (rest : Nat) :
    plansFrom g queue rest c = plansFrom f queue rest c := by
  have hlast : ∀ e : Field, freshFrom (sharedPlans queue rest 1) true .start e c =
      plansFrom e queue 0 c := by
    intro e
    rw [plansFrom_eq]
    exact freshFrom_last _ _ _ e c
  rw [plansFrom_eq, plansFrom_eq, freshFrom_eq_flatMap, freshFrom_eq_flatMap _ _ _ f, hlast, hlast,
    h]

/-- what a placement yields on the field, it yields on the fallen field -/
theorem length_plansFrom_le {f : Field} (hf : f.Exact) {queue : PieceQueue} (hq : queue.Solid)
    (hn : f.drop.1.fires = false) {c : Piece × Decision} (hc : c ∈ choices queue 0 f) :
    (plansFrom f queue 0 c).length ≤ (plansFrom f.drop.1 queue 0 c).length := by
  have hreach := ((mem_choices_iff queue 0 f c).mp hc).2.2
  have hopen := Field.neckOpen_of_contains hf.covered hreach
  rw [plansFrom_eq, plansFrom_eq]
  have hone := length_freshFrom_last (sharedPlans queue 0 1) .start f c
  have hdrop := length_freshFrom_last (sharedPlans queue 0 1) .start f.drop.1 c
  show (freshFrom (sharedPlans queue 0 1) true .start f c).length ≤
    (freshFrom (sharedPlans queue 0 1) true .start f.drop.1 c).length
  by_cases h : 0 < (freshFrom (sharedPlans queue 0 1) true .start f c).length
  · have hy := yields_drop hf hopen hn (solid_of_mem_choices hq hc) (hone.2.mp h)
    have := hdrop.2.mpr hy
    omega
  · omega

/-! ## both searches -/

theorem collectPlans_succ {f : Field} (hf : f.Exact) {queue : PieceQueue} (hq : queue.Solid)
    (rest : Nat) :
    collectPlans f queue (rest + 1) =
      (marked f false (choices queue 0 f)).flatMap fun m =>
        plansFrom (workAt f m.1) queue rest m.2 := by
  simp only [plansFrom_eq]
  rw [collectPlans_eq]
  exact sharedFrom_eq_marked hf (fun _ hc => solid_of_mem_choices hq hc) false

theorem collectPlansByRoot_succ (f : Field) (queue : PieceQueue) (rest : Nat) :
    collectPlansByRoot f queue (rest + 1) =
      (marked f false (choices queue 0 f)).flatMap fun m => plansFrom f queue rest m.2 := by
  rw [← List.flatMap_map Prod.snd, map_snd_marked]
  rfl

/-- the searches agree at every depth where no placement tried on the fallen field tells it from the
field at the last depth -/
theorem collectPlansByRoot_eq {f : Field} (hf : f.Exact) {queue : PieceQueue} (hq : queue.Solid)
    (h : ∀ c, (true, c) ∈ marked f false (choices queue 0 f) →
      plansFrom f.drop.1 queue 0 c = plansFrom f queue 0 c) (maxDepth : Nat) :
    collectPlansByRoot f queue maxDepth = collectPlans f queue maxDepth := by
  cases maxDepth with
  | zero =>
    rw [collectPlans_eq]
    rfl
  | succ rest =>
    rw [collectPlansByRoot_succ, collectPlans_succ hf hq]
    refine List.flatMap_congr fun m hm => ?_
    obtain ⟨fallen, c⟩ := m
    cases fallen with
    | false => rfl
    | true => exact (plansFrom_congr (h c hm) rest).symm

theorem collectPlansByRoot_eq_of_settled {f : Field} (hf : f.Exact) (hs : f.Settled)
    {queue : PieceQueue} (hq : queue.Solid) (maxDepth : Nat) :
    collectPlansByRoot f queue maxDepth = collectPlans f queue maxDepth :=
  collectPlansByRoot_eq hf hq (fun c _ => by rw [hf.drop_of_settled hs]) maxDepth

/-- **When the search apart for each first placement finds the same plans.**  It does, at every
depth, just if no placement that the other search tries on the fallen field, after a false alarm,
gives another plan there. -/
theorem collectPlansByRoot_eq_iff {f : Field} (hf : f.Exact) {queue : PieceQueue}
    (hq : queue.Normal) :
    (∀ maxDepth, collectPlansByRoot f queue maxDepth = collectPlans f queue maxDepth) ↔
      ∀ c, (true, c) ∈ marked f false (choices queue 0 f) →
        plansFrom f.drop.1 queue 0 c = plansFrom f queue 0 c := by
  constructor
  · intro h c hc
    have h1 := h 1
    rw [collectPlansByRoot_succ, collectPlans_succ hf hq.solid] at h1
    refine (eq_of_flatMap_eq (fun m hm => ?_) h1 (true, c) hc).symm
    obtain ⟨fallen, b⟩ := m
    cases fallen with
    | false => exact Nat.le_refl _
    | true =>
      have hn := fires_drop_of_mem_marked hf.covered
        (fun _ hc => solid_of_mem_choices hq.solid hc) (fun e => absurd e Bool.false_ne_true) hm
      refine length_plansFrom_le hf hq.solid hn ?_
      rw [← map_snd_marked f false (choices queue 0 f)]
      exact List.mem_map.mpr ⟨_, hm, rfl⟩
  · exact collectPlansByRoot_eq hf hq.solid

/-- a field with puyos in the air -/
def hangingField : Field :=
  [(3, 1, Color.garbage), (2, 2, .red), (3, 2, .garbage), (1, 3, .red), (2, 3, .blue),
    (3, 3, .blue), (2, 6, .red)].foldl (fun f (x, y, a) => f.set x y a) .empty

/-- no placement of a green piece raises a false alarm there -/
theorem collectPlansByRoot_eq_iff_hangingField :
    (hangingField.Exact ∧ PieceQueue.Normal ⟨[⟨.green, .green⟩]⟩) ∧
      ∀ maxDepth, collectPlansByRoot hangingField ⟨[⟨.green, .green⟩]⟩ maxDepth =
        collectPlans hangingField ⟨[⟨.green, .green⟩]⟩ maxDepth := by
  have hf : hangingField.Exact := by decide +kernel
  have hq : PieceQueue.Normal ⟨[⟨.green, .green⟩]⟩ := by decide
  have hm : ∀ m ∈ marked hangingField false (choices ⟨[⟨.green, .green⟩]⟩ 0 hangingField),
      m.1 = false := by decide +kernel
  refine ⟨⟨hf, hq⟩, (collectPlansByRoot_eq_iff hf hq).mpr fun c hc => ?_⟩
  cases hm (true, c) hc

/-- a blue piece beside the blue puyos does, and the next placements find the others fallen -/
theorem collectPlansByRoot_ne_hangingField :
    (hangingField.Exact ∧ PieceQueue.Normal ⟨[⟨.blue, .blue⟩]⟩) ∧
      collectPlansByRoot hangingField ⟨[⟨.blue, .blue⟩]⟩ 1 ≠
        collectPlans hangingField ⟨[⟨.blue, .blue⟩]⟩ 1 := by
  have hf : hangingField.Exact := by decide +kernel
  have hq : PieceQueue.Normal ⟨[⟨.blue, .blue⟩]⟩ := by decide
  exact ⟨⟨hf, hq⟩, by decide +kernel⟩

end PlanSearch

end PuyoChain
