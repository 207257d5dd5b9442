import PuyoChain.Proofs.Placement
import PuyoChain.Proofs.Plan.Sharing

/-!
# Every plan replays

* `Turn`, `Turn.play?`   one placement and the whole chain after it;
* `replay`               several placements, each with its chain, one after the other;
* `Line`                 the lines of play that the search follows below a node;
* `Records`              the plan that the search makes of a line of play.

Below a settled field without vanishing groups every plan records a line (`exists_line`), although
the search leaves out the chains that `firesAfter` rules out: the search goes on from fields of the
same kind only, where that is no difference (`resolve_eq_simulate`).
-/

namespace PuyoChain

/-- one placement and the whole chain after it -/
structure Turn where
  before : Field
  piece : Piece
  decision : Decision
  after : Field
  result : ChainResult

namespace Turn

/-- the turn of a placement on a field, if the piece can lock there -/
def play? (f : Field) (c : Piece × Decision) : Option Turn :=
  (f.lock? c.2 c.1).map fun locked => ⟨f, c.1, c.2, locked.simulate.1, locked.simulate.2⟩

/-- what was placed where -/
def choice (t : Turn) : Piece × Decision := (t.piece, t.decision)

def splits (t : Turn) : Bool := t.before.splits t.decision

def frames (t : Turn) : Nat := t.before.placementFrames t.decision

def framesOf : List Turn → Nat
  | [] => 0
  | t :: ts => t.frames + framesOf ts

end Turn

/-- the turns of some placements, one after the other, if every piece can lock -/
def replay : Field → List (Piece × Decision) → Option (List Turn)
  | _, [] => some []
  | f, c :: cs => (Turn.play? f c).bind fun t => (replay t.after cs).map fun ts => t :: ts

namespace PlanSearch

/-- a turn that the search takes at a depth -/
structure Allowed (queue : PieceQueue) (depth : Nat) (t : Turn) : Prop where
  piece : t.piece ∈ kindsAt queue depth
  decision : t.decision ∈ Decision.forPiece t.piece
  contained : (DecisionSet.reachable t.before).contains t.decision = true
  reachable : isReachable t.before t.decision = true
  neck : t.after.isEmpty Cell.neck.x Cell.neck.y = true

/-- the lines of play below a node at a depth, over at most `rest` further placements: they end with
a chain or at the last depth -/
inductive Line (queue : PieceQueue) : (rest depth : Nat) → Field → List Turn → Prop
  | last {rest depth : Nat} {f : Field} {t : Turn} (play : Turn.play? f t.choice = some t)
      (allowed : Allowed queue depth t) (ended : rest = 0 ∨ 0 < t.result.chains) :
      Line queue (rest + 1) depth f [t]
  | turn {rest depth : Nat} {f : Field} {t : Turn} {ts : List Turn}
      (play : Turn.play? f t.choice = some t) (allowed : Allowed queue depth t)
      (quiet : t.result.chains = 0) (further : Line queue rest (depth + 1) t.after ts) :
      Line queue (rest + 1) depth f (t :: ts)

/-- the plan says of the branch and the turns after it what they are -/
structure Records (branch : Branch) (ts : List Turn) (plan : Plan) : Prop where
  decisions : plan.decisions = branch.decisions ++ ts.map Turn.decision
  splits : plan.splits = branch.splits + ts.countP Turn.splits
  frames : plan.framesToInitiate = branch.frames + Turn.framesOf ts.dropLast
  last : ∃ t, ts.getLast? = some t ∧ plan.field = t.after ∧ plan.result = t.result ∧
    plan.lastDropFrames = t.frames

/-! ## lines of play -/

section
variable {queue : PieceQueue} {rest depth : Nat} {f : Field} {ts : List Turn}

theorem Line.replay (h : Line queue rest depth f ts) :
    replay f (ts.map Turn.choice) = some ts := by
  induction h with
  | last play _ _ =>
    rw [List.map_cons, PuyoChain.replay, play]
    rfl
  | turn play _ _ _ ih =>
    rw [List.map_cons, PuyoChain.replay, play, Option.bind_some, ih]
    rfl

theorem Line.length (h : Line queue rest depth f ts) : 1 ≤ ts.length ∧ ts.length ≤ rest := by
  induction h with
  | last _ _ _ =>
    rw [List.length_singleton]
    omega
  | turn _ _ _ _ ih =>
    rw [List.length_cons]
    omega

theorem Line.allowed (h : Line queue rest depth f ts) (i : Nat) (t : Turn)
    (ht : ts[i]? = some t) : Allowed queue (depth + i) t := by
  induction h generalizing i with
  | last _ allowed _ =>
    cases i with
    | zero =>
      cases ht
      exact allowed
    | succ i => cases ht
  | @turn rest depth f t' ts _ allowed _ _ ih =>
    cases i with
    | zero =>
      cases ht
      exact allowed
    | succ i =>
      rw [show depth + (i + 1) = depth + 1 + i by omega]
      exact ih i ht

theorem Line.quiet (h : Line queue rest depth f ts) : ∀ t ∈ ts.dropLast, t.result.chains = 0 := by
  induction h with
  | last _ _ _ =>
    intro t ht
    cases ht
  | @turn rest depth f t ts _ _ quiet further ih =>
    have hne : ts ≠ [] := List.ne_nil_of_length_pos further.length.1
    rw [List.dropLast_cons_of_ne_nil hne]
    intro u hu
    rcases List.mem_cons.mp hu with rfl | hu
    · exact quiet
    · exact ih u hu

/-- a line that is shorter than it may be ends with a chain -/
theorem Line.fires (h : Line queue rest depth f ts) (hlt : ts.length < rest) (t : Turn)
    (ht : ts.getLast? = some t) : 0 < t.result.chains := by
  induction h with
  | @last rest depth f t' _ _ ended =>
    rw [List.length_singleton] at hlt
    cases ht
    exact ended.resolve_left (by omega)
  | @turn rest depth f t' ts _ _ _ further ih =>
    have hne : ts ≠ [] := List.ne_nil_of_length_pos further.length.1
    rw [List.length_cons] at hlt
    rw [List.getLast?_cons_of_ne_nil hne] at ht
    exact ih (by omega) ht

end

/-! ## records -/

theorem records_singleton (branch : Branch) (t : Turn) :
    Records branch [t] ⟨t.after, branch.decisions ++ [t.decision], t.result,
      branch.splits + t.splits.toNat, branch.frames, t.frames⟩ where
  decisions := rfl
  splits := by
    rw [List.countP_singleton]
    cases t.splits <;> rfl
  frames := rfl
  last := ⟨t, rfl, rfl, rfl, rfl⟩

theorem Records.cons {branch : Branch} {t : Turn} {ts : List Turn} {plan : Plan}
    (h : Records ⟨branch.decisions ++ [t.decision], branch.splits + t.splits.toNat,
      branch.frames + t.frames⟩ ts plan) : Records branch (t :: ts) plan := by
  obtain ⟨last, hlast, hplan⟩ := h.last
  have hne : ts ≠ [] := by
    rintro rfl
    cases hlast
  constructor
  · rw [h.decisions, List.map_cons, List.append_assoc]
    rfl
  · rw [h.splits, List.countP_cons]
    cases t.splits with
    | false => simp
    | true =>
      simp
      omega
  · rw [h.frames, List.dropLast_cons_of_ne_nil hne, Turn.framesOf, Nat.add_assoc]
  · exact ⟨last, by rw [List.getLast?_cons_of_ne_nil hne, hlast], hplan⟩

/-! ## every plan records a line of play -/

theorem mem_freshFrom {below : Field → Branch → List Plan} {last : Bool} {branch : Branch}
    {f : Field} {c : Piece × Decision} {plan : Plan}
    (h : plan ∈ freshFrom below last branch f c) :
    ∃ g, f.lock? c.2 c.1 = some g ∧
      (resolve g c.2).1.isEmpty Cell.neck.x Cell.neck.y = true ∧
      ((last = true ∨ 0 < (resolve g c.2).2.chains) ∧
          plan = ⟨(resolve g c.2).1, branch.decisions ++ [c.2], (resolve g c.2).2,
            branch.splits + (f.splits c.2).toNat, branch.frames, f.placementFrames c.2⟩ ∨
        (resolve g c.2).2.chains = 0 ∧
          plan ∈ below (resolve g c.2).1 ⟨branch.decisions ++ [c.2],
            branch.splits + (f.splits c.2).toNat, branch.frames + f.placementFrames c.2⟩) := by
  unfold freshFrom at h
  cases hl : f.lock? c.2 c.1 with
  | none =>
    rw [hl] at h
    cases h
  | some g =>
    rw [hl] at h
    dsimp only at h
    refine ⟨g, rfl, ?_⟩
    by_cases hn : (resolve g c.2).1.isEmpty Cell.neck.x Cell.neck.y = true
    · rw [hn, if_neg (by decide)] at h
      refine ⟨hn, ?_⟩
      by_cases he : (last || decide (0 < (resolve g c.2).2.chains)) = true
      · rw [if_pos he] at h
        rw [Bool.or_eq_true, decide_eq_true_iff] at he
        exact Or.inl ⟨he, List.mem_singleton.mp h⟩
      · rw [if_neg he] at h
        rw [Bool.or_eq_true, decide_eq_true_iff, not_or] at he
        exact Or.inr ⟨by omega, h⟩
    · rw [Bool.not_eq_true] at hn
      rw [hn] at h
      cases h

/-- on a settled field without vanishing groups the search works out every chain that there is -/
theorem resolve_eq_simulate {f g : Field} (hf : f.Exact) (hs : f.Settled) (hn : f.fires = false)
    {d : Decision} {p : Piece} (hp : p.Solid) (hl : f.lock? d p = some g) :
    resolve g d = g.simulate := by
  unfold resolve
  by_cases h : g.firesAfter d = true
  · rw [if_pos h]
  · rw [if_neg h, Field.simulate_of_firesAfter_eq_false hf hs hn hp hl (Bool.eq_false_iff.mpr h)]

theorem exists_line {queue : PieceQueue} (hq : queue.Solid) {rest depth : Nat} {f : Field}
    (hf : f.Exact) (hs : f.Settled) (hn : f.fires = false) {branch : Branch} {plan : Plan}
    (h : plan ∈ freshPlans queue rest depth f branch) :
    ∃ ts, Line queue rest depth f ts ∧ Records branch ts plan := by
  induction rest generalizing depth f branch with
  | zero => cases h
  | succ rest ih =>
    unfold freshPlans at h
    obtain ⟨c, hc, h⟩ := List.mem_flatMap.mp h
    have hp := solid_of_mem_choices hq hc
    obtain ⟨hk, hd, hr⟩ := (mem_choices_iff queue depth f c).mp hc
    obtain ⟨g, hl, hneck, h⟩ := mem_freshFrom h
    have hsim := resolve_eq_simulate hf hs hn hp hl
    let t : Turn := ⟨f, c.1, c.2, (resolve g c.2).1, (resolve g c.2).2⟩
    have play : Turn.play? f t.choice = some t := by
      show Turn.play? f c = some ⟨f, c.1, c.2, (resolve g c.2).1, (resolve g c.2).2⟩
      rw [Turn.play?, hl, hsim, Option.map_some]
    have allowed : Allowed queue depth t := ⟨hk, hd, hr, isReachable_of_contains hr, hneck⟩
    rcases h with ⟨hover, rfl⟩ | ⟨h0, h⟩
    · rw [beq_iff_eq] at hover
      exact ⟨[t], .last play allowed hover, records_singleton branch t⟩
    · have hres := resolve_eq_locked hf hs hp hl h0
      have hafter : t.after = g := congrArg Prod.fst hres
      have hgn : g.fires = false := by
        rw [hsim] at h0
        rw [← (hf.lock? hp hl).drop_of_settled (hf.settled_lock? hs hp hl), Bool.eq_false_iff,
          ne_eq, ← Field.chains_simulate_pos_iff_fires, h0]
        exact Nat.lt_irrefl 0
      rw [hres] at h
      obtain ⟨ts, hline, hrec⟩ := ih (hf.lock? hp hl) (hf.settled_lock? hs hp hl) hgn h
      rw [← hafter] at hline
      exact ⟨t :: ts, .turn play allowed h0 hline, Records.cons hrec⟩

/-- **Every plan replays.**  From a settled field with exact heights and without vanishing groups,
the placements of a plan can be played one after the other, each followed by the whole of its chain.
Every piece is one that may come at its place, every placement is among those tried for it and can
be reached, and the neck stays free.  Only the last turn may have a chain, and it has one if the
plan is shorter than allowed.  What the plan tells of field, chain, splits and frames is what comes
of these turns. -/
theorem replay_of_mem_collectPlans {f : Field} (hf : f.Exact) (hs : f.Settled)
    (hn : f.fires = false) {queue : PieceQueue} (hq : queue.Normal) {maxDepth : Nat} {plan : Plan}
    (h : plan ∈ collectPlans f queue maxDepth) :
    ∃ turns, replay f (turns.map Turn.choice) = some turns ∧
      turns.map Turn.decision = plan.decisions ∧
      (1 ≤ plan.decisions.length ∧ plan.decisions.length ≤ maxDepth) ∧
      (∀ i t, turns[i]? = some t → Allowed queue i t) ∧
      (∀ t ∈ turns.dropLast, t.result.chains = 0) ∧
      (∃ t, turns.getLast? = some t ∧ t.after = plan.field ∧ t.result = plan.result ∧
        t.frames = plan.lastDropFrames ∧
        (plan.decisions.length < maxDepth → 0 < t.result.chains)) ∧
      plan.splits = turns.countP Turn.splits ∧
      plan.framesToInitiate = Turn.framesOf turns.dropLast := by
  rw [collectPlans_eq, sharedPlans_eq_freshPlans hq.solid maxDepth 0 hf hs] at h
  obtain ⟨turns, hline, hrec⟩ := exists_line hq.solid hf hs hn h
  obtain ⟨t, ht, hfield, hresult, hframes⟩ := hrec.last
  have hdec : plan.decisions = turns.map Turn.decision := hrec.decisions
  have hlen : plan.decisions.length = turns.length := by rw [hdec, List.length_map]
  have hsplits : plan.splits = 0 + turns.countP Turn.splits := hrec.splits
  have hsum : plan.framesToInitiate = 0 + Turn.framesOf turns.dropLast := hrec.frames
  rw [Nat.zero_add] at hsplits hsum
  refine ⟨turns, hline.replay, hdec.symm, ?_, fun i t hi => ?_, hline.quiet,
    ⟨t, ht, hfield.symm, hresult.symm, hframes.symm, fun hlt => ?_⟩, hsplits, hsum⟩
  · rw [hlen]
    exact hline.length
  · have hallowed := hline.allowed i t hi
    rwa [Nat.zero_add] at hallowed
  · rw [hlen] at hlt
    exact hline.fires hlt t ht

/-- a plan of two placements, the second of which starts a chain -/
theorem replay_of_mem_collectPlans_redBlueFloor :
    (redBlueFloor.Exact ∧ redBlueFloor.Settled ∧ redBlueFloor.fires = false) ∧
      PieceQueue.Normal ⟨[⟨.yellow, .green⟩, ⟨.red, .red⟩]⟩ ∧
      ∃ plan ∈ collectPlans redBlueFloor ⟨[⟨.yellow, .green⟩, ⟨.red, .red⟩]⟩ 2,
        plan.decisions.length = 2 ∧ plan.hasChain = true ∧
        ∃ turns, replay redBlueFloor (turns.map Turn.choice) = some turns ∧
          turns.map Turn.decision = plan.decisions := by
  have hf : redBlueFloor.Exact := by decide +kernel
  have hs : redBlueFloor.Settled := by decide +kernel
  have hn : redBlueFloor.fires = false := by decide +kernel
  have hq : PieceQueue.Normal ⟨[⟨.yellow, .green⟩, ⟨.red, .red⟩]⟩ := by decide
  have hany : (freshPlans ⟨[⟨.yellow, .green⟩, ⟨.red, .red⟩]⟩ 2 0 redBlueFloor .start).any
      (fun plan => plan.decisions.length == 2 && plan.hasChain) = true := by decide +kernel
  rw [← sharedPlans_eq_freshPlans hq.solid 2 0 hf hs, ← collectPlans_eq] at hany
  obtain ⟨plan, hmem, hplan⟩ := List.any_eq_true.mp hany
  rw [Bool.and_eq_true, beq_iff_eq] at hplan
  obtain ⟨turns, hreplay, hdecisions, _⟩ := replay_of_mem_collectPlans hf hs hn hq hmem
  exact ⟨⟨hf, hs, hn⟩, hq, plan, hmem, hplan.1, hplan.2, turns, hreplay, hdecisions⟩

end PlanSearch

end PuyoChain
