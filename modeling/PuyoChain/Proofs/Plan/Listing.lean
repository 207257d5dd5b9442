import PuyoChain.Plan.Search
import PuyoChain.Proofs.Search.Visiting

/-!
# The plans of a search as a list

* `freshFrom`      the plans of one placement on a copy of a field, nothing of which is taken back;
* `freshPlans`     the plans of the search that gives a copy of the node's field to every placement;
* `leaves`         the working field that a placement hands back, and whether it has fired;
* `sharedPlans`    the plans of the search that hands the working field on.

`explore` shows just `sharedPlans` to its visitor, whatever the visitor does (`explore_eq_each`).
-/

namespace PuyoChain

namespace PlanSearch

/-- the plans of one placement on a copy of the field `f`; `below` gives those further on -/
def freshFrom (below : Field → Branch → List Plan) (last : Bool) (branch : Branch) (f : Field)
    (choice : Piece × Decision) : List Plan :=
  match f.lock? choice.2 choice.1 with
  | none => []
  | some locked =>
    let (after, result) := resolve locked choice.2
    let decisions := branch.decisions ++ [choice.2]
    let splits := branch.splits + (f.splits choice.2).toNat
    let frames := f.placementFrames choice.2
    if !after.isEmpty Cell.neck.x Cell.neck.y then []
    else if last || 0 < result.chains then
      [⟨after, decisions, result, splits, branch.frames, frames⟩]
    else below after ⟨decisions, splits, branch.frames + frames⟩

/-- the plans below a node of a search in which every placement has a copy of the node's field -/
def freshPlans (queue : PieceQueue) : (rest : Nat) → (depth : Nat) → Field → Branch → List Plan
  | 0, _, _, _ => []
  | rest + 1, depth, f, branch =>
    (choices queue depth f).flatMap
      (freshFrom (freshPlans queue rest (depth + 1)) (rest == 0) branch f)

/-- the working field that a placement hands back, and whether it has fired -/
def leaves (work : Field) (choice : Piece × Decision) : Field × Bool :=
  match work.lock? choice.2 choice.1 with
  | none => (work, false)
  | some locked =>
    let (after, result) := resolve locked choice.2
    (if 0 < result.chains then after else after.unlock choice.2, 0 < result.chains)

/-- the working field of the next placement of a node: the node's field anew after a chain -/
def carried (f work : Field) (choice : Piece × Decision) : Field :=
  if (leaves work choice).2 then f else (leaves work choice).1

/-- the plans of placements of a node that hand on the working field, which is `work` at first -/
def sharedFrom (below : Field → Branch → List Plan) (last : Bool) (branch : Branch) (f : Field) :
    Field → List (Piece × Decision) → List Plan
  | _, [] => []
  | work, c :: cs =>
    freshFrom below last branch work c ++ sharedFrom below last branch f (carried f work c) cs

/-- the plans below a node of the search -/
def sharedPlans (queue : PieceQueue) : (rest : Nat) → (depth : Nat) → Field → Branch → List Plan
  | 0, _, _, _ => []
  | rest + 1, depth, f, branch =>
    sharedFrom (sharedPlans queue rest (depth + 1)) (rest == 0) branch f f (choices queue depth f)

/-! ## the search shows its list -/

section
variable {σ : Type} {visit : Visitor σ Plan} {below : Field → Branch → σ → Flow σ σ}
  {plans : Field → Branch → List Plan}

/-- one placement shows its plans and hands back the working field -/
theorem tryChoice_eq (h : ∀ g b s, below g b s = each visit (plans g b) s) (last : Bool)
    (branch : Branch) (work : Field) (c : Piece × Decision) (s : σ) :
    tryChoice visit below last branch work c s =
      (each visit (freshFrom plans last branch work c) s).map
        fun s => ⟨(leaves work c).1, (leaves work c).2, s⟩ := by
  unfold tryChoice freshFrom leaves
  dsimp only
  cases work.lock? c.2 c.1 with
  | none => rfl
  | some locked =>
    dsimp only
    obtain ⟨after, result⟩ := resolve locked c.2
    simp only [decide_eq_true_eq]
    by_cases hn : (!after.isEmpty Cell.neck.x Cell.neck.y) = true
    · rw [if_pos hn, if_pos hn]
      rfl
    · rw [if_neg hn, if_neg hn]
      by_cases hl : (last || decide (0 < result.chains)) = true
      · rw [if_pos hl, if_pos hl, each_singleton]
      · rw [if_neg hl, if_neg hl, h]

/-- the placements of a node show their plans one after the other -/
theorem each_tryChoice (h : ∀ g b s, below g b s = each visit (plans g b) s) (last : Bool)
    (branch : Branch) (f : Field) (cs : List (Piece × Decision)) (w : Work σ) :
    (each (fun (w : Work σ) c =>
        tryChoice visit below last branch (if w.stale then f else w.field) c w.state) cs w).map
      Work.state =
    each visit (sharedFrom plans last branch f (if w.stale then f else w.field) cs) w.state := by
  induction cs generalizing w with
  | nil => rfl
  | cons c cs ih =>
    unfold sharedFrom
    rw [each_cons, tryChoice_eq h, each_append, Flow.andThen_map, Flow.map_andThen]
    apply Flow.andThen_congr
    intro t
    exact ih _

end

/-- the search shows its plans, whatever the visitor does with them -/
theorem explore_eq_each {σ : Type} (visit : Visitor σ Plan) (queue : PieceQueue) (rest depth : Nat)
    (f : Field) (branch : Branch) (s : σ) :
    explore visit queue rest depth f branch s =
      each visit (sharedPlans queue rest depth f branch) s := by
  induction rest generalizing depth f branch s with
  | zero => rfl
  | succ rest ih =>
    exact each_tryChoice (fun g b s => ih (depth + 1) g b s) (rest == 0) branch f _ ⟨f, false, s⟩

end PlanSearch

open PlanSearch

theorem collectPlans_eq (f : Field) (queue : PieceQueue) (maxDepth : Nat) :
    collectPlans f queue maxDepth = sharedPlans queue maxDepth 0 f .start := by
  unfold collectPlans visitPlans
  simp only [explore_eq_each]
  exact gather_each _

theorem plansFrom_eq (f : Field) (queue : PieceQueue) (rest : Nat) (c : Piece × Decision) :
    plansFrom f queue rest c = freshFrom (sharedPlans queue rest 1) (rest == 0) .start f c := by
  unfold plansFrom
  simp only [tryChoice_eq fun g b s => explore_eq_each _ queue rest 1 g b s]
  refine Eq.trans ?_ (gather_each _)
  congr 1
  funext visit s
  rw [Flow.map_map]
  exact Flow.map_id _

end PuyoChain
