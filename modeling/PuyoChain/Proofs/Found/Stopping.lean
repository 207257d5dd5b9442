import PuyoChain.Proofs.Candidate.ThirteenthRow
import PuyoChain.Proofs.Found.Replay
import PuyoChain.Proofs.Plan.Listing
import PuyoChain.Proofs.Search.Script

/-!
# Stopping the searches

Most searches show a list to every visitor and so follow the script that shows it.  In a layered
detection the answers decide which layers are built upon:

* `layersScript`     the calls of some layers upon the additions of those below;
* `layeredScript`    the calls of a layered detection (`visitLayered_follows`);
* `trackedScript`    the same calls, answered with the chains of the candidates.
-/

namespace PuyoChain

/-- the calls of at most `rest` layers above the additions `base`, whose chain has `previous` steps
and leaves the field `g`; the script ends with the hashes of all fields seen -/
def layersScript (f : Field) (s : Strategy) : (rest : Nat) → (g : Field) → (base : Additions) →
    (previous : Nat) → List UInt64 → Script Candidate Nat (List UInt64)
  | 0, _, _, _, hs => .done hs
  | rest + 1, g, base, previous, hs =>
    Script.each (fun hs c =>
      if c.field.zobristHash ∈ hs then .done hs
      else .ask c fun n =>
        if previous < n then
          layersScript f s rest c.field.simulate.1 c.additions n (c.field.zobristHash :: hs)
        else .done (c.field.zobristHash :: hs))
      (composed f s g base) hs

/-- the calls of a layered detection -/
def layeredScript (f : Field) (s : Strategy) (maxLayers : Nat) :
    Script Candidate Nat (List UInt64) :=
  layersScript f s maxLayers f .empty 0 []

/-- the calls of a layered detection whose answers are the lengths of the chains -/
def trackedScript (f : Field) (s : Strategy) (maxLayers : Nat) :
    Script TrackedChain Unit (List UInt64) :=
  (layeredScript f s maxLayers).answered trackedChain fun c => (trackedChain c).result.chains

section
variable {σ : Type}

/-- a state and the hashes seen so far, as the searches carry them -/
def Seen.ofPair (t : σ × List UInt64) : Seen σ := ⟨t.2, t.1⟩

/-- some layers carry their script out -/
theorem visitLayers_eq_run (f : Field) (s : Strategy) (respond : Responder σ Candidate Nat)
    (rest : Nat) (g : Field) (base : Additions) (k : Nat) (hs : List UInt64) (state : σ) :
    visitLayers f s respond rest g base k (Seen.ofPair (state, hs)) =
      ((layersScript f s rest g base k hs).run respond state).map Seen.ofPair := by
  induction rest generalizing g base k hs state with
  | zero => rfl
  | succ rest ih =>
    rw [visitLayers_succ, layersScript]
    refine Script.run_each Seen.ofPair (fun c state hs => ?_) _ state hs
    by_cases hold : c.field.zobristHash ∈ hs
    · have hold' : c.field.zobristHash ∈ (Seen.ofPair (state, hs)).hashes := hold
      rw [if_pos hold, showLayer_of_mem hold']
      rfl
    · have hold' : c.field.zobristHash ∉ (Seen.ofPair (state, hs)).hashes := hold
      rw [if_neg hold, Script.run_ask, showLayer_of_not_mem hold', Flow.andThen_map]
      apply Flow.andThen_congr
      intro (state, n)
      by_cases hmore : k < n
      · rw [if_pos hmore, if_pos hmore]
        exact ih _ _ n _ state
      · rw [if_neg hmore, if_neg hmore]
        rfl

theorem visitLayered_follows (f : Field) (s : Strategy) (maxLayers : Nat) :
    Search.Follows (fun _ => visitLayered f s maxLayers) (layeredScript f s maxLayers) := by
  intro σ respond state
  have h := visitLayers_eq_run f s respond maxLayers f .empty 0 [] state
  show (visitLayers f s respond maxLayers f .empty 0 (Seen.ofPair (state, []))).map _ = _
  rw [h]
  exact Flow.map_map ..

theorem visitTracked_follows (f : Field) (s : Strategy) (maxLayers : Nat) :
    Search.Follows (Search.silent fun _ => visitTracked f maxLayers s)
      (trackedScript f s maxLayers) := by
  intro σ respond state
  show visitTracked f maxLayers s respond.visitor state = _
  rw [visitTracked_eq, trackedScript, Script.run_answered]
  exact visitLayered_follows f s maxLayers σ _ state

end

/-- **A stop is never overlooked.**  On every field and with any limits, each search that a visitor
may stop runs to its end if it is not stopped; and if the visitor answers in the same way but stops
the search on its `k`-th call, it is called on the first `k` of the same items, in the same order and
never again, and the search ends as stopped just where there are that many calls. -/
theorem searches_stop_exactly (f : Field) (queue : PieceQueue) (s : Strategy)
    (mask : ColumnMask) (purpose : Purpose)
    (maxDepth maxColumns perColumn maxKeys maxLayers : Nat) :
    (Search.silent fun _ => visitPlans f queue maxDepth).StopsExactly ∧
    (Search.silent fun _ => detect f s mask purpose).StopsExactly ∧
    (Search.silent fun _ => visitKeys f s mask maxColumns perColumn).StopsExactly ∧
    (Search.silent fun _ => visitThirteenthRow f mask).StopsExactly ∧
    Search.StopsExactly (fun _ => visitLayered f s maxLayers) ∧
    (Search.silent fun _ => visitTracked f maxLayers s).StopsExactly ∧
    (Search.silent fun _ => visitPossible f maxKeys s).StopsExactly ∧
    (Search.silent fun _ => visitSideChains f s).StopsExactly := by
  refine ⟨?plans, ?detection, ?keys, ?row, ?layers, ?tracked, ?possible, ?side⟩
  case plans =>
    exact Search.silent_stopsExactly fun σ visit state =>
      PlanSearch.explore_eq_each visit queue maxDepth 0 f .start state
  case detection =>
    exact Search.silent_stopsExactly fun σ visit state =>
      detect_eq_each_detected f s mask purpose visit state
  case keys =>
    exact Search.silent_stopsExactly fun σ visit state =>
      visitKeys_eq_each f s mask maxColumns perColumn visit state
  case row =>
    exact Search.silent_stopsExactly fun σ visit state =>
      visitThirteenthRow_eq_each f visit mask state
  case layers => exact (visitLayered_follows f s maxLayers).stopsExactly
  case tracked => exact (visitTracked_follows f s maxLayers).stopsExactly
  case possible =>
    exact Search.silent_stopsExactly fun σ visit state =>
      visitPossible_eq_each visit f maxKeys s state
  case side =>
    exact Search.silent_stopsExactly fun σ visit state => visitSideChains_eq_each visit f s state

/-- stopped on its second call, a layered detection has shown its first two candidates -/
theorem searches_stop_exactly_twoTowers :
    let search : Search Candidate Nat := fun _ => visitLayered twoTowers ⟨.drop, 1, 3, false⟩ 2
    let answer : Nat → Candidate → Nat × Nat := fun n c => (n + 1, c.additions.size)
    3 ≤ (search.calls answer 0).length ∧
      (search _ (stoppingAt 2 answer) (0, [])).isStop = true ∧
      (search _ (stoppingAt 2 answer) (0, [])).state.2 = (search.calls answer 0).take 2 := by
  intro search answer
  have hlen : 3 ≤ (search.calls answer 0).length := by decide +kernel
  obtain ⟨_, _, _, _, hlayers, _⟩ :=
    searches_stop_exactly twoTowers PieceQueue.empty ⟨.drop, 1, 3, false⟩ .empty .fire 0 0 0 0 2
  obtain ⟨_, hstop⟩ := hlayers Nat answer 0
  obtain ⟨hcalls, hiff⟩ := hstop 2 (by decide)
  exact ⟨hlen, hiff.mpr (Nat.le_of_succ_le hlen), hcalls⟩

end PuyoChain
