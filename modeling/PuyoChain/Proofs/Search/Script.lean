import PuyoChain.Proofs.Search.Visiting

/-!
# Searches as scripts

* `Responder`          a visitor that answers every call, unless it stops the search;
* `recording`          the responder that never stops, with its calls kept;
* `stoppingAt`         the responder that stops on its `k`-th call and answers in the same way before;
* `Search.StopsExactly`   stopped on a call, a search makes the calls up to that one and no more;
* `Script`             the calls of a search: an item, and for every answer the calls after it.

A script, once stopped, has nothing left to do, so that its calls up to the stop are a prefix of all its
calls (`Script.run_recording`, `Script.run_stoppingAt_of_le`).  A search that follows a script has
thus no stop of its visitor overlooked (`Search.Follows.stopsExactly`).
-/

namespace PuyoChain

/-- a visitor that answers every call, unless it stops the search -/
abbrev Responder (σ ι α : Type) := σ → ι → Flow σ (σ × α)

/-- a search whose visitor answers; it cannot look into the visitor's state -/
abbrev Search (ι α : Type) := (σ : Type) → Responder σ ι α → σ → Flow σ σ

variable {σ τ ρ ι κ α β γ : Type}

/-! ## stopping a search -/

/-- the visitor that answers nothing -/
def Responder.visitor (respond : Responder σ ι Unit) : Visitor σ ι := fun s i =>
  (respond s i).map Prod.fst

/-- a search that asks its visitor for no answer -/
def Search.silent (search : (σ : Type) → Visitor σ ι → σ → Flow σ σ) : Search ι Unit :=
  fun σ respond s => search σ respond.visitor s

/-- the responder that never stops, with the items of its calls kept, in order -/
def recording (answer : σ → ι → σ × α) : Responder (σ × List ι) ι α := fun t i =>
  .proceed (((answer t.1 i).1, t.2 ++ [i]), (answer t.1 i).2)

/-- the responder that stops the search on its `k`-th call, and answers as `recording` does before -/
def stoppingAt (k : Nat) (answer : σ → ι → σ × α) : Responder (σ × List ι) ι α := fun t i =>
  if t.2.length + 1 = k then .stop ((answer t.1 i).1, t.2 ++ [i]) else recording answer t i

theorem stoppingAt_last {answer : σ → ι → σ × α} {s : σ} {i : ι} {log : List ι} {k : Nat}
    (h : log.length + 1 = k) :
    stoppingAt k answer (s, log) i = .stop ((answer s i).1, log ++ [i]) := if_pos h

theorem stoppingAt_earlier {answer : σ → ι → σ × α} {s : σ} {i : ι} {log : List ι} {k : Nat}
    (h : log.length + 1 ≠ k) : stoppingAt k answer (s, log) i =
      .proceed (((answer s i).1, log ++ [i]), (answer s i).2) := if_neg h

/-- the items that a search shows to the responder that never stops -/
def Search.calls (search : Search ι α) (answer : σ → ι → σ × α) (s : σ) : List ι :=
  (search _ (recording answer) (s, [])).state.2

/-- The search runs to its end unless it is stopped.  Stopped on the `k`-th call, it makes the first
`k` of its calls and no other, and ends as a stopped search; with fewer calls it makes them all. -/
def Search.StopsExactly (search : Search ι α) : Prop :=
  ∀ (σ : Type) (answer : σ → ι → σ × α) (s : σ),
    (search _ (recording answer) (s, [])).isStop = false ∧
    ∀ k, 1 ≤ k →
      (search _ (stoppingAt k answer) (s, [])).state.2 = (search.calls answer s).take k ∧
      ((search _ (stoppingAt k answer) (s, [])).isStop = true ↔
        k ≤ (search.calls answer s).length)

/-! ## scripts -/

/-- the calls of a search: each on an item, and what comes after it is decided by the answer -/
inductive Script (ι α β : Type) where
  | done (b : β)
  | ask (i : ι) (next : α → Script ι α β)

namespace Script

/-- the script carried out with a responder -/
def run (respond : Responder σ ι α) : Script ι α β → σ → Flow σ (σ × β)
  | done b, s => .proceed (s, b)
  | ask i next, s => (respond s i).andThen fun r => (next r.2).run respond r.1

/-- the items of the calls, where every call is answered -/
def calls (answer : σ → ι → σ × α) : Script ι α β → σ → List ι
  | done _, _ => []
  | ask i next, s => i :: (next (answer s i).2).calls answer (answer s i).1

/-- what the script ends with, where every call is answered -/
def outcome (answer : σ → ι → σ × α) : Script ι α β → σ → σ × β
  | done b, s => (s, b)
  | ask i next, s => (next (answer s i).2).outcome answer (answer s i).1

theorem run_done (respond : Responder σ ι α) (b : β) (s : σ) :
    (done b : Script ι α β).run respond s = .proceed (s, b) := rfl

theorem run_ask (respond : Responder σ ι α) (i : ι) (next : α → Script ι α β) (s : σ) :
    (ask i next).run respond s = (respond s i).andThen fun r => (next r.2).run respond r.1 := rfl

/-! ## scripts one after the other -/

/-- a script and the one that its value decides upon -/
def andThen : Script ι α β → (β → Script ι α γ) → Script ι α γ
  | done b, f => f b
  | ask i next, f => ask i fun a => (next a).andThen f

/-- a script for every element of a list -/
def each (part : τ → γ → Script ι α τ) : List γ → τ → Script ι α τ
  | [], t => done t
  | c :: cs, t => (part t c).andThen (each part cs)

/-- the script that shows a list and asks for no answer -/
def showing (items : List ι) : Script ι Unit Unit := each (fun _ i => ask i done) items ()

theorem run_andThen (respond : Responder σ ι α) (script : Script ι α β) (f : β → Script ι α γ)
    (s : σ) : (script.andThen f).run respond s =
      (script.run respond s).andThen fun r => (f r.2).run respond r.1 := by
  induction script generalizing s with
  | done b => rfl
  | ask i next ih =>
    show (respond s i).andThen _ = ((respond s i).andThen _).andThen _
    rw [Flow.andThen_assoc]
    apply Flow.andThen_congr
    intro r
    exact ih r.2 r.1

/-- parts that follow scripts, on states packed together with a value, follow them all -/
theorem run_each {respond : Responder σ ι α} {part : τ → γ → Script ι α τ}
    {part' : ρ → γ → Flow σ ρ} (pack : σ × τ → ρ)
    (h : ∀ c s t, part' (pack (s, t)) c = ((part t c).run respond s).map pack)
    (cs : List γ) (s : σ) (t : τ) :
    PuyoChain.each part' cs (pack (s, t)) = ((each part cs t).run respond s).map pack := by
  induction cs generalizing s t with
  | nil => rfl
  | cons c cs ih =>
    rw [each_cons, h, each, run_andThen, Flow.map_andThen, Flow.andThen_map]
    apply Flow.andThen_congr
    intro r
    exact ih r.1 r.2

/-! ## answers that the visitor has no say in -/

/-- the script with every call answered beforehand and its item shown as another one -/
def answered (view : ι → κ) (answer : ι → α) : Script ι α β → Script κ Unit β
  | done b => done b
  | ask i next => ask (view i) fun _ => (next (answer i)).answered view answer

theorem run_answered (view : ι → κ) (answer : ι → α) (respond : Responder σ κ Unit)
    (script : Script ι α β) (s : σ) : (script.answered view answer).run respond s =
      script.run (fun s i => (respond.visitor s (view i)).map fun s => (s, answer i)) s := by
  induction script generalizing s with
  | done b => rfl
  | ask i next ih =>
    show (respond s (view i)).andThen _ = (((respond s (view i)).map _).map _).andThen _
    rw [Flow.map_andThen, Flow.map_andThen]
    apply Flow.andThen_congr
    intro r
    exact ih (answer i) r.1

/-! ## a script that is stopped -/

variable {answer : σ → ι → σ × α} {script : Script ι α β} {s : σ} {log : List ι} {k : Nat}

theorem calls_ask (i : ι) (next : α → Script ι α β) : (ask i next).calls answer s =
    i :: (next (answer s i).2).calls answer (answer s i).1 := rfl

/-- never stopped, a script adds its calls to the log -/
theorem run_recording (script : Script ι α β) (s : σ) (log : List ι) :
    script.run (recording answer) (s, log) =
      .proceed (((script.outcome answer s).1, log ++ script.calls answer s),
        (script.outcome answer s).2) := by
  induction script generalizing s log with
  | done b =>
    show Flow.proceed ((s, log), b) = .proceed ((s, log ++ []), b)
    rw [List.append_nil]
  | ask i next ih =>
    show (next _).run _ (_, log ++ [i]) = _
    rw [ih, List.append_assoc]
    rfl

/-- the `k`-th call stops the script, with the first `k` calls in the log -/
theorem run_stoppingAt_of_le (hlog : log.length < k)
    (hk : k ≤ log.length + (script.calls answer s).length) :
    ∃ t, script.run (stoppingAt k answer) (s, log) =
      .stop (t, (log ++ script.calls answer s).take k) := by
  induction script generalizing s log with
  | done b =>
    rw [calls, List.length_nil] at hk
    omega
  | ask i next ih =>
    have hlen : (log ++ [i]).length = log.length + 1 := List.length_append
    rw [calls_ask, List.length_cons] at hk
    rw [run_ask, calls_ask, List.append_cons]
    by_cases hlast : log.length + 1 = k
    · rw [stoppingAt_last hlast, Flow.stop_andThen, List.take_left' (hlen.trans hlast)]
      exact ⟨(answer s i).1, rfl⟩
    · rw [stoppingAt_earlier hlast, Flow.proceed_andThen]
      exact ih (answer s i).2 (by omega) (by omega)

/-- a script of fewer calls is not stopped -/
theorem run_stoppingAt_of_lt (hk : log.length + (script.calls answer s).length < k) :
    script.run (stoppingAt k answer) (s, log) = script.run (recording answer) (s, log) := by
  induction script generalizing s log with
  | done b => rfl
  | ask i next ih =>
    have hlen : (log ++ [i]).length = log.length + 1 := List.length_append
    rw [calls_ask, List.length_cons] at hk
    rw [run_ask, run_ask, stoppingAt_earlier (by omega)]
    exact ih (answer s i).2 (by omega)

end Script

/-! ## searches that follow a script -/

/-- the search carries the script out, whatever responder it has -/
def Search.Follows (search : Search ι α) (script : Script ι α β) : Prop :=
  ∀ (σ : Type) (respond : Responder σ ι α) (s : σ),
    search σ respond s = (script.run respond s).map Prod.fst

namespace Search.Follows

variable {search : Search ι α} {script : Script ι α β}

theorem run_recording (h : search.Follows script) (answer : σ → ι → σ × α) (s : σ) :
    search _ (recording answer) (s, []) =
      .proceed ((script.outcome answer s).1, script.calls answer s) := by
  rw [h, Script.run_recording]
  rfl

theorem stopsExactly (h : search.Follows script) : search.StopsExactly := by
  intro σ answer s
  have hcalls : search.calls answer s = script.calls answer s := by
    unfold Search.calls
    rw [h.run_recording answer s]
    rfl
  rw [h.run_recording, hcalls]
  refine ⟨rfl, fun k hk => ?_⟩
  by_cases hle : k ≤ (script.calls answer s).length
  · obtain ⟨t, ht⟩ : ∃ t, script.run (stoppingAt k answer) (s, []) =
        .stop (t, ([] ++ script.calls answer s).take k) :=
      Script.run_stoppingAt_of_le hk (by rwa [List.length_nil, Nat.zero_add])
    rw [h, ht]
    exact ⟨rfl, iff_of_true rfl hle⟩
  · have hlt := Nat.lt_of_not_le hle
    rw [h, Script.run_stoppingAt_of_lt (by rwa [List.length_nil, Nat.zero_add]),
      Script.run_recording, List.nil_append]
    refine ⟨(List.take_of_length_le (Nat.le_of_lt hlt)).symm, iff_of_false ?_ hle⟩
    exact Bool.false_ne_true

end Search.Follows

section
variable {search : (σ : Type) → Visitor σ ι → σ → Flow σ σ} {items : List ι}
  (h : ∀ (σ : Type) (visit : Visitor σ ι) (s : σ), search σ visit s = each visit items s)
include h

/-- a search that shows a list to every visitor follows the script that shows it -/
theorem Search.silent_follows : (Search.silent search).Follows (Script.showing items) := by
  intro σ respond s
  have hpart : ∀ (i : ι) (s : σ) (u : Unit),
      respond.visitor s i = ((Script.ask i Script.done).run respond s).map Prod.fst := by
    intro i s u
    show (respond s i).map Prod.fst = ((respond s i).andThen Flow.proceed).map Prod.fst
    rw [Flow.andThen_proceed]
  show search σ respond.visitor s = _
  rw [h]
  exact Script.run_each Prod.fst hpart items s ()

theorem Search.silent_stopsExactly : (Search.silent search).StopsExactly :=
  (Search.silent_follows h).stopsExactly

end

end PuyoChain
