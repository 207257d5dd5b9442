import PuyoChain.Candidate.Detect

/-!
# The candidates that a detection shows

* `unseen hs cs`   the candidates of a list whose field has a hash that is not in `hs` and that none
                   before it has.

A detection shows these of its candidates to any visitor, in order, until the visitor stops it
(`detect_eq_each_detected`).  Their hashes are pairwise different (`pairwise_detected`), and every
candidate has the hash of one of them (`exists_mem_detected`).
-/

namespace PuyoChain

/-- the candidates whose hash is new, each where it is first met -/
def unseen : List UInt64 → List Candidate → List Candidate
  | _, [] => []
  | hs, c :: cs =>
    if c.field.zobristHash ∈ hs then unseen hs cs else c :: unseen (c.field.zobristHash :: hs) cs

theorem mem_shown_iff (purpose : Purpose) (c d : Candidate) :
    c ∈ d.shown purpose ↔ purpose = .key ∧ c = d := by
  cases purpose <;> simp [Candidate.shown]

variable {hs : List UInt64} {c : Candidate} {cs : List Candidate}

theorem unseen_of_mem (h : c.field.zobristHash ∈ hs) : unseen hs (c :: cs) = unseen hs cs := if_pos h

theorem unseen_of_not_mem (h : c.field.zobristHash ∉ hs) :
    unseen hs (c :: cs) = c :: unseen (c.field.zobristHash :: hs) cs := if_neg h

theorem mem_of_mem_unseen (h : c ∈ unseen hs cs) : c ∈ cs ∧ c.field.zobristHash ∉ hs := by
  induction cs generalizing hs with
  | nil => cases h
  | cons d cs ih =>
    by_cases hd : d.field.zobristHash ∈ hs
    · rw [unseen_of_mem hd] at h
      exact ⟨List.mem_cons_of_mem d (ih h).1, (ih h).2⟩
    · rw [unseen_of_not_mem hd, List.mem_cons] at h
      rcases h with rfl | h
      · exact ⟨List.mem_cons_self, hd⟩
      · obtain ⟨hmem, hnew⟩ := ih h
        exact ⟨List.mem_cons_of_mem d hmem, fun hc => hnew (List.mem_cons_of_mem _ hc)⟩

theorem pairwise_unseen (hs : List UInt64) (cs : List Candidate) :
    (unseen hs cs).Pairwise fun c d => c.field.zobristHash ≠ d.field.zobristHash := by
  induction cs generalizing hs with
  | nil => exact List.Pairwise.nil
  | cons c cs ih =>
    by_cases hc : c.field.zobristHash ∈ hs
    · rw [unseen_of_mem hc]
      exact ih hs
    · rw [unseen_of_not_mem hc]
      refine List.Pairwise.cons (fun d hd e => ?_) (ih _)
      exact (mem_of_mem_unseen hd).2 (e ▸ List.mem_cons_self)

theorem exists_mem_unseen (hs : List UInt64) (h : c ∈ cs) : c.field.zobristHash ∈ hs ∨
    ∃ d ∈ unseen hs cs, d.field.zobristHash = c.field.zobristHash := by
  induction cs generalizing hs with
  | nil => cases h
  | cons d cs ih =>
    by_cases hd : d.field.zobristHash ∈ hs
    · rw [unseen_of_mem hd]
      rcases List.mem_cons.mp h with rfl | h
      · exact Or.inl hd
      · exact ih hs h
    · rw [unseen_of_not_mem hd]
      rcases List.mem_cons.mp h with rfl | h
      · exact Or.inr ⟨c, List.mem_cons_self, rfl⟩
      · rcases ih (d.field.zobristHash :: hs) h with hc | ⟨e, he, hec⟩
        · rcases List.mem_cons.mp hc with hc | hc
          · exact Or.inr ⟨d, List.mem_cons_self, hc.symm⟩
          · exact Or.inl hc
        · exact Or.inr ⟨e, List.mem_cons_of_mem d he, hec⟩

section
variable {σ : Type}

/-- leaving out what was seen before is a matter of the candidates alone, not of the visitor -/
theorem each_showNew (visit : Visitor σ Candidate) (cs : List Candidate) (hs : List UInt64) (s : σ) :
    (each (showNew visit) cs ⟨hs, s⟩).map Seen.state = each visit (unseen hs cs) s := by
  induction cs generalizing hs s with
  | nil => rfl
  | cons c cs ih =>
    rw [each_cons, showNew]
    by_cases hc : c.field.zobristHash ∈ hs
    · rw [if_pos hc, Flow.proceed_andThen, unseen_of_mem hc]
      exact ih hs s
    · rw [if_neg hc, unseen_of_not_mem hc, each_cons]
      cases visit s c with
      | stop t => rfl
      | proceed t => exact ih _ t

variable (f : Field) (s : Strategy) (prohibited : ColumnMask) (purpose : Purpose)

theorem detect_eq_each_unseen (visit : Visitor σ Candidate) (state : σ) :
    detect f s prohibited purpose visit state =
      each visit (unseen [] (candidates f s prohibited purpose)) state := by
  rw [detect_eq_each, each_showNew]

theorem detected_eq_unseen :
    detected f s prohibited purpose = unseen [] (candidates f s prohibited purpose) := by
  rw [detected, gather, detect_eq_each_unseen, each_keep]
  simp [Flow.state]

/-- a detection shows its candidates to any visitor, in order, until the visitor stops it -/
theorem detect_eq_each_detected (visit : Visitor σ Candidate) (state : σ) :
    detect f s prohibited purpose visit state =
      each visit (detected f s prohibited purpose) state := by
  rw [detect_eq_each_unseen, detected_eq_unseen]

theorem pairwise_detected : (detected f s prohibited purpose).Pairwise
    fun c d => c.field.zobristHash ≠ d.field.zobristHash := by
  rw [detected_eq_unseen]
  exact pairwise_unseen [] _

variable {f s prohibited purpose}

theorem mem_candidates_of_mem_detected (h : c ∈ detected f s prohibited purpose) :
    c ∈ candidates f s prohibited purpose := by
  rw [detected_eq_unseen] at h
  exact (mem_of_mem_unseen h).1

/-- every candidate has the hash of one that is shown -/
theorem exists_mem_detected (h : c ∈ candidates f s prohibited purpose) :
    ∃ d ∈ detected f s prohibited purpose, d.field.zobristHash = c.field.zobristHash := by
  rw [detected_eq_unseen]
  exact (exists_mem_unseen [] h).resolve_left List.not_mem_nil

end

end PuyoChain
