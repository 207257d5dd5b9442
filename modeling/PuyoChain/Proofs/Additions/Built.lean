import PuyoChain.Additions.Text

/-!
# Lists of additions that the operations build

* `Additions.Built`   the lists that start empty and grow by `addCopies` (of which `add` is a case)
                      and `merge`, or shrink by `truncate` and `pop`.

A list that is read from a text is one of them (`built_ofText`).  Their entries all name columns of
the field (`Built.column`).
-/

namespace PuyoChain

namespace Additions

/-- the lists that the operations on lists build -/
inductive Built : Additions → Prop where
  | empty : Built empty
  | addCopies {l m : Additions} {x : Nat} {c : Color} {n : Nat} (hl : Built l)
      (h : l.addCopies x c n = some m) : Built m
  | merge {l m k : Additions} (hl : Built l) (hm : Built m) (h : l.merge m = some k) : Built k
  | truncate {l : Additions} (hl : Built l) (n : Nat) : Built (l.truncate n)
  | pop {l : Additions} (hl : Built l) : Built l.pop

theorem column_of_addCopies {l m : Additions} {x : Nat} {c : Color} {n : Nat}
    (h : l.addCopies x c n = some m) : 1 ≤ x ∧ x ≤ 6 := by
  unfold addCopies at h
  split at h
  · rename_i hx
    exact hx.1
  · cases h

theorem Built.column {l : Additions} (hl : l.Built) :
    ∀ a ∈ l.entries, 1 ≤ a.x ∧ a.x ≤ 6 := by
  induction hl with
  | empty =>
    intro a ha
    cases ha
  | addCopies _ h ih =>
    intro a ha
    rw [entries_addCopies h, List.mem_append] at ha
    rcases ha with ha | ha
    · exact ih a ha
    · rw [List.eq_of_mem_replicate ha]
      exact column_of_addCopies h
  | merge _ _ h ihl ihm =>
    intro a ha
    rw [entries_merge h, List.mem_append] at ha
    rcases ha with ha | ha
    · exact ihl a ha
    · exact ihm a ha
  | truncate _ n ih =>
    intro a ha
    exact ih a (List.mem_of_mem_take ha)
  | pop _ ih =>
    intro a ha
    exact ih a ((List.dropLast_sublist _).subset ha)

/-! ## lists that are read -/

theorem built_addEntry {l m : Additions} {entry : List Char} (hl : l.Built)
    (h : l.addEntry entry = .ok m) : m.Built := by
  unfold addEntry at h
  split at h
  · cases h
  · rename_i x letter _
    cases hc : Color.ofChar letter with
    | error e =>
      rw [hc] at h
      cases h
    | ok color =>
      rw [hc] at h
      change (if ¬ (1 ≤ x ∧ x ≤ 6) then _ else _) = _ at h
      split at h
      · cases h
      · split at h
        · rename_i ha
          cases h
          exact hl.addCopies ha
        · cases h

theorem built_readFrom {cs pending : List Char} {l m : Additions} (hl : l.Built)
    (h : readFrom cs pending l = .ok m) : m.Built := by
  induction cs generalizing pending l with
  | nil =>
    unfold readFrom at h
    split at h
    · cases h
      exact hl
    · cases h
  | cons c cs ih =>
    unfold readFrom at h
    split at h
    · split at h
      · rename_i he
        exact ih (built_addEntry hl he) h
      · cases h
    · split at h
      · exact ih hl h
      · exact ih hl h

theorem built_ofText {s : String} {l : Additions} (h : ofText s = .ok l) : l.Built :=
  built_readFrom .empty h

end Additions

end PuyoChain
