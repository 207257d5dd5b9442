/-!
# Spreading from place to place in layers

Places of type `α` have successors.  A layer of places is followed by the layer of those of its
successors that no layer had before, each listed once, in the order in which they are first met.

* `fresh`         the new places of a list;
* `spread`        the places of all layers, in order;
* `spreadUpTo`    how many there are, counted no further than a limit.
-/

namespace PuyoChain

section
variable {α : Type} [DecidableEq α]

/-- the places of a list that are not among the seen ones, each where it is first met -/
def fresh (seen : List α) : List α → List α
  | [] => []
  | a :: as => if a ∈ seen then fresh seen as else a :: fresh (a :: seen) as

/-- the layer after `layer`, where the places of `seen` and of `layer` are the seen ones -/
def nextLayer (next : α → List α) (seen layer : List α) : List α :=
  fresh (layer ++ seen) (layer.flatMap next)

/-- the places of `layer` and of at most `fuel` layers in all, in order -/
def spread (next : α → List α) : Nat → List α → List α → List α
  | 0, _, _ => []
  | _ + 1, _, [] => []
  | fuel + 1, seen, a :: layer =>
    (a :: layer) ++ spread next fuel ((a :: layer) ++ seen) (nextLayer next seen (a :: layer))

/-- the number of places of `layer` and of at most `fuel` layers in all, counted up to `limit` -/
def spreadUpTo (next : α → List α) (limit : Nat) : Nat → List α → List α → Nat
  | 0, _, _ => 0
  | _ + 1, _, [] => 0
  | fuel + 1, seen, a :: layer =>
    if limit ≤ layer.length + 1 then limit
    else layer.length + 1 +
      spreadUpTo next (limit - (layer.length + 1)) fuel ((a :: layer) ++ seen)
        (nextLayer next seen (a :: layer))

theorem fresh_nil (seen : List α) : fresh seen [] = [] := rfl

theorem mem_fresh_iff (seen as : List α) (a : α) : a ∈ fresh seen as ↔ a ∈ as ∧ a ∉ seen := by
  induction as generalizing seen with
  | nil => simp [fresh]
  | cons b as ih =>
    unfold fresh
    split
    · rename_i hb
      rw [ih, List.mem_cons]
      constructor
      · rintro ⟨h1, h2⟩
        exact ⟨Or.inr h1, h2⟩
      · rintro ⟨rfl | h1, h2⟩
        · exact absurd hb h2
        · exact ⟨h1, h2⟩
    · rename_i hb
      rw [List.mem_cons, ih, List.mem_cons, List.mem_cons]
      constructor
      · rintro (rfl | ⟨h1, h2⟩)
        · exact ⟨Or.inl rfl, hb⟩
        · exact ⟨Or.inr h1, fun h => h2 (Or.inr h)⟩
      · rintro ⟨rfl | h1, h2⟩
        · exact Or.inl rfl
        · by_cases e : a = b
          · exact Or.inl e
          · refine Or.inr ⟨h1, ?_⟩
            rintro (h | h)
            · exact e h
            · exact h2 h

theorem nodup_fresh (seen as : List α) : (fresh seen as).Nodup := by
  induction as generalizing seen with
  | nil => exact List.nodup_nil
  | cons b as ih =>
    unfold fresh
    split
    · exact ih seen
    · refine List.nodup_cons.mpr ⟨fun h => ?_, ih _⟩
      exact ((mem_fresh_iff _ _ _).mp h).2 (List.mem_cons_self ..)

theorem spread_nil (next : α → List α) (fuel : Nat) (seen : List α) :
    spread next fuel seen [] = [] := by
  cases fuel <;> rfl

end

end PuyoChain
