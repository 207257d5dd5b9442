/-!
# Stacks settling under gravity

A stack is a list of entries, lowest first, some of them blank.

* `settle`          every entry that is not blank moves down past the blanks below it; answers the
                    settled stack and the longest way that an entry moved;
* `settle_entries`  the settled stack: the entries that are not blank in their order, then blanks.
-/

namespace PuyoChain

section
variable {α : Type}

/-- the stack settled over `gap` blanks, and the longest way that an entry moved -/
def settle (blank : α) (isBlank : α → Bool) : Nat → List α → List α × Nat
  | gap, [] => (List.replicate gap blank, 0)
  | gap, a :: as =>
    if isBlank a then settle blank isBlank (gap + 1) as
    else
      let rest := settle blank isBlank gap as
      (a :: rest.1, max gap rest.2)

theorem settle_length (blank : α) (isBlank : α → Bool) (gap : Nat) (as : List α) :
    (settle blank isBlank gap as).1.length = gap + as.length := by
  induction as generalizing gap with
  | nil => simp [settle]
  | cons a as ih =>
    unfold settle
    split
    · rw [ih, List.length_cons]
      omega
    · simp only [List.length_cons, ih]
      omega

theorem settle_entries (blank : α) (isBlank : α → Bool) (gap : Nat) (as : List α) :
    (settle blank isBlank gap as).1 =
      as.filter (fun a => !isBlank a) ++ List.replicate (gap + as.countP isBlank) blank := by
  induction as generalizing gap with
  | nil => simp [settle]
  | cons a as ih =>
    unfold settle
    by_cases h : isBlank a = true
    · rw [if_pos h, ih, List.filter_cons_of_neg (by simp [h]), List.countP_cons_of_pos h]
      congr 2
      omega
    · rw [if_neg h, List.filter_cons_of_pos (by simp [h]), List.countP_cons_of_neg h]
      simp only [ih, List.cons_append]

end

end PuyoChain
