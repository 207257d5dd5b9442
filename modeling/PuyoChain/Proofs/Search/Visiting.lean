import PuyoChain.Search.Flow

/-!
# What a search does with its visitor

* `each_filterMap`, `gather_eq`   a search whose parts show items of a list shows a list, and that
                      is what it gathers;
* `Flow.Ends`         what holds of the state of a search, where it stops and where it goes on;
* `each_ends`         what every part of a search keeps, the whole search keeps;
* `Flow.mapBoth`      a search, looked at through functions of its states (`each_mapBoth`).
-/

namespace PuyoChain

variable {σ σ' τ τ' α β γ ι : Type}

/-! ## searches that show a list -/

theorem each_singleton (part : τ → α → Flow σ τ) (a : α) (t : τ) : each part [a] t = part t a :=
  Flow.andThen_proceed (part t a)

theorem each_congr {part part' : τ → α → Flow σ τ} {as : List α}
    (h : ∀ a ∈ as, ∀ t, part t a = part' t a) (t : τ) : each part as t = each part' as t := by
  induction as generalizing t with
  | nil => rfl
  | cons a as ih =>
    obtain ⟨ha, has⟩ := List.forall_mem_cons.mp h
    rw [each_cons, each_cons, ha]
    exact Flow.andThen_congr (ih has)

theorem each_map (part : τ → β → Flow σ τ) (g : α → β) (as : List α) (t : τ) :
    each part (as.map g) t = each (fun t a => part t (g a)) as t := by
  induction as generalizing t with
  | nil => rfl
  | cons a as ih =>
    rw [List.map_cons, each_cons, each_cons]
    exact Flow.andThen_congr ih

/-- parts that show one item or nothing -/
theorem each_filterMap (part : τ → β → Flow σ τ) (item? : α → Option β) (as : List α) (t : τ) :
    each (fun t a => (item? a).elim (.proceed t) (part t)) as t =
      each part (as.filterMap item?) t := by
  induction as generalizing t with
  | nil => rfl
  | cons a as ih =>
    rw [each_cons]
    cases h : item? a with
    | none =>
      rw [List.filterMap_cons_none h]
      exact ih t
    | some b =>
      rw [List.filterMap_cons_some h, each_cons]
      exact Flow.andThen_congr ih

/-- parts that show the items of some elements and nothing for the others -/
theorem flatMap_ite (p : α → Prop) [DecidablePred p] (g : α → List β) (as : List α) :
    (as.flatMap fun a => if p a then g a else []) = (as.filter fun a => p a).flatMap g := by
  induction as with
  | nil => rfl
  | cons a as ih =>
    rw [List.flatMap_cons, ih]
    by_cases h : p a
    · rw [if_pos h, List.filter_cons_of_pos (by simpa using h), List.flatMap_cons]
    · rw [if_neg h, List.filter_cons_of_neg (by simpa using h), List.nil_append]

theorem gather_each (items : List ι) : (gather fun visit s => each visit items s) = items := by
  show (each keep items []).state.reverse = items
  rw [each_keep, List.append_nil]
  exact List.reverse_reverse items

/-- a search that shows a list to every visitor gathers it -/
theorem gather_eq {search : Visitor (List ι) ι → List ι → Flow (List ι) (List ι)} {items : List ι}
    (h : ∀ visit s, search visit s = each visit items s) : gather search = items := by
  rw [← gather_each items]
  congr 1
  funext visit s
  exact h visit s

/-! ## invariants -/

namespace Flow

/-- the search stops in a state with `P`, or goes on with a value with `Q` -/
def Ends (P : σ → Prop) (Q : α → Prop) : Flow σ α → Prop
  | stop s => P s
  | proceed a => Q a

variable {P : σ → Prop} {Q Q' : α → Prop} {R : β → Prop}

theorem Ends.mono {w : Flow σ α} (hw : w.Ends P Q) (h : ∀ a, Q a → Q' a) : w.Ends P Q' := by
  cases w with
  | stop s => exact hw
  | proceed a => exact h a hw

theorem Ends.andThen {w : Flow σ α} (hw : w.Ends P Q) {f : α → Flow σ β}
    (hf : ∀ a, Q a → (f a).Ends P R) : (w.andThen f).Ends P R := by
  cases w with
  | stop s => exact hw
  | proceed a => exact hf a hw

end Flow

theorem each_ends {P : σ → Prop} {Q : τ → Prop} {part : τ → α → Flow σ τ} {as : List α}
    (h : ∀ a ∈ as, ∀ t, Q t → (part t a).Ends P Q) {t : τ} (ht : Q t) :
    (each part as t).Ends P Q := by
  induction as generalizing t with
  | nil => exact ht
  | cons a as ih =>
    obtain ⟨ha, has⟩ := List.forall_mem_cons.mp h
    exact (ha t ht).andThen fun t' ht' => ih has ht'

/-! ## searches looked at through a function -/

namespace Flow

/-- the flow with its states and its values mapped -/
def mapBoth (g : σ → σ') (h : α → β) : Flow σ α → Flow σ' β
  | stop s => stop (g s)
  | proceed a => proceed (h a)

theorem mapBoth_andThen {g : σ → σ'} {h : α → β} {k : γ → τ} {w : Flow σ α} {f : α → Flow σ γ}
    {f' : β → Flow σ' τ} (hf : ∀ a, (f a).mapBoth g k = f' (h a)) :
    (w.andThen f).mapBoth g k = (w.mapBoth g h).andThen f' := by
  cases w with
  | stop s => rfl
  | proceed a => exact hf a

end Flow

theorem each_mapBoth {g : σ → σ'} {h : τ → τ'} {part : τ → α → Flow σ τ}
    {part' : τ' → α → Flow σ' τ'} (hpart : ∀ a t, (part t a).mapBoth g h = part' (h t) a)
    (as : List α) (t : τ) : (each part as t).mapBoth g h = each part' as (h t) := by
  induction as generalizing t with
  | nil => rfl
  | cons a as ih =>
    rw [each_cons, each_cons, ← hpart]
    exact Flow.mapBoth_andThen ih

end PuyoChain
