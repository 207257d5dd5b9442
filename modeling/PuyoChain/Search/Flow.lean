/-!
# Searches that a visitor may stop

A search shows its items, one after the other, to a visitor.  The visitor carries a state of type
`σ` from item to item and says after each whether the search goes on.

* `Flow σ α`        the search goes on with an `α`, or it was stopped with the state `σ`;
* `Flow.andThen`    what a search does after a part that was not stopped;
* `each`            a part for every element of a list, in order (`each_append`, `each_flatMap`);
* `gather`          all items of a search, shown to a visitor that never stops it.
-/

namespace PuyoChain

/-- how a search goes on -/
inductive Flow (σ α : Type) where
  /-- the visitor has stopped the search in state `s` -/
  | stop (s : σ)
  /-- the search goes on with `a` -/
  | proceed (a : α)
  deriving DecidableEq, Repr

/-- what a visitor does with an item in a state -/
abbrev Visitor (σ ι : Type) := σ → ι → Flow σ σ

section
variable {σ τ α β γ ι : Type}

namespace Flow

/-- the second part of a search after a first part that was not stopped -/
def andThen : Flow σ α → (α → Flow σ β) → Flow σ β
  | stop s, _ => stop s
  | proceed a, f => f a

/-- the value that the search goes on with, changed -/
def map (f : α → β) (w : Flow σ α) : Flow σ β := w.andThen fun a => proceed (f a)

def isStop : Flow σ α → Bool
  | stop _ => true
  | proceed _ => false

def state : Flow σ σ → σ
  | stop s => s
  | proceed s => s

theorem stop_andThen (s : σ) (f : α → Flow σ β) : (stop s).andThen f = stop s := rfl

theorem proceed_andThen (a : α) (f : α → Flow σ β) : (proceed a).andThen f = f a := rfl

theorem andThen_proceed (w : Flow σ α) : w.andThen proceed = w := by
  cases w <;> rfl

theorem andThen_assoc (w : Flow σ α) (f : α → Flow σ β) (g : β → Flow σ γ) :
    (w.andThen f).andThen g = w.andThen fun a => (f a).andThen g := by
  cases w <;> rfl

theorem andThen_congr {w : Flow σ α} {f f' : α → Flow σ β} (h : ∀ a, f a = f' a) :
    w.andThen f = w.andThen f' := by
  congr 1
  funext a
  exact h a

theorem map_stop (f : α → β) (s : σ) : (stop s : Flow σ α).map f = stop s := rfl

theorem map_proceed (f : α → β) (a : α) : (proceed a : Flow σ α).map f = proceed (f a) := rfl

theorem map_andThen (g : α → β) (w : Flow σ α) (f : β → Flow σ γ) :
    (w.map g).andThen f = w.andThen fun a => f (g a) := andThen_assoc ..

theorem andThen_map (w : Flow σ α) (f : α → Flow σ β) (g : β → γ) :
    (w.andThen f).map g = w.andThen fun a => (f a).map g := andThen_assoc ..

theorem map_map (f : α → β) (g : β → γ) (w : Flow σ α) :
    (w.map f).map g = w.map fun a => g (f a) := map_andThen ..

theorem map_id (w : Flow σ α) : (w.map fun a => a) = w := andThen_proceed w

end Flow

/-- a part of a search for every element of a list, until one is stopped -/
def each (part : τ → α → Flow σ τ) : List α → τ → Flow σ τ
  | [], t => .proceed t
  | a :: as, t => (part t a).andThen (each part as)

theorem each_nil (part : τ → α → Flow σ τ) (t : τ) : each part [] t = .proceed t := rfl

theorem each_cons (part : τ → α → Flow σ τ) (a : α) (as : List α) (t : τ) :
    each part (a :: as) t = (part t a).andThen (each part as) := rfl

theorem each_append (part : τ → α → Flow σ τ) (as bs : List α) (t : τ) :
    each part (as ++ bs) t = (each part as t).andThen (each part bs) := by
  induction as generalizing t with
  | nil => rfl
  | cons a as ih =>
    rw [List.cons_append, each_cons, each_cons, Flow.andThen_assoc]
    exact Flow.andThen_congr ih

theorem each_flatMap (part : τ → β → Flow σ τ) (items : α → List β) (as : List α) (t : τ) :
    each part (as.flatMap items) t = each (fun t a => each part (items a) t) as t := by
  induction as generalizing t with
  | nil => rfl
  | cons a as ih =>
    rw [List.flatMap_cons, each_append, each_cons]
    exact Flow.andThen_congr ih

/-- the visitor that keeps every item, last item first, and never stops -/
def keep : Visitor (List ι) ι := fun items i => .proceed (i :: items)

/-- all items that a search shows to a visitor that never stops it, in order -/
def gather (search : Visitor (List ι) ι → List ι → Flow (List ι) (List ι)) : List ι :=
  (search keep []).state.reverse

theorem each_keep (items kept : List ι) : each keep items kept = .proceed (items.reverse ++ kept) := by
  induction items generalizing kept with
  | nil => rfl
  | cons i items ih => rw [each_cons, keep, Flow.proceed_andThen, ih, List.reverse_cons, List.append_assoc]; rfl

end

end PuyoChain
