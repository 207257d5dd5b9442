import PuyoChain.Proofs.Search.Visiting

/-!
# Searches with steps that may fail and loops that break off

The loops of a search as a program runs them: a step may fail, the visitor may stop the search, and
a loop may break off before the end of its list, after which the search goes on.

* `Flow.andThen?`   a part that may fail, after a part that was not stopped;
* `each?`           a part that may fail for every element of a list;
* `loop?`           a loop whose turns say whether it goes on (`loop?_cons_yield`,
                    `loop?_cons_done`);
* `Realizes`        a program that may fail and does not: seen through a function of the states, it
                    does what a search without failure does.  Where its parts do, a list of them
                    does (`realizes_each?`, and `realizes_loop?` where no turn breaks off);
* `ShowsList`       a program that may fail and does not: it shows the items of a list.
-/

namespace PuyoChain

variable {σ τ τ' α β γ : Type}

/-! ## parts that may fail -/

/-- a second part that may fail, after a first part that was not stopped -/
def Flow.andThen? : Flow σ α → (α → Option (Flow σ β)) → Option (Flow σ β)
  | stop s, _ => some (stop s)
  | proceed a, f => f a

/-- a second part that does not fail -/
theorem Flow.andThen?_eq_some {w : Flow σ α} {f? : α → Option (Flow σ β)} {f : α → Flow σ β}
    (h : ∀ a, f? a = some (f a)) : w.andThen? f? = some (w.andThen f) := by
  cases w with
  | stop s => rfl
  | proceed a => exact h a

theorem Flow.map_andThen? (g : α → β) (w : Flow σ α) (f : β → Option (Flow σ γ)) :
    (w.map g).andThen? f = w.andThen? fun a => f (g a) := by
  cases w <;> rfl

theorem Flow.map_fst_pair (w : Flow σ α) (b : β) : (w.map fun a => (a, b)).map Prod.fst = w := by
  rw [map_map]
  exact map_id w

/-- a part that may fail for every element of a list, until one is stopped -/
def each? (part? : τ → α → Option (Flow σ τ)) : List α → τ → Option (Flow σ τ)
  | [], t => some (.proceed t)
  | a :: as, t => (part? t a).bind fun w => w.andThen? (each? part? as)

theorem each?_cons (part? : τ → α → Option (Flow σ τ)) (a : α) (as : List α) (t : τ) :
    each? part? (a :: as) t = (part? t a).bind fun w => w.andThen? (each? part? as) := rfl

theorem each?_congr {part? part?' : τ → α → Option (Flow σ τ)} {as : List α}
    (h : ∀ a ∈ as, ∀ t, part? t a = part?' t a) (t : τ) : each? part? as t = each? part?' as t := by
  induction as generalizing t with
  | nil => rfl
  | cons a as ih =>
    obtain ⟨ha, has⟩ := List.forall_mem_cons.mp h
    rw [each?_cons, ha t, funext (ih has)]
    rfl

/-! ## loops that break off -/

/-- a turn that may fail for every element of a list, until one is stopped or breaks off -/
def loop? (turn? : τ → α → Option (Flow σ (ForInStep τ))) : List α → τ → Option (Flow σ τ)
  | [], t => some (.proceed t)
  | a :: as, t => (turn? t a).bind fun w => w.andThen? fun
      | .yield t => loop? turn? as t
      | .done t => some (.proceed t)

section
variable {turn? : τ → α → Option (Flow σ (ForInStep τ))} {t : τ} {a : α} {w : Flow σ τ}

/-- the loop goes on after a turn, if the turn was not stopped -/
theorem loop?_cons_yield (h : turn? t a = some (w.map .yield)) (as : List α) :
    loop? turn? (a :: as) t = w.andThen? (loop? turn? as) := by
  show ((turn? t a).bind fun w => w.andThen? _) = _
  rw [h, Option.bind_some, Flow.map_andThen?]

/-- the loop ends with a turn, stopped or not -/
theorem loop?_cons_done (h : turn? t a = some (w.map .done)) (as : List α) :
    loop? turn? (a :: as) t = some w := by
  show ((turn? t a).bind fun w => w.andThen? _) = _
  rw [h, Option.bind_some, Flow.map_andThen?]
  cases w <;> rfl

end

/-! ## searches that do not fail -/

/-- from the image of a state the program does not fail, and ends as the plain search does from the
state itself -/
def Realizes (g : τ → τ') (plain : τ → Flow σ τ) (program : τ' → Option (Flow σ τ')) : Prop :=
  ∀ t, program (g t) = some ((plain t).map g)

section
variable {g : τ → τ'} {plain : τ → Flow σ τ} {program : τ' → Option (Flow σ τ')}

/-- one after the other -/
theorem Realizes.andThen? (h : Realizes g plain program) (w : Flow σ τ) :
    (w.map g).andThen? program = some ((w.andThen plain).map g) := by
  cases w with
  | stop s => rfl
  | proceed t => exact h t

theorem realizes_each? {part : τ → α → Flow σ τ} {part? : τ' → α → Option (Flow σ τ')} {as : List α}
    (h : ∀ a ∈ as, Realizes g (fun t => part t a) fun t => part? t a) :
    Realizes g (each part as) (each? part? as) := by
  induction as with
  | nil => exact fun _ => rfl
  | cons a as ih =>
    obtain ⟨ha, has⟩ := List.forall_mem_cons.mp h
    intro t
    have hpart : part? (g t) a = some ((part t a).map g) := ha t
    rw [each?_cons, hpart, each_cons]
    exact (ih has).andThen? _

/-- parts that show items of their own show one list of items -/
theorem realizes_each?_flatMap {part : τ → β → Flow σ τ} {items : α → List β}
    {part? : τ' → α → Option (Flow σ τ')} {as : List α}
    (h : ∀ a ∈ as, Realizes g (each part (items a)) fun t => part? t a) :
    Realizes g (each part (as.flatMap items)) (each? part? as) := by
  intro t
  rw [each_flatMap]
  exact realizes_each? h t

theorem realizes_loop? {part : τ → α → Flow σ τ} {turn? : τ' → α → Option (Flow σ (ForInStep τ'))}
    {as : List α}
    (h : ∀ a ∈ as, ∀ t, turn? (g t) a = some (((part t a).map g).map .yield)) :
    Realizes g (each part as) (loop? turn? as) := by
  induction as with
  | nil => exact fun _ => rfl
  | cons a as ih =>
    obtain ⟨ha, has⟩ := List.forall_mem_cons.mp h
    intro t
    rw [loop?_cons_yield (ha t), each_cons]
    exact (ih has).andThen? _

end

/-- the program does not fail and shows the items of a list, in order -/
def ShowsList (visit : Visitor τ β) (items : List β) (program : τ → Option (Flow τ τ)) : Prop :=
  ∀ t, program t = some (each visit items t)

theorem showsList_iff_realizes {visit : Visitor τ β} {items : List β}
    {program : τ → Option (Flow τ τ)} :
    ShowsList visit items program ↔ Realizes (fun t => t) (each visit items) program := by
  unfold ShowsList Realizes
  simp only [Flow.map_id]

theorem showsList_each? {visit : Visitor τ β} {items : α → List β}
    {part? : τ → α → Option (Flow τ τ)} {as : List α}
    (h : ∀ a ∈ as, ShowsList visit (items a) fun t => part? t a) :
    ShowsList visit (as.flatMap items) (each? part? as) := by
  refine showsList_iff_realizes.mpr (realizes_each?_flatMap fun a ha => ?_)
  exact showsList_iff_realizes.mp (h a ha)

end PuyoChain
