import PuyoChain.Proofs.Candidate.Keys
import PuyoChain.Proofs.Candidate.Recursion

/-!
# The shared list of the key searches

The two key searches as programs in which all calls work on one list: each adds to it, and takes off
again what it has added before it goes on.

* `keysFrom?`    runs of puyos, added together and cut off by the length that the list had before;
* `oneEach?`     single puyos, added to the end and taken from it;
* `keysFrom?_eq_visitKeysUpTo`, `oneEach?_eq_visitThirteenthRow`   the list always has room, no
                 subtraction fails, and the search shows what it shows where every call has a list
                 of its own.  Unless the visitor stops it, it ends with the list that it began with.
-/

namespace PuyoChain

/-- the list before is what is left when the last entry is taken off -/
theorem Additions.pop_add {l m : Additions} {x : Nat} {a : Color} (h : l.add x a = some m) :
    m.pop = l := by
  show (⟨m.entries.dropLast⟩ : Additions) = l
  rw [entries_addCopies h]
  exact congrArg Additions.mk List.dropLast_concat

section
variable {σ : Type} (f : Field) (visit : Visitor σ Candidate)

/-- puts a run of `n` puyos into the list and cuts it off after the call that goes on from there;
breaks off where the list has no room -/
def keyTurn? (call : Nat → Shared σ → Option (Flow σ (Shared σ))) (x : Nat) (a : Color)
    (t : Shared σ) (n : Nat) : Option (Flow σ (ForInStep (Shared σ))) :=
  match t.2.addCopies x a n with
  | none => some ((Flow.proceed t).map .done)
  | some m => (call n (t.1, m)).map fun w =>
    (w.map fun t' => (t'.1, t'.2.truncate t.2.size)).map .yield

/-- the key additions in the list with all ways to go on, on at most `columns` of the columns of a
list and with at most `puyos` more puyos -/
def keysFrom? (w : KeyLimits) : List Nat → (columns : Nat) → (puyos : Nat) → Shared σ →
    Option (Flow σ (Shared σ))
  | [], _, _, t => some ((showKeys f visit t.2 t.1).map fun s => (s, t.2))
  | x :: xs, columns, puyos, t =>
    (keysFrom? w xs columns puyos t).bind fun v => v.andThen? fun t =>
      if columns = 0 || w.prohibited.contains x then some (.proceed t)
      else
        let most := min w.perColumn (min puyos (w.ceiling - f.height x))
        each? (fun t a => loop? (keyTurn? (fun n t => (Nat.psub columns 1).bind fun columns =>
          (Nat.psub puyos n).bind fun puyos => keysFrom? w xs columns puyos t) x a)
          (rowsUpTo most) t) Color.normals t

/-- puts one puyo into the list and takes it off after the call that goes on from there; a list that
has no room stays as it is -/
def oneTurn? (call : Shared σ → Option (Flow σ (Shared σ))) (x : Nat) (t : Shared σ) (a : Color) :
    Option (Flow σ (Shared σ)) :=
  (call (t.1, (t.2.add x a).getD t.2)).map fun w => w.map fun t' => (t'.1, t'.2.pop)

/-- the additions in the list with nothing or one puyo of each color on the columns of a list -/
def oneEach? : List Nat → Shared σ → Option (Flow σ (Shared σ))
  | [], t => some ((visitOneEach f visit [] t.2 t.1).map fun s => (s, t.2))
  | x :: xs, t =>
    (oneEach? xs t).bind fun v => v.andThen? (each? (oneTurn? (oneEach? xs) x) Color.normals)

end

section
variable {σ : Type} {f : Field} {visit : Visitor σ Candidate} {l m : Additions}
  {plain : σ → Flow σ σ}

/-! ## runs of puyos -/

theorem keyTurn?_eq {call : Nat → Shared σ → Option (Flow σ (Shared σ))} {x n : Nat} {a : Color}
    (hm : l.addCopies x a n = some m) (h : Realizes (fun s => (s, m)) plain (call n)) (s : σ) :
    keyTurn? call x a (s, l) n = some (((plain s).map fun s => (s, l)).map .yield) := by
  unfold keyTurn?
  dsimp only
  rw [hm]
  dsimp only
  rw [h s, Option.map_some, map_cut (Additions.truncate_addCopies hm)]

/-- no run is longer than a column is high, so that there is room for one on each column -/
theorem realizes_keysFrom? {w : KeyLimits} (hw : w.ceiling ≤ 12) {xs : List Nat}
    (hxs : ∀ x ∈ xs, 1 ≤ x ∧ x ≤ 6) (columns puyos : Nat)
    (hl : l.size + 12 * xs.length ≤ Additions.capacity) :
    Realizes (fun s => (s, l)) (visitKeysFrom f w visit xs columns puyos l)
      (keysFrom? f visit w xs columns puyos) := by
  induction xs generalizing columns puyos l with
  | nil => exact fun s => rfl
  | cons x xs ih =>
    obtain ⟨hx, hxs⟩ := List.forall_mem_cons.mp hxs
    rw [List.length_cons] at hl
    intro s
    have hrest := ih (l := l) hxs columns puyos (by omega) s
    show ((keysFrom? f visit w xs columns puyos (s, l)).bind _) = _
    rw [hrest, visitKeysFrom]
    refine Realizes.andThen? (g := fun s => (s, l)) (fun s => ?_) _
    dsimp only
    by_cases hstop : (decide (columns = 0) || w.prohibited.contains x) = true
    · rw [if_pos hstop, if_pos hstop]
      rfl
    · rw [if_neg hstop, if_neg hstop, keyStacks, each_flatMap]
      simp only [each_map]
      refine realizes_each? (g := fun s => (s, l)) (fun a _ => realizes_loop? fun n hn s => ?_) s
      have hrow := (mem_rowsUpTo_iff _ n).mp hn
      obtain ⟨m, hm⟩ : ∃ m, l.addCopies x a n = some m := ⟨_, if_pos ⟨hx, by omega⟩⟩
      have hcall : Realizes (fun s => (s, m))
          (visitKeysFrom f w visit xs (columns - 1) (puyos - n) m) fun t =>
            (Nat.psub columns 1).bind fun columns => (Nat.psub puyos n).bind fun puyos =>
              keysFrom? f visit w xs columns puyos t := by
        simp only [Bool.or_eq_true, decide_eq_true_eq, not_or] at hstop
        rw [Nat.psub_eq_sub (by omega : 1 ≤ columns), Nat.psub_eq_sub (by omega : n ≤ puyos)]
        refine ih hxs (columns - 1) (puyos - n) ?_
        rw [Additions.size_addCopies hm]
        omega
      rw [hm]
      exact keyTurn?_eq hm hcall s

/-- **A key search leaves the shared list as it is.**  Its calls never fail, on any field and within
any limits, and it shows the visitor what `visitKeysUpTo` shows. -/
theorem keysFrom?_eq_visitKeysUpTo (f : Field) (s : Strategy) (prohibited : ColumnMask)
    (maxColumns perColumn maxPuyos : Nat) (visit : Visitor σ Candidate) (st : σ) :
    keysFrom? f visit ⟨s.ceiling, prohibited, perColumn⟩ fieldColumns maxColumns maxPuyos
        (st, .empty) =
      some ((visitKeysUpTo f s prohibited maxColumns perColumn maxPuyos visit st).map
        fun st => (st, .empty)) :=
  realizes_keysFrom? s.ceiling_le column_of_mem_fieldColumns maxColumns maxPuyos (by decide) st

/-! ## single puyos -/

theorem realizes_oneTurn? {call : Shared σ → Option (Flow σ (Shared σ))} {x : Nat} {a : Color}
    (hm : l.add x a = some m) (h : Realizes (fun s => (s, m)) plain call) :
    Realizes (fun s => (s, l)) plain fun t => oneTurn? call x t a := by
  intro s
  unfold oneTurn?
  dsimp only
  rw [hm, Option.getD_some, h s, Option.map_some, Flow.map_map]
  simp only [Additions.pop_add hm]

theorem realizes_oneEach? {xs : List Nat} (hxs : ∀ x ∈ xs, 1 ≤ x ∧ x ≤ 6)
    (hl : l.size + xs.length ≤ Additions.capacity) :
    Realizes (fun s => (s, l)) (visitOneEach f visit xs l) (oneEach? f visit xs) := by
  induction xs generalizing l with
  | nil => exact fun s => rfl
  | cons x xs ih =>
    obtain ⟨hx, hxs⟩ := List.forall_mem_cons.mp hxs
    rw [List.length_cons] at hl
    intro s
    have hrest := ih (l := l) hxs (by omega) s
    show ((oneEach? f visit xs (s, l)).bind _) = _
    rw [hrest, visitOneEach]
    refine Realizes.andThen? (realizes_each? fun a _ => ?_) _
    obtain ⟨m, hm⟩ : ∃ m, l.add x a = some m := ⟨_, if_pos ⟨hx, by omega⟩⟩
    refine realizes_oneTurn? hm ?_
    rw [hm]
    refine ih hxs ?_
    rw [Additions.size_addCopies hm]
    omega

theorem length_fullColumns_le (f : Field) (allowed : ColumnMask) :
    (fullColumns f allowed).length ≤ 6 :=
  Nat.le_trans (List.length_filter_le ..) (List.length_filter_le ..)

/-- **The search of row 13 leaves the shared list as it is.**  No call fails, on any field, and it
shows the visitor what `visitThirteenthRow` shows. -/
theorem oneEach?_eq_visitThirteenthRow (f : Field) (allowed : ColumnMask)
    (visit : Visitor σ Candidate) (st : σ) :
    oneEach? f visit (fullColumns f allowed) (st, .empty) =
      some ((visitThirteenthRow f allowed visit st).map fun st => (st, .empty)) := by
  have hlen := length_fullColumns_le f allowed
  refine realizes_oneEach? (fun x hx => ?_) ?_ st
  · exact column_of_mem_fieldColumns x (List.mem_of_mem_filter (List.mem_of_mem_filter hx))
  · show 0 + _ ≤ 84
    omega

end

end PuyoChain
