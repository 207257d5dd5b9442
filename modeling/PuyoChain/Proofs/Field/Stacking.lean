import Mathlib.Algebra.Order.BigOperators.Group.List
import Mathlib.Algebra.Order.Ring.Nat
import PuyoChain.Proofs.Field.Resting

/-!
# Stacking a list of additions

* `Field.stackEach?`         the additions of a list stacked one by one, if each of them finds room;
* `stackAll?_eq_stackEach?`  counting per column beforehand is as good as trying one by one;
* `Field.stackAllInPlace`    stacking as a program that counts first and then puts without a check;
* `SameOrder`                two lists that agree on every column, whatever the order between columns:
                             one is the other reordered (`SameOrder.perm`);
* `stackAll?_of_sameOrder`   they stack to the same field, or fail both;
* `Fits.length_le`           no list that fits is longer than a list may be;
* `stackAll?_concat`         a list after another stacks as the two one after the other do.
-/

namespace PuyoChain

namespace Field

/-! ## one by one -/

/-- the field with all additions on top, each of which has to find room -/
def stackEach? (f : Field) (as : List Addition) : Option Field :=
  as.foldlM (fun g a => g.stack? a.x a.color) f

theorem stackEach?_eq_some_iff (f g : Field) (as : List Addition) :
    f.stackEach? as = some g ↔ f.Fits as ∧ g = f.placeAll as := by
  induction as generalizing f with
  | nil => exact ⟨fun h => ⟨trivial, (Option.some.inj h).symm⟩, fun h => congrArg some h.2.symm⟩
  | cons a as ih =>
    show (f.stack? a.x a.color).bind (fun g => g.stackEach? as) = some g ↔ _
    rw [Option.bind_eq_some_iff]
    constructor
    · intro ⟨k, hk, hg⟩
      obtain ⟨⟨hx, hroom, _⟩, rfl⟩ := (stack?_eq_some_iff f k a.x a.color).mp hk
      obtain ⟨hfit, rfl⟩ := (ih _).mp hg
      exact ⟨⟨hx, hroom, hfit⟩, rfl⟩
    · rintro ⟨⟨hx, hroom, hfit⟩, rfl⟩
      have hk : f.stack? a.x a.color = some (f.place a.x a.color) := if_pos ⟨hx, hroom⟩
      exact ⟨_, hk, (ih _).mpr ⟨hfit, rfl⟩⟩

theorem stackEach?_append (f : Field) (as bs : List Addition) :
    f.stackEach? (as ++ bs) = (f.stackEach? as).bind fun g => g.stackEach? bs := List.foldlM_append

/-- what the counts per column decide is whether each addition finds room when its turn comes -/
theorem stackAll?_eq_some_iff {f : Field} (hf : f.Covered) {l : Additions}
    (hl : ∀ a ∈ l.entries, 1 ≤ a.x ∧ a.x ≤ 6) (g : Field) :
    f.stackAll? l = some g ↔ f.Fits l.entries ∧ g = f.placeAll l.entries := by
  refine ⟨stackAll?_eq_some hl, ?_⟩
  rintro ⟨hfit, rfl⟩
  exact stackAll?_of_fits hf hfit

theorem stackAll?_eq_stackEach? {f : Field} (hf : f.Covered) {l : Additions}
    (hl : ∀ a ∈ l.entries, 1 ≤ a.x ∧ a.x ≤ 6) : f.stackAll? l = f.stackEach? l.entries :=
  Option.ext fun g => (stackAll?_eq_some_iff hf hl g).trans (stackEach?_eq_some_iff f g _).symm

/-! ## in place -/

/-- stacking as a program that changes the field: it counts per column, and then puts every puyo
without looking for room -/
def stackAllInPlace (l : Additions) : StateM Field Bool := do
  let f ← get
  if !f.hasRoomFor l then return false
  for a in l.entries do
    putOn a.x a.color
  return true

theorem run_forIn_putOn (f : Field) (as : List Addition) :
    StateT.run (forIn as PUnit.unit fun a _ => do
      putOn a.x a.color
      return ForInStep.yield PUnit.unit : StateM Field PUnit) f = (PUnit.unit, f.placeAll as) := by
  induction as generalizing f with
  | nil => rfl
  | cons a as ih =>
    rw [List.forIn_cons]
    exact ih (f.place a.x a.color)

theorem run_stackAllInPlace (f : Field) (l : Additions) :
    (stackAllInPlace l).run f = ((f.stackAll? l).isSome, (f.stackAll? l).getD f) := by
  have hget : ∀ k : Field → StateM Field Bool, (get >>= k).run f = (k f).run f := fun _ => rfl
  have hput : ∀ k : StateM Field Bool, ((forIn l.entries PUnit.unit fun a _ => do
      putOn a.x a.color
      return ForInStep.yield PUnit.unit : StateM Field PUnit) >>= fun _ => k).run f =
      k.run (f.placeAll l.entries) := by
    intro k
    rw [StateT.run_bind, run_forIn_putOn]
    rfl
  unfold stackAllInPlace stackAll?
  rw [hget]
  cases hroom : f.hasRoomFor l with
  | false => rfl
  | true =>
    rw [if_neg (by decide), if_pos rfl]
    exact hput (pure true)

/-! ## reordering -/

/-- the same additions in the same order on every column, mixed in some way -/
def SameOrder (as bs : List Addition) : Prop :=
  ∀ x, as.filter (fun a => a.x == x) = bs.filter fun a => a.x == x

theorem SameOrder.swap {a b : Addition} (h : a.x ≠ b.x) (as : List Addition) :
    SameOrder (a :: b :: as) (b :: a :: as) := by
  intro x
  by_cases ha : a.x = x
  · have hb : b.x ≠ x := fun hb => h (ha.trans hb.symm)
    simp [ha, hb]
  · simp [List.filter_cons, ha]

theorem SameOrder.countP_eq {as bs : List Addition} (h : SameOrder as bs) (x : Nat) :
    as.countP (fun a => a.x == x) = bs.countP fun a => a.x == x := by
  rw [List.countP_eq_length_filter, h x, List.countP_eq_length_filter]

theorem SameOrder.perm {as bs : List Addition} (h : SameOrder as bs) : as.Perm bs := by
  refine List.perm_iff_count.mpr fun a => ?_
  have hcount : ∀ cs : List Addition, (cs.filter fun b => b.x == a.x).count a = cs.count a :=
    fun cs => List.count_filter (beq_self_eq_true a.x)
  rw [← hcount as, h a.x, hcount bs]

theorem SameOrder.placeAll_eq {as bs : List Addition} (h : SameOrder as bs) (f : Field) :
    f.placeAll as = f.placeAll bs := by
  refine ext_column? fun x => ?_
  rw [column?_placeAll_filter, h x, ← column?_placeAll_filter]

theorem stackAll?_of_sameOrder (f : Field) {l m : Additions} (h : SameOrder l.entries m.entries) :
    f.stackAll? l = f.stackAll? m := by
  have hroom : f.hasRoomFor l = f.hasRoomFor m := by
    unfold hasRoomFor Additions.sizeOn
    simp only [h.countP_eq]
  have hplace := h.placeAll_eq f
  unfold placeAll at hplace
  rw [stackAll?, stackAll?, hroom, hplace]

/-! ## one list after another -/

theorem length_eq_sum_countP {as : List Addition} (h : ∀ a ∈ as, 1 ≤ a.x ∧ a.x ≤ 6) :
    as.length = (fieldColumns.map fun x => as.countP fun a => a.x == x).sum := by
  induction as with
  | nil => rfl
  | cons a as ih =>
    obtain ⟨hx, has⟩ := List.forall_mem_cons.mp h
    have hone : ∀ z ∈ fieldColumns,
        (fieldColumns.map fun x => if (z == x) = true then 1 else 0).sum = 1 := by decide
    simp only [List.countP_cons, List.sum_map_add, List.length_cons]
    rw [hone a.x ((mem_fieldColumns_iff a.x).mpr hx), ih has]

/-- a list that fits is not longer than a list may be: no column takes more than 14 -/
theorem Fits.length_le {f : Field} (hf : f.Covered) {as : List Addition} (h : f.Fits as) :
    as.length ≤ Additions.capacity := by
  have hcount : ∀ n ∈ fieldColumns.map fun x => as.countP fun a => a.x == x, n ≤ 14 := by
    intro n hn
    obtain ⟨x, _, rfl⟩ := List.mem_map.mp hn
    have hle := (hf.placeAll h).height_le x
    rw [height_placeAll h.column] at hle
    omega
  rw [length_eq_sum_countP h.column]
  exact List.sum_le_card_nsmul _ 14 hcount

/-- a list after another stacks as the two one after the other do -/
theorem stackAll?_concat {f : Field} (hf : f.Covered) {l m : Additions}
    (hl : ∀ a ∈ l.entries, 1 ≤ a.x ∧ a.x ≤ 6) (hm : ∀ a ∈ m.entries, 1 ≤ a.x ∧ a.x ≤ 6) :
    f.stackAll? ⟨l.entries ++ m.entries⟩ = (f.stackAll? l).bind fun g => g.stackAll? m := by
  have hlm := List.forall_mem_append.mpr ⟨hl, hm⟩
  rw [stackAll?_eq_stackEach? hf hlm, stackAll?_eq_stackEach? hf hl, stackEach?_append]
  refine Option.bind_congr fun g hg => ?_
  obtain ⟨hfit, rfl⟩ := (stackEach?_eq_some_iff f g _).mp hg
  exact (stackAll?_eq_stackEach? (hf.placeAll hfit) hm).symm

/-- two lists that stack one after the other are not too long to be merged -/
theorem merge_bind_stackAll? {f : Field} (hf : f.Covered) {l m : Additions}
    (hl : ∀ a ∈ l.entries, 1 ≤ a.x ∧ a.x ≤ 6) (hm : ∀ a ∈ m.entries, 1 ≤ a.x ∧ a.x ≤ 6) :
    (l.merge m).bind f.stackAll? = (f.stackAll? l).bind fun g => g.stackAll? m := by
  rw [← stackAll?_concat hf hl hm]
  unfold Additions.merge
  by_cases hroom : l.size + m.size ≤ Additions.capacity
  · rw [if_pos hroom]
    rfl
  · rw [if_neg hroom]
    refine (Option.eq_none_iff_forall_ne_some.mpr fun g hg => hroom ?_).symm
    obtain ⟨hfit, _⟩ := stackAll?_eq_some (List.forall_mem_append.mpr ⟨hl, hm⟩) hg
    have hlen := hfit.length_le hf
    rwa [List.length_append] at hlen

/-- **Stacking a list is stacking its entries one by one.**  On every field that operations build,
puyos that hang in the air included, a list that operations build stacks just if each of its
entries finds room when its turn comes, and to the same field.  Where it fails, the program that
counts first has not put a single puyo; where it succeeds, the program puts each of them into an
empty cell of the field, though it does not look for room any more.  The order between the columns
does not matter, and two lists one after the other stack as their merge does. -/
theorem stackAll?_one_by_one {f : Field} (hf : f.Built) {l m : Additions} (hl : l.Built)
    (hm : m.Built) :
    f.stackAll? l = f.stackEach? l.entries ∧
    (f.stackAll? l = none → (stackAllInPlace l).run f = (false, f)) ∧
    (∀ g, f.stackAll? l = some g → (stackAllInPlace l).run f = (true, g) ∧
      ∀ q ∈ f.landings l.entries, q.inField = true ∧ f.colorAt q = .empty) ∧
    (∀ k : Additions, SameOrder k.entries l.entries → f.stackAll? k = f.stackAll? l) ∧
    f.stackAll? ⟨l.entries ++ m.entries⟩ = ((f.stackAll? l).bind fun g => g.stackAll? m) ∧
    (l.merge m).bind f.stackAll? = (f.stackAll? l).bind fun g => g.stackAll? m := by
  have hc := hf.covered
  have hrun := run_stackAllInPlace f l
  refine ⟨stackAll?_eq_stackEach? hc hl.column, fun h => ?_, fun g h => ⟨?_, fun q hq => ?_⟩,
    fun k hk => stackAll?_of_sameOrder f hk, stackAll?_concat hc hl.column hm.column,
    merge_bind_stackAll? hc hl.column hm.column⟩
  · rw [hrun, h]
    rfl
  · rw [hrun, h]
    rfl
  · obtain ⟨hfit, _⟩ := stackAll?_eq_some hl.column h
    have hempty := hc.colorAt_of_mem_landings hfit hq
    exact ⟨inField_of_color_ne_wall (by rw [hempty]; decide), hempty⟩

/-- two puyos for column 2 and one for column 3, which fill both columns of `hangingPuyos` -/
def fillingAdditions : Additions := ⟨[⟨2, .red⟩, ⟨3, .green⟩, ⟨2, .yellow⟩]⟩

/-- one more puyo for column 3 -/
def oneAddition : Additions := ⟨[⟨3, .blue⟩]⟩

/-- with the puyo for column 3 first the list stacks to the same field; with one more puyo for that
column it puts nothing -/
theorem stackAll?_one_by_one_hangingPuyos :
    hangingPuyos.Built ∧ fillingAdditions.Built ∧ oneAddition.Built ∧
      (∃ g, (stackAllInPlace fillingAdditions).run hangingPuyos = (true, g) ∧
        hangingPuyos.stackEach? fillingAdditions.entries = some g ∧
        hangingPuyos.stackAll? ⟨[⟨3, .green⟩, ⟨2, .red⟩, ⟨2, .yellow⟩]⟩ = some g) ∧
      (fillingAdditions.merge oneAddition).bind hangingPuyos.stackAll? = none := by
  have hf : hangingPuyos.Built := ⟨Field.empty, Or.inl rfl, _, rfl⟩
  have hl : fillingAdditions.Built := Additions.built_ofText (s := "(2,R)(3,G)(2,Y)") rfl
  have hm : oneAddition.Built := Additions.built_ofText (s := "(3,B)") rfl
  obtain ⟨heach, _, hsome, horder, _, hmerge⟩ := stackAll?_one_by_one hf hl hm
  obtain ⟨g, hg⟩ : ∃ g, hangingPuyos.stackAll? fillingAdditions = some g :=
    Option.isSome_iff_exists.mp (by decide +kernel)
  have hfull : (hangingPuyos.stackAll? fillingAdditions).bind (fun g => g.stackAll? oneAddition) =
      none := by decide +kernel
  have hsame : SameOrder [⟨3, .green⟩, ⟨2, .red⟩, ⟨2, .yellow⟩] fillingAdditions.entries :=
    .swap (by decide) _
  exact ⟨hf, hl, hm, ⟨g, (hsome g hg).1, heach.symm.trans hg,
    (horder ⟨_⟩ hsame).trans hg⟩, hmerge.trans hfull⟩

end Field

end PuyoChain
