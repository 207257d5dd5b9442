import Mathlib.Logic.Function.Iterate
import PuyoChain.Cell
import PuyoChain.Field.Zobrist

/-!
# The keys of the map are different

* `Zobrist.nextState_injective`   the generator never merges two states;
* `Zobrist.iterate_inj`           the first 1024 states after the seed are different;
* `Zobrist.key_ne_zero`, `Zobrist.key_inj`   the keys of the map are not 0, and different contents
                                  of its cells have different keys.

Each of the three exclusive ors of a step can be undone bit by bit, beginning with the bits that the
shift leaves alone.  So if two states were equal, the seed itself would come back after as many
steps as lie between them, and it does not within 1024 steps (`seed_not_mem_states`).
-/

namespace PuyoChain

namespace Zobrist

/-! ## one step of the generator -/

/-- the bits below the shift stand alone, each of the others after one of a lower place -/
theorem xor_shiftLeft_injective {w k : Nat} (hk : 0 < k) :
    Function.Injective fun s : BitVec w => s ^^^ s <<< k := by
  intro s t h
  refine BitVec.eq_of_getLsbD_eq fun i => ?_
  induction i using Nat.strongRecOn with
  | ind i ih =>
    intro hi
    have hbit : (s ^^^ s <<< k).getLsbD i = (t ^^^ t <<< k).getLsbD i :=
      congrArg (BitVec.getLsbD · i) h
    rw [BitVec.getLsbD_xor, BitVec.getLsbD_xor, BitVec.getLsbD_shiftLeft,
      BitVec.getLsbD_shiftLeft] at hbit
    by_cases hik : i < k
    · simpa [hik] using hbit
    · rw [ih (i - k) (by omega) (by omega)] at hbit
      exact Bool.xor_left_inj.mp hbit

/-- the highest bits stand alone, each of the others after one of a higher place -/
theorem xor_shiftRight_injective {w k : Nat} (hk : 0 < k) :
    Function.Injective fun s : BitVec w => s ^^^ s >>> k := by
  intro s t h
  have hbits : ∀ n i, w ≤ i + n → s.getLsbD i = t.getLsbD i := by
    intro n
    induction n with
    | zero =>
      intro i hi
      rw [BitVec.getLsbD_of_ge s i hi, BitVec.getLsbD_of_ge t i hi]
    | succ n ih =>
      intro i hi
      have hbit : (s ^^^ s >>> k).getLsbD i = (t ^^^ t >>> k).getLsbD i :=
        congrArg (BitVec.getLsbD · i) h
      rw [BitVec.getLsbD_xor, BitVec.getLsbD_xor, BitVec.getLsbD_ushiftRight,
        BitVec.getLsbD_ushiftRight, ih (k + i) (by omega)] at hbit
      exact Bool.xor_left_inj.mp hbit
  exact BitVec.eq_of_getLsbD_eq fun i _ => hbits w i (Nat.le_add_left w i)

theorem nextState_injective : Function.Injective nextState := by
  have hfirst : Function.Injective fun s : UInt64 => s ^^^ s <<< 13 := fun _ _ h =>
    UInt64.toBitVec_inj.mp
      (xor_shiftLeft_injective (k := 13) (by decide) (congrArg UInt64.toBitVec h))
  have hsecond : Function.Injective fun s : UInt64 => s ^^^ s >>> 7 := fun _ _ h =>
    UInt64.toBitVec_inj.mp
      (xor_shiftRight_injective (k := 7) (by decide) (congrArg UInt64.toBitVec h))
  have hthird : Function.Injective fun s : UInt64 => s ^^^ s <<< 17 := fun _ _ h =>
    UInt64.toBitVec_inj.mp
      (xor_shiftLeft_injective (k := 17) (by decide) (congrArg UInt64.toBitVec h))
  exact hthird.comp (hsecond.comp hfirst)

/-! ## the states after the seed -/

theorem states_eq_map (n : Nat) (s : UInt64) :
    states n s = (List.range n).map fun i => nextState^[i + 1] s := by
  induction n generalizing s with
  | zero => rfl
  | succ n ih =>
    rw [states, ih, List.range_succ_eq_map, List.map_cons, List.map_map]
    rfl

theorem seed_not_mem_states : seed ∉ states 1024 seed := by decide +kernel

theorem iterate_ne_seed {n : Nat} (h0 : 0 < n) (h : n ≤ 1024) : nextState^[n] seed ≠ seed := by
  intro e
  refine seed_not_mem_states ?_
  rw [states_eq_map, List.mem_map]
  exact ⟨n - 1, List.mem_range.mpr (by omega), by rwa [Nat.sub_add_cancel h0]⟩

/-- the seed and the first 1024 states after it are different -/
theorem iterate_inj {m n : Nat} (hm : m ≤ 1024) (hn : n ≤ 1024)
    (h : nextState^[m] seed = nextState^[n] seed) : m = n := by
  rcases Nat.lt_trichotomy m n with hlt | heq | hgt
  · have hback := Function.iterate_cancel nextState_injective h.symm
    exact absurd hback (iterate_ne_seed (by omega) (by omega))
  · exact heq
  · have hback := Function.iterate_cancel nextState_injective h
    exact absurd hback (iterate_ne_seed (by omega) (by omega))

/-- 0 is a state of its own, which the generator does not leave or enter -/
theorem iterate_ne_zero (n : Nat) : nextState^[n] seed ≠ 0 := by
  intro h
  have hzero : nextState^[n] 0 = 0 := Function.iterate_fixed rfl n
  have hseed : seed = 0 := nextState_injective.iterate n (h.trans hzero.symm)
  exact absurd hseed (by decide)

/-! ## the keys -/

section
variable {x y : Nat} (hx : x < 8) (hy : y < 16) {a : Color}
include hx hy

theorem key_eq_iterate : key x y a = nextState^[128 * x + 8 * y + a.index + 1] seed := by
  have ha : a.index < 8 := a.index_lt
  have hi : 128 * x + 8 * y + a.index < 1024 := by omega
  rw [key, keys, states_eq_map, Array.getD_eq_getD_getElem?, List.getElem?_toArray,
    List.getElem?_map, List.getElem?_range hi, Option.map_some, Option.getD_some]

theorem key_ne_zero : key x y a ≠ 0 := by
  rw [key_eq_iterate hx hy]
  exact iterate_ne_zero _

theorem key_inj {x' y' : Nat} (hx' : x' < 8) (hy' : y' < 16) {b : Color}
    (h : key x y a = key x' y' b) : x = x' ∧ y = y' ∧ a = b := by
  have ha : a.index < 8 := a.index_lt
  have hb : b.index < 8 := b.index_lt
  rw [key_eq_iterate hx hy, key_eq_iterate hx' hy'] at h
  have hplace := iterate_inj (by omega) (by omega) h
  exact ⟨by omega, by omega, Color.index_injective (by omega)⟩

end

end Zobrist

end PuyoChain
