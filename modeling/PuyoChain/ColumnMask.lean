import PuyoChain.Cell

/-!
# Sets of columns

* `ColumnMask`            a set of columns as the bits of a byte, bit `x` for column `x`;
* `ColumnMask.contains`   only columns of the field are ever in a mask, whatever its other bits.
-/

namespace PuyoChain

/-- a set of columns, bit `x` for column `x` -/
structure ColumnMask where
  bits : BitVec 8
  deriving DecidableEq

namespace ColumnMask

def empty : ColumnMask := ⟨0⟩

/-- all columns of the field -/
def all : ColumnMask := ⟨126⟩

def contains (m : ColumnMask) (x : Nat) : Bool := 1 ≤ x && x ≤ 6 && m.bits.getLsbD x

/-- the mask with column `x`, if the field has it -/
def insert (m : ColumnMask) (x : Nat) : ColumnMask :=
  if 1 ≤ x ∧ x ≤ 6 then ⟨m.bits ||| BitVec.twoPow 8 x⟩ else m

/-- the mask without column `x` -/
def erase (m : ColumnMask) (x : Nat) : ColumnMask :=
  if 1 ≤ x ∧ x ≤ 6 then ⟨m.bits &&& ~~~ BitVec.twoPow 8 x⟩ else m

/-- column `x` alone, if the field has it -/
def only (x : Nat) : ColumnMask := empty.insert x

def ofList (xs : List Nat) : ColumnMask := xs.foldl insert empty

def isEmpty (m : ColumnMask) : Bool := m.bits == 0

/-- the columns of the mask, in ascending order -/
def toList (m : ColumnMask) : List Nat := fieldColumns.filter m.contains

theorem contains_empty (x : Nat) : empty.contains x = false := by
  simp [contains, empty]

theorem contains_insert (m : ColumnMask) (x y : Nat) (h : 1 ≤ x ∧ x ≤ 6) :
    (m.insert x).contains y = (decide (y = x) || m.contains y) := by
  unfold insert contains
  rw [if_pos h]
  by_cases hy : 1 ≤ y ∧ y ≤ 6
  · have h8 : x < 8 := by omega
    simp only [hy.1, hy.2, decide_true, Bool.true_and, BitVec.getLsbD_or, BitVec.getLsbD_twoPow, h8,
      @eq_comm Nat x]
    rw [Bool.or_comm]
  · have hne : y ≠ x := fun e => hy (e ▸ h)
    have : (decide (1 ≤ y) && decide (y ≤ 6)) = false := by
      simp only [Bool.and_eq_false_iff, decide_eq_false_iff_not]
      omega
    simp [this, hne]

theorem insert_of_not_column {m : ColumnMask} {x : Nat} (h : ¬ (1 ≤ x ∧ x ≤ 6)) :
    m.insert x = m := if_neg h

theorem mem_toList_iff (m : ColumnMask) (x : Nat) : x ∈ m.toList ↔ m.contains x = true := by
  simp only [toList, List.mem_filter, mem_fieldColumns_iff]
  constructor
  · exact fun h => h.2
  · intro h
    refine ⟨?_, h⟩
    simp only [contains, Bool.and_eq_true, decide_eq_true_eq] at h
    exact h.1

end ColumnMask

end PuyoChain
