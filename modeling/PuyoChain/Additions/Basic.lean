import PuyoChain.Color
import PuyoChain.Cell

/-!
# Hypothetical additions to a field

* `Addition`      one puyo put on top of a column;
* `Additions`     an ordered list of them, of at most `capacity` entries in columns of the field
                  when it is built by `add`, `addCopies` and `merge`;
* `ColorCount`    how many puyos of each normal color a list holds.

An operation that would break the bounds answers `none`.
-/

namespace PuyoChain

/-- one puyo put on top of a column -/
structure Addition where
  x : Nat
  color : Color
  deriving DecidableEq, Repr

/-- additions in the order in which they are made -/
structure Additions where
  entries : List Addition
  deriving DecidableEq, Repr

/-- how many puyos of each normal color there are -/
structure ColorCount where
  red : Nat
  blue : Nat
  yellow : Nat
  green : Nat
  deriving DecidableEq, Repr

namespace ColorCount

def zero : ColorCount := ⟨0, 0, 0, 0⟩

/-- `n` more puyos of a color; a color that is not normal counts nowhere -/
def addCopies (s : ColorCount) (c : Color) (n : Nat) : ColorCount :=
  match c with
  | .red => { s with red := s.red + n }
  | .blue => { s with blue := s.blue + n }
  | .yellow => { s with yellow := s.yellow + n }
  | .green => { s with green := s.green + n }
  | .empty | .wall | .garbage => s

def add (s : ColorCount) (c : Color) : ColorCount := s.addCopies c 1

def count (s : ColorCount) : Color → Nat
  | .red => s.red
  | .blue => s.blue
  | .yellow => s.yellow
  | .green => s.green
  | .empty | .wall | .garbage => 0

def size (s : ColorCount) : Nat := s.red + s.blue + s.yellow + s.green

theorem count_addCopies (s : ColorCount) (c d : Color) (n : Nat) :
    (s.addCopies c n).count d = s.count d + if c = d ∧ c.isNormal = true then n else 0 := by
  cases c <;> cases d <;> simp [addCopies, count, Color.isNormal]

end ColorCount

namespace Additions

/-- the largest number of entries: one for each cell of the field -/
def capacity : Nat := 84

def empty : Additions := ⟨[]⟩

def size (l : Additions) : Nat := l.entries.length

def isEmpty (l : Additions) : Bool := l.entries.isEmpty

def get? (l : Additions) (i : Nat) : Option Addition := l.entries[i]?

/-- `n` more puyos of one color on column `x`, if the field has the column and the list has room
for all of them -/
def addCopies (l : Additions) (x : Nat) (c : Color) (n : Nat) : Option Additions :=
  if (1 ≤ x ∧ x ≤ 6) ∧ l.size + n ≤ capacity then
    some ⟨l.entries ++ List.replicate n ⟨x, c⟩⟩
  else none

/-- one more puyo on column `x`, if the field has the column and the list has room -/
def add (l : Additions) (x : Nat) (c : Color) : Option Additions := l.addCopies x c 1

/-- the entries of both lists, if one list has room for them -/
def merge (l m : Additions) : Option Additions :=
  if l.size + m.size ≤ capacity then some ⟨l.entries ++ m.entries⟩ else none

def truncate (l : Additions) (n : Nat) : Additions := ⟨l.entries.take n⟩

def pop (l : Additions) : Additions := ⟨l.entries.dropLast⟩

def last? (l : Additions) : Option Addition := l.entries.getLast?

def sizeOn (l : Additions) (x : Nat) : Nat := l.entries.countP fun a => a.x == x

def colorCount (l : Additions) : ColorCount :=
  l.entries.foldl (fun s a => s.add a.color) ColorCount.zero

theorem entries_addCopies {l m : Additions} {x : Nat} {c : Color} {n : Nat}
    (h : l.addCopies x c n = some m) : m.entries = l.entries ++ List.replicate n ⟨x, c⟩ := by
  unfold addCopies at h
  split at h
  · rw [← Option.some.inj h]
  · cases h

theorem entries_merge {l m k : Additions} (h : l.merge m = some k) :
    k.entries = l.entries ++ m.entries := by
  unfold merge at h
  split at h
  · rw [← Option.some.inj h]
  · cases h

/-- the list before is what is left when the list is cut back to its length -/
theorem truncate_addCopies {l m : Additions} {x : Nat} {c : Color} {n : Nat}
    (h : l.addCopies x c n = some m) : m.truncate l.size = l := by
  show (⟨m.entries.take l.entries.length⟩ : Additions) = l
  rw [entries_addCopies h, List.take_left]

theorem size_addCopies {l m : Additions} {x : Nat} {c : Color} {n : Nat}
    (h : l.addCopies x c n = some m) : m.size = l.size + n := by
  simp [size, entries_addCopies h]

end Additions

end PuyoChain
