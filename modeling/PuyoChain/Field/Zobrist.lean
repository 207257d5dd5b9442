import PuyoChain.Field.Basic

/-!
# Zobrist hashes of fields

Every content of every cell of the map has a key of 64 bits, and the hash of a field is the
exclusive or of the keys of its cells that are not empty.  The keys are the numbers of an xorshift
generator with shifts 13, 7 and 17, in the order of columns, rows and colors.

* `Zobrist.key`           the key of a content;
* `Field.zobristHash`     the hash of a field; a scan of a column stops at its believed height.
-/

namespace PuyoChain

namespace Zobrist

def seed : UInt64 := 0x9e3779b97f4a7c15

def nextState (s : UInt64) : UInt64 :=
  let s := s ^^^ (s <<< 13)
  let s := s ^^^ (s >>> 7)
  s ^^^ (s <<< 17)

def states : Nat → UInt64 → List UInt64
  | 0, _ => []
  | n + 1, s => nextState s :: states n (nextState s)

/-- the keys in the order of columns, rows and colors -/
def keys : Array UInt64 := (states 1024 seed).toArray

/-- the key of a color in column `x` and row `y` of the map -/
def key (x y : Nat) (a : Color) : UInt64 := keys.getD (128 * x + 8 * y + a.index) 0

end Zobrist

namespace Field

/-- what the cell in column `x` and row `y` adds to the hash -/
def cellHash (f : Field) (x y : Nat) : UInt64 :=
  let a := f.color x y
  if a = .empty then 0 else Zobrist.key x y a

/-- the hash of column `x` up to its believed height -/
def columnHash (f : Field) (x : Nat) : UInt64 :=
  (rowsUpTo (f.height x)).foldl (fun h y => h ^^^ f.cellHash x y) 0

def zobristHash (f : Field) : UInt64 := fieldColumns.foldl (fun h x => h ^^^ f.columnHash x) 0

end Field

end PuyoChain
