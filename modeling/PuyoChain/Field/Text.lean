import PuyoChain.Field.Basic
import PuyoChain.ParseError

/-!
# The text form of a field

Rows are written from top to bottom, six characters each; the last row is row 1.  Reading ignores
line ends, wherever they stand, and takes no wall.  Writing starts at the highest believed height.

* `Field.ofChars`, `Field.ofText`   reads a field;
* `Field.text`                      writes one;
* `Field.outline`                   the text between the lines of a frame.

Reading checks first that the characters fill whole rows, then that the rows fit, and then the
characters, bottom row first and each row from the left.
-/

namespace PuyoChain

/-- the first `n` rows of six characters -/
def textRows : Nat → List Char → List (List Char)
  | 0, _ => []
  | n + 1, cs => cs.take 6 :: textRows n (cs.drop 6)

/-- the color of a cell that a character names; a wall is none -/
def cellOfChar (c : Char) : Except ParseError Color :=
  match Color.ofChar? c with
  | some .wall => .error (.invalidChar c)
  | some color => .ok color
  | none => .error (.invalidChar c)

/-- the colors that a list of characters names, or the error of the first that names none -/
def cellsOfChars : List Char → Except ParseError (List Color)
  | [] => .ok []
  | c :: cs => do
    let color ← cellOfChar c
    let rest ← cellsOfChars cs
    .ok (color :: rest)

/-- the colors of rows of characters, or the error of the first that names none -/
def rowsOfChars : List (List Char) → Except ParseError (List (List Color))
  | [] => .ok []
  | row :: rows => do
    let colors ← cellsOfChars row
    let rest ← rowsOfChars rows
    .ok (colors :: rest)

namespace Field

/-- the field of some rows of colors, bottom row first, with counted heights -/
def ofRows (rows : List (List Color)) : Field :=
  ⟨Vector.ofFn fun i => Column.recount
    ⟨Vector.ofFn fun j => (rows.getD j []).getD i .empty, 0⟩⟩

def ofChars (cs : List Char) : Except ParseError Field :=
  let cells := cs.filter fun c => c != '\n' && c != '\r'
  if cells.length % 6 ≠ 0 then .error (.raggedField cells.length)
  else if cells.length / 6 > 14 then .error (.tooTall (cells.length / 6))
  else (rowsOfChars (textRows (cells.length / 6) cells).reverse).map ofRows

def ofText (s : String) : Except ParseError Field := ofChars s.toList

def topRow (f : Field) : Nat := (fieldColumns.map f.height).foldl max 0

def rowChars (f : Field) (y : Nat) : List Char := fieldColumns.map fun x => (f.color x y).toChar

/-- the characters of the rows from `y` down to 1, with line ends between them -/
def charsFrom (f : Field) : Nat → List Char
  | 0 => []
  | 1 => f.rowChars 1
  | y + 2 => f.rowChars (y + 2) ++ ['\n'] ++ f.charsFrom (y + 1)

def toChars (f : Field) : List Char := f.charsFrom f.topRow

def text (f : Field) : String := String.ofList f.toChars

/-- the text form between the lines of a frame -/
def outline (f : Field) : String := "Field \x7b\n" ++ f.text ++ "\n\x7d"

end Field

end PuyoChain
