import PuyoChain.Color
import PuyoChain.Text.Blank

/-!
# Falling pieces and the queue of upcoming ones

* `Piece`                 an axis cell and a child cell that turns around it;
* `Piece.kinds`           the ten pairings of normal colors up to exchange of the two cells;
* `PieceQueue`            the known upcoming pieces, nearest first;
* `PieceQueue.ofChars`    reads a queue: blanks are ignored, two letters make a piece.

Reading checks the length first; then, pair by pair, that both letters name a cell content, and
then that both name a normal color.
-/

namespace PuyoChain

/-- a falling piece -/
structure Piece where
  /-- the color of the cell that the piece turns around -/
  axis : Color
  /-- the color of the cell that turns -/
  child : Color
  deriving DecidableEq, Repr

namespace Piece

/-- the pairings of normal colors, up to exchange of the two cells -/
def kinds : List Piece := [
  ⟨.red, .red⟩, ⟨.red, .blue⟩, ⟨.red, .yellow⟩, ⟨.red, .green⟩, ⟨.blue, .blue⟩,
  ⟨.blue, .yellow⟩, ⟨.blue, .green⟩, ⟨.yellow, .yellow⟩, ⟨.yellow, .green⟩, ⟨.green, .green⟩]

/-- both cells have one color, so that half of the turns are redundant -/
def isDouble (p : Piece) : Bool := p.axis == p.child

/-- axis letter, then child letter -/
def toChars (p : Piece) : List Char := [p.axis.toChar, p.child.toChar]

def text (p : Piece) : String := String.ofList p.toChars

/-- the piece of two normal colors that two letters name -/
def ofLetters (a b : Char) : Except ParseError Piece := do
  let axis ← Color.ofChar a
  let child ← Color.ofChar b
  if !axis.isNormal then .error (.notPieceColor a)
  else if !child.isNormal then .error (.notPieceColor b)
  else .ok ⟨axis, child⟩

end Piece

/-- the known upcoming pieces, nearest first -/
structure PieceQueue where
  pieces : List Piece
  deriving DecidableEq, Repr

namespace PieceQueue

def empty : PieceQueue := ⟨[]⟩

def size (q : PieceQueue) : Nat := q.pieces.length

def isEmpty (q : PieceQueue) : Bool := q.pieces.isEmpty

def get? (q : PieceQueue) (i : Nat) : Option Piece := q.pieces[i]?

def push (q : PieceQueue) (p : Piece) : PieceQueue := ⟨q.pieces ++ [p]⟩

/-- the queue without its nearest piece, as after it has been placed -/
def advance (q : PieceQueue) : PieceQueue := ⟨q.pieces.tail⟩

def toChars (q : PieceQueue) : List Char := q.pieces.flatMap Piece.toChars

def text (q : PieceQueue) : String := String.ofList q.toChars

/-- the pieces that letters name two by two; a last single letter names none -/
def piecesOf : List Char → Except ParseError (List Piece)
  | a :: b :: rest => do
    let p ← Piece.ofLetters a b
    let ps ← piecesOf rest
    .ok (p :: ps)
  | _ => .ok []

/-- reads the queue that a list of characters spells -/
def ofChars (cs : List Char) : Except ParseError PieceQueue :=
  let letters := cs.filter fun c => !isBlank c
  if letters.length % 2 ≠ 0 then .error (.oddSequence letters.length)
  else (piecesOf letters).map PieceQueue.mk

def ofText (s : String) : Except ParseError PieceQueue := ofChars s.toList

theorem get?_push_size (q : PieceQueue) (p : Piece) : (q.push p).get? q.size = some p :=
  List.getElem?_concat_length

theorem get?_push_of_lt {q : PieceQueue} {i : Nat} (p : Piece) (h : i < q.size) :
    (q.push p).get? i = q.get? i :=
  List.getElem?_append_left h

theorem get?_advance (q : PieceQueue) (i : Nat) : q.advance.get? i = q.get? (i + 1) := by
  simp [get?, advance]

end PieceQueue

end PuyoChain
