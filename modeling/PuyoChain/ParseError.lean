import PuyoChain.Text.Quoted

/-!
# What can be wrong with a text form

* `ParseError`            the causes;
* `ParseError.message`    the wording of each.
-/

namespace PuyoChain

/-- why a text does not read as a field, a list of additions or a queue of pieces -/
inductive ParseError where
  /-- the character names no cell content -/
  | invalidChar (c : Char)
  /-- the field text has `length` characters, which do not fill whole rows -/
  | raggedField (length : Nat)
  /-- the field text has more rows than the field -/
  | tooTall (rows : Nat)
  /-- the entry of an addition list is not of the form `(x,C)` -/
  | malformedAddition (entry : List Char)
  /-- the entry of an addition list names no column of the field -/
  | columnOutOfRange (x : Nat)
  /-- the addition list has more than `capacity` entries -/
  | listOverflow (capacity : Nat)
  /-- the text of a queue has `length` characters, which do not pair up -/
  | oddSequence (length : Nat)
  /-- the character names a cell content that no falling piece has -/
  | notPieceColor (c : Char)
  deriving DecidableEq, Repr

def ParseError.message : ParseError → String
  | invalidChar c => "invalid puyo character " ++ quoteChar c
  | raggedField n => "field text length " ++ toString n ++ " is not a multiple of 6"
  | tooTall n => "field text has " ++ toString n ++ " rows but only 14 fit"
  | malformedAddition entry => "malformed column puyo entry " ++ quoteText entry
  | columnOutOfRange x => "column " ++ toString x ++ " is outside 1..=6"
  | listOverflow n => "column puyo list exceeds " ++ toString n ++ " entries"
  | oddSequence n => "kumipuyo sequence has odd length " ++ toString n
  | notPieceColor c => String.singleton c ++ " cannot be part of a falling piece"

end PuyoChain
