import PuyoChain.Additions.Basic
import PuyoChain.Text.Blank

/-!
# The text form of a list of additions

An addition is written `(x,C)`, and a list as its entries one after the other.  Reading also takes
blanks around every part, a plus sign and leading zeros in the number, and every character that
names a color.

* `Additions.text`      writes a list;
* `Additions.ofChars`   reads one.

An entry ends with the next closing parenthesis.  Of an entry, reading checks first that it has a
number and one more character, then that the character names a color, then that the number is a
column, and last that the list has room.
-/

namespace PuyoChain

def digit? (c : Char) : Option Nat :=
  if '0' ≤ c ∧ c ≤ '9' then some (c.toNat - '0'.toNat) else none

/-- the number whose digits follow those of `n` -/
def digitsFrom : Nat → List Char → Option Nat
  | n, [] => some n
  | n, c :: cs => (digit? c).bind fun d => digitsFrom (10 * n + d) cs

/-- the bound of the numbers that are read, 2 ^ 64 -/
def wordBound : Nat := 18446744073709551616

/-- the number below `wordBound` that one or more digits spell, perhaps after a plus sign -/
def decimal? (cs : List Char) : Option Nat :=
  let digits := if cs.head? = some '+' then cs.tail else cs
  if digits.isEmpty then none
  else (digitsFrom 0 digits).filter (· < wordBound)

/-- the texts before and after the first comma -/
def splitComma : List Char → Option (List Char × List Char)
  | [] => none
  | c :: cs => if c = ',' then some ([], cs) else (splitComma cs).map fun p => (c :: p.1, p.2)

/-- the number and the color letter of an entry, which ends with a closing parenthesis -/
def entryParts? (entry : List Char) : Option (Nat × Char) :=
  match entry with
  | '(' :: body =>
    (splitComma body.dropLast).bind fun (x, c) =>
      (decimal? (trim x)).bind fun n =>
        match trim c with
        | [letter] => some (n, letter)
        | _ => none
  | _ => none

namespace Additions

/-- the list with the entry that a text spells, the closing parenthesis included -/
def addEntry (l : Additions) (entry : List Char) : Except ParseError Additions :=
  match entryParts? entry with
  | none => .error (.malformedAddition entry)
  | some (x, letter) => do
    let color ← Color.ofChar letter
    if ¬ (1 ≤ x ∧ x ≤ 6) then .error (.columnOutOfRange x)
    else match l.add x color with
      | some m => .ok m
      | none => .error (.listOverflow capacity)

/-- reads the rest of a list; `pending` holds what is read of the current entry, last character
first -/
def readFrom : List Char → List Char → Additions → Except ParseError Additions
  | [], pending, l => if pending.isEmpty then .ok l else .error (.malformedAddition pending.reverse)
  | c :: cs, pending, l =>
    if c = ')' then
      match l.addEntry (c :: pending).reverse with
      | .ok m => readFrom cs [] m
      | .error e => .error e
    else if pending.isEmpty && isBlank c then readFrom cs [] l
    else readFrom cs (c :: pending) l

def ofChars (cs : List Char) : Except ParseError Additions := readFrom (trim cs) [] empty

def ofText (s : String) : Except ParseError Additions := ofChars s.toList

end Additions

def Addition.toChars (a : Addition) : List Char :=
  ['('] ++ Nat.toDigits 10 a.x ++ [',', a.color.toChar, ')']

def Additions.toChars (l : Additions) : List Char := l.entries.flatMap Addition.toChars

def Additions.text (l : Additions) : String := String.ofList l.toChars

theorem Additions.toChars_append (as bs : List Addition) :
    Additions.toChars ⟨as ++ bs⟩ = Additions.toChars ⟨as⟩ ++ Additions.toChars ⟨bs⟩ := by
  simp [Additions.toChars]

end PuyoChain
