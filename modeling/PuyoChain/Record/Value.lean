import PuyoChain.ParseError

/-!
# Record values

Records are what the types of the library are stored as: names, numbers, texts, lists and objects.

* `Value`          a record value;
* `RecordError`    why a value is no record of a type;
* `Record α`       writing an `α` as a value, and reading it back.

An object is read by the names of its fields, whatever other fields it has; a list is read as the
fields in their order, if it has exactly as many entries.
-/

namespace PuyoChain

/-- a record value -/
inductive Value where
  | null
  | bool (b : Bool)
  /-- a whole number from 0 -/
  | nat (n : Nat)
  /-- a number of any other kind -/
  | otherNumber
  | text (s : String)
  | list (vs : List Value)
  | object (fields : List (String × Value))
  deriving Inhabited

/-- why a value is no record of a type -/
inductive RecordError where
  /-- the value has another form -/
  | mismatch
  /-- a text in the value does not read -/
  | badText (e : ParseError)
  deriving DecidableEq, Repr

abbrev ReadResult (α : Type) := Except RecordError α

/-- the types that are stored as records -/
class Record (α : Type) where
  write : α → Value
  read : Value → ReadResult α

namespace Value

/-- a value that is there, or else a mismatch -/
def orMismatch {α : Type} : Option α → ReadResult α
  | some a => .ok a
  | none => .error .mismatch

def lookup (name : String) (fields : List (String × Value)) : Option Value :=
  (fields.find? fun e => e.1 == name).map Prod.snd

/-- the fields of the given names, from an object or from a list of exactly these fields -/
def readFields (names : List String) : Value → ReadResult (List Value)
  | object fields => orMismatch (names.mapM fun name => lookup name fields)
  | list vs => if vs.length = names.length then .ok vs else .error .mismatch
  | _ => .error .mismatch

/-- a whole number below `bound` -/
def readNat (bound : Nat) : Value → ReadResult Nat
  | nat n => if n < bound then .ok n else .error .mismatch
  | _ => .error .mismatch

/-- a number of 64 bits -/
def readCount : Value → ReadResult Nat := readNat 18446744073709551616

def readByte : Value → ReadResult Nat := readNat 256

def readBool : Value → ReadResult Bool
  | bool b => .ok b
  | _ => .error .mismatch

/-- one of several names, alone or as the only field of an object without a value -/
def readName {α : Type} (ofName? : String → Option α) : Value → ReadResult α
  | text s => orMismatch (ofName? s)
  | object [(s, null)] => orMismatch (ofName? s)
  | _ => .error .mismatch

def readList {α : Type} (read : Value → ReadResult α) : Value → ReadResult (List α)
  | list vs => vs.mapM read
  | _ => .error .mismatch

theorem readCount_nat {n : Nat} (h : n < 18446744073709551616) : readCount (nat n) = .ok n := if_pos h

theorem readByte_nat {n : Nat} (h : n < 256) : readByte (nat n) = .ok n := if_pos h

end Value

end PuyoChain
