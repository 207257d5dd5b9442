/-!
# Strategies for finding candidates

* `Mode`       how puyos are added: on top of a column, beside a puyo, or around a group;
* `Purpose`    which additions are shown: those that start a chain, or the others on the way too;
* `Strategy`   a mode with its limits;
* `Strategy.ceiling`   the highest row that an added puyo may occupy.
-/

namespace PuyoChain

/-- how puyos are added -/
inductive Mode where
  /-- puyos of one color on top of a column -/
  | drop
  /-- a run of one color beside a puyo, above the top of its column -/
  | float
  /-- cell by cell around a group, until it vanishes -/
  | extend
  deriving DecidableEq, Repr

/-- which additions are shown -/
inductive Purpose where
  /-- only additions that start a chain -/
  | fire
  /-- also the additions on the way there, to build upon -/
  | key
  deriving DecidableEq, Repr

/-- a mode with its limits -/
structure Strategy where
  mode : Mode
  /-- the largest number of colored puyos that are added -/
  maxPuyos : Nat
  /-- no added puyo may be above this row -/
  maxHeight : Nat
  /-- runs may be propped up with garbage -/
  allowsGarbage : Bool
  deriving DecidableEq, Repr

namespace Mode

def all : List Mode := [drop, float, extend]

/-- the name of the mode in records -/
def name : Mode → String
  | drop => "Drop"
  | float => "Float"
  | extend => "Extend"

def ofName? (s : String) : Option Mode := all.find? fun m => m.name == s

theorem ofName?_name (m : Mode) : ofName? m.name = some m := by cases m <;> decide

end Mode

namespace Purpose

def all : List Purpose := [fire, key]

/-- the name of the purpose in records -/
def name : Purpose → String
  | fire => "Fire"
  | key => "Key"

def ofName? (s : String) : Option Purpose := all.find? fun p => p.name == s

theorem ofName?_name (p : Purpose) : ofName? p.name = some p := by cases p <;> decide

end Purpose

namespace Strategy

def dropPreset : Strategy := ⟨.drop, 3, 12, false⟩

/-- runs of up to three puyos, propped up with garbage -/
def floatPreset : Strategy := ⟨.float, 3, 12, true⟩

def extendPreset : Strategy := ⟨.extend, 3, 12, false⟩

def default : Strategy := dropPreset

/-- the highest row that an added puyo may occupy -/
def ceiling (s : Strategy) : Nat := min s.maxHeight 12

theorem ceiling_le (s : Strategy) : s.ceiling ≤ 12 := Nat.min_le_right ..

end Strategy

end PuyoChain
