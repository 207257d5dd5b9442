import PuyoChain.ParseError

/-!
# Colors: what a cell of the field holds

* `Color`            empty, wall, garbage, or one of the four normal colors;
* `Color.isNormal`   the colors that form vanishing groups;
* `Color.toChar`, `Color.ofChar?`   the one-character form; reading also takes a space for an empty
                     cell and lower case letters (`ofChar?_toChar`);
* `Color.name`, `Color.ofName?`     the name in records (`ofName?_name`).
-/

namespace PuyoChain

/-- what a cell holds -/
inductive Color where
  | empty
  | wall
  | garbage
  | red
  | blue
  | yellow
  | green
  deriving DecidableEq, Repr, Inhabited

namespace Color

/-- every color, in ascending order of `index` -/
def all : List Color := [empty, wall, garbage, red, blue, yellow, green]

/-- the colors of falling pieces, which vanish in groups -/
def normals : List Color := [red, blue, yellow, green]

/-- how many values `index` may take, with one unused -/
def indexCount : Nat := 8

def index : Color → Nat
  | empty => 0
  | wall => 1
  | garbage => 2
  | red => 4
  | blue => 5
  | yellow => 6
  | green => 7

/-- the color forms vanishing groups -/
def isNormal : Color → Bool
  | red | blue | yellow | green => true
  | empty | wall | garbage => false

def toChar : Color → Char
  | empty => '.'
  | wall => '#'
  | garbage => 'O'
  | red => 'R'
  | blue => 'B'
  | yellow => 'Y'
  | green => 'G'

def ofChar? (c : Char) : Option Color :=
  if c = ' ' || c = '.' then some empty
  else if c = '#' then some wall
  else if c = 'O' || c = 'o' then some garbage
  else if c = 'R' || c = 'r' then some red
  else if c = 'B' || c = 'b' then some blue
  else if c = 'Y' || c = 'y' then some yellow
  else if c = 'G' || c = 'g' then some green
  else none

/-- the color that a character names, or the error that it names none -/
def ofChar (c : Char) : Except ParseError Color :=
  match ofChar? c with
  | some color => .ok color
  | none => .error (.invalidChar c)

def name : Color → String
  | empty => "Empty"
  | wall => "Wall"
  | garbage => "Garbage"
  | red => "Red"
  | blue => "Blue"
  | yellow => "Yellow"
  | green => "Green"

def ofName? (s : String) : Option Color := all.find? fun c => c.name == s

theorem mem_all (c : Color) : c ∈ all := by cases c <;> decide

theorem mem_normals_iff (c : Color) : c ∈ normals ↔ c.isNormal = true := by cases c <;> decide

theorem ne_of_isNormal {a b : Color} (ha : a.isNormal = true) (hb : b.isNormal = false) : a ≠ b := by
  rintro rfl
  rw [ha] at hb
  cases hb

theorem index_lt (c : Color) : c.index < indexCount := by cases c <;> decide

theorem index_injective {a b : Color} (h : a.index = b.index) : a = b := by
  cases a <;> cases b <;> first | rfl | cases h

theorem ofChar?_toChar (c : Color) : ofChar? c.toChar = some c := by cases c <;> decide

theorem toChar_injective {a b : Color} (h : a.toChar = b.toChar) : a = b := by
  have := congrArg ofChar? h
  rw [ofChar?_toChar, ofChar?_toChar] at this
  exact Option.some.inj this

theorem ofChar_toChar (c : Color) : ofChar c.toChar = .ok c := by
  rw [ofChar, ofChar?_toChar]

theorem ofName?_name (c : Color) : ofName? c.name = some c := by cases c <;> decide

end Color

end PuyoChain
