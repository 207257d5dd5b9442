import PuyoChain.Field.Basic
import PuyoChain.Additions.Basic

/-!
# Puyos on top of columns

* `Field.place`       a color on top of a column, whatever its height;
* `Field.stack?`      the same where the column has room;
* `Field.unstack?`    the color on top of a column, and the field without it;
* `Field.stackAll?`   all additions of a list, if no column overflows.
-/

namespace PuyoChain

namespace Field

/-- the field with a color on top of column `x` -/
def place (f : Field) (x : Nat) (a : Color) : Field := f.modify x fun c => c.stack a

/-- the field with a color on top of column `x`, if it is a column with room -/
def stack? (f : Field) (x : Nat) (a : Color) : Option Field :=
  if (1 ≤ x ∧ x ≤ 6) ∧ f.height x < 14 then some (f.place x a) else none

/-- the color on top of column `x` and the field without it, if the column has a height -/
def unstack? (f : Field) (x : Nat) : Option (Color × Field) :=
  (f.column? x).bind fun c => c.unstack.map fun (a, c) => (a, f.modify x fun _ => c)

/-- the field without what is on top of column `x`, if anything is -/
def removeTop (f : Field) (x : Nat) : Field :=
  match f.unstack? x with
  | some (_, g) => g
  | none => f

/-- no column has more additions than room -/
def hasRoomFor (f : Field) (l : Additions) : Bool :=
  fieldColumns.all fun x => f.height x + l.sizeOn x ≤ 14

/-- the field with all additions of a list in order, if no column overflows -/
def stackAll? (f : Field) (l : Additions) : Option Field :=
  if f.hasRoomFor l then some (l.entries.foldl (fun g a => g.place a.x a.color) f) else none

theorem stack?_of_not_column {f : Field} {x : Nat} (h : ¬ (1 ≤ x ∧ x ≤ 6)) (a : Color) :
    f.stack? x a = none := if_neg fun hroom => h hroom.1

theorem removeTop_of_not_column {f : Field} {x : Nat} (h : ¬ (1 ≤ x ∧ x ≤ 6)) :
    f.removeTop x = f := by
  have hnone : f.column? x = none := dif_neg h
  unfold removeTop unstack?
  rw [hnone]
  rfl

theorem stackAll?_empty (f : Field) (h : ∀ x, f.height x ≤ 14) :
    f.stackAll? .empty = some f := by
  have : f.hasRoomFor .empty = true := by
    simp [hasRoomFor, Additions.sizeOn, Additions.empty, h]
  rw [stackAll?, if_pos this]
  rfl

end Field

end PuyoChain
