import PuyoChain.Candidate.Basic
import PuyoChain.ColumnMask

/-!
# Key additions

Keys are additions that prepare a chain and do not start one.

* `visitKeys`            shows every way to put puyos of one color each on some columns, within
                         limits, that does not fire by itself; no addition at all comes first;
* `visitThirteenthRow`   shows every way to put nothing or one puyo into row 13 of the columns whose
                         believed height is 12; nothing at all comes first.
-/

namespace PuyoChain

/-- the limits of key additions -/
structure KeyLimits where
  ceiling : Nat
  prohibited : ColumnMask
  /-- the largest number of additions to one column -/
  perColumn : Nat

section
variable {σ : Type}

/-- some added puyo on top of its column belongs to a vanishing group -/
def firesOnTop (g : Field) (l : Additions) : Bool :=
  fieldColumns.any fun x => 0 < l.sizeOn x && g.inVanishing ⟨x, g.height x⟩

/-- shows the field with some key additions, if they fit and do not fire -/
def showKeys (f : Field) (visit : Visitor σ Candidate) (l : Additions) (s : σ) : Flow σ σ :=
  match f.stackAll? l with
  | none => .proceed s
  | some g => if firesOnTop g l then .proceed s else visit s ⟨g, l⟩

/-- the colors and numbers of puyos that column `x` may get, of at most `puyos` -/
def keyStacks (f : Field) (w : KeyLimits) (puyos x : Nat) : List (Color × Nat) :=
  let most := min w.perColumn (min puyos (w.ceiling - f.height x))
  Color.normals.flatMap fun a => (rowsUpTo most).map fun n => (a, n)

/-- shows the key additions `l` with all ways to go on, on at most `columns` of the columns of a
list and with at most `puyos` more puyos -/
def visitKeysFrom (f : Field) (w : KeyLimits) (visit : Visitor σ Candidate) :
    List Nat → (columns : Nat) → (puyos : Nat) → Additions → σ → Flow σ σ
  | [], _, _, l, s => showKeys f visit l s
  | x :: xs, columns, puyos, l, s =>
    (visitKeysFrom f w visit xs columns puyos l s).andThen fun s =>
      if columns = 0 || w.prohibited.contains x then .proceed s
      else
        each (fun s (a, n) =>
          match l.addCopies x a n with
          | none => .proceed s
          | some m => visitKeysFrom f w visit xs (columns - 1) (puyos - n) m s)
        (keyStacks f w puyos x) s

/-- shows the key additions to at most `maxColumns` columns, with at most `perColumn` puyos on each
and at most `maxPuyos` in all -/
def visitKeysUpTo (f : Field) (s : Strategy) (prohibited : ColumnMask)
    (maxColumns perColumn maxPuyos : Nat) (visit : Visitor σ Candidate) (state : σ) : Flow σ σ :=
  visitKeysFrom f ⟨s.ceiling, prohibited, perColumn⟩ visit fieldColumns maxColumns maxPuyos .empty
    state

/-- shows the key additions to at most `maxColumns` columns, with at most `perColumn` puyos on each;
in all there is never room for more puyos than there are visible cells -/
def visitKeys (f : Field) (s : Strategy) (prohibited : ColumnMask) (maxColumns perColumn : Nat)
    (visit : Visitor σ Candidate) (state : σ) : Flow σ σ :=
  visitKeysUpTo f s prohibited maxColumns perColumn Field.visibleCount visit state

/-- shows the additions `l` with nothing or one puyo of each color on the columns of a list -/
def visitOneEach (f : Field) (visit : Visitor σ Candidate) : List Nat → Additions → σ → Flow σ σ
  | [], l, s =>
    match f.stackAll? l with
    | none => .proceed s
    | some g => visit s ⟨g, l⟩
  | x :: xs, l, s =>
    (visitOneEach f visit xs l s).andThen <|
      each (fun s a => visitOneEach f visit xs ((l.add x a).getD l) s) Color.normals

/-- the allowed columns whose visible part is believed to be exactly full -/
def fullColumns (f : Field) (allowed : ColumnMask) : List Nat :=
  allowed.toList.filter fun x => f.height x == 12

/-- shows every way to fill row 13 of the allowed columns that are full up to it -/
def visitThirteenthRow (f : Field) (allowed : ColumnMask) (visit : Visitor σ Candidate) (s : σ) :
    Flow σ σ :=
  visitOneEach f visit (fullColumns f allowed) .empty s

end

end PuyoChain
