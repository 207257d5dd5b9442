import PuyoChain.Text.CodeRange

/-!
# Blank characters

* `isBlank`     the character has the Unicode property White_Space;
* `dropBlanks`  a text without the blanks at its start;
* `trim`        a text without the blanks at either end.
-/

namespace PuyoChain

/-- the code points with the property White_Space -/
def blanks : List CodeRange := [
  (9, 13), (32, 32), (133, 133), (160, 160), (5760, 5760), (8192, 8202), (8232, 8233),
  (8239, 8239), (8287, 8287), (12288, 12288)]

def isBlank (c : Char) : Bool := inRanges blanks c

/-- the text from its first character that is not blank -/
def dropBlanks (cs : List Char) : List Char := cs.dropWhile isBlank

/-- the text up to its last character that is not blank -/
def dropBlanksRight (cs : List Char) : List Char := (dropBlanks cs.reverse).reverse

def trim (cs : List Char) : List Char := dropBlanksRight (dropBlanks cs)

theorem isBlank_of_isWhitespace {c : Char} (h : c.isWhitespace = true) : isBlank c = true := by
  simp only [Char.isWhitespace, Bool.or_eq_true, decide_eq_true_eq] at h
  rcases h with ((rfl | rfl) | rfl) | rfl <;> decide

theorem dropBlanks_nil : dropBlanks [] = [] := rfl

theorem dropBlanks_of_blank {c : Char} (h : isBlank c = true) (cs : List Char) :
    dropBlanks (c :: cs) = dropBlanks cs := by
  simp [dropBlanks, h]

theorem dropBlanks_of_not_blank {c : Char} (h : isBlank c = false) (cs : List Char) :
    dropBlanks (c :: cs) = c :: cs := by
  simp [dropBlanks, h]

end PuyoChain
