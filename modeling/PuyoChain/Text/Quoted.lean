import PuyoChain.Text.Printable
import PuyoChain.Text.Combining

/-!
# Quoted characters and texts in messages

A message shows a character between single quotes and a text between double quotes.

* The backslash and the delimiting quote are written with a backslash; the other quote is not.
* NUL, tab, newline and carriage return are written `\0`, `\t`, `\n`, `\r`.
* A character that is not printable, and a combining character, is written `\u{…}` with its code
  point in hexadecimal, wherever it stands.
-/

namespace PuyoChain

/-- the code point of a character in lower case hexadecimal -/
def hexCode (c : Char) : List Char := Nat.toDigits 16 c.toNat

/-- one character of a quoted text with delimiter `quote` -/
def escape (quote : Char) (c : Char) : List Char :=
  if c = '\x00' then ['\\', '0']
  else if c = '\t' then ['\\', 't']
  else if c = '\n' then ['\\', 'n']
  else if c = '\r' then ['\\', 'r']
  else if c = '\\' || c = quote then ['\\', c]
  else if isCombining c || !isPrintable c then ['\\', 'u', '\x7b'] ++ hexCode c ++ ['\x7d']
  else [c]

def quoteChar (c : Char) : String := String.ofList (['\''] ++ escape '\'' c ++ ['\''])

/-- the characters between the double quotes of a quoted text -/
def escapeText (cs : List Char) : List Char := cs.flatMap (escape '"')

def quoteText (cs : List Char) : String := String.ofList (['"'] ++ escapeText cs ++ ['"'])

theorem escapeText_nil : escapeText [] = [] := rfl

theorem escapeText_cons (c : Char) (cs : List Char) :
    escapeText (c :: cs) = escape '"' c ++ escapeText cs := rfl

theorem escapeText_append (cs ds : List Char) :
    escapeText (cs ++ ds) = escapeText cs ++ escapeText ds := by
  simp [escapeText]

/-- a plain printable character stands for itself -/
theorem escape_of_printable {quote c : Char} (hp : isPrintable c = true)
    (hc : isCombining c = false) (hq : c ≠ quote) (hb : c ≠ '\\') : escape quote c = [c] := by
  have hne : ∀ d : Char, isPrintable d = false → c ≠ d := by
    intro d hd e
    rw [e, hd] at hp
    cases hp
  have h0 := hne '\x00' (by decide)
  have ht := hne '\t' (by decide)
  have hn := hne '\n' (by decide)
  have hr := hne '\r' (by decide)
  simp [escape, h0, ht, hn, hr, hq, hb, hc, hp]

end PuyoChain
