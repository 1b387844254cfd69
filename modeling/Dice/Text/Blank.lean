/-!
# Dice.Text.Blank

Blank characters and their removal from the ends of a text.

* `isBlank` : the characters that may surround every word of a notation;
* `trimStart`, `trim` : a text without the blanks at its start, at both ends.
-/

namespace Dice.Text

/-- The separators of text: the line, tab and information separators among the controls, the next
line, and the space, line and paragraph separators. -/
def isBlank (c : Char) : Bool :=
  let n := c.toNat
  (0x09 ≤ n && n ≤ 0x0d) || (0x1c ≤ n && n ≤ 0x20) || n == 0x85 || n == 0xa0 || n == 0x1680 ||
    (0x2000 ≤ n && n ≤ 0x200a) || n == 0x2028 || n == 0x2029 || n == 0x202f || n == 0x205f ||
    n == 0x3000

def trimStart (cs : List Char) : List Char :=
  cs.dropWhile isBlank

def trimEnd (cs : List Char) : List Char :=
  (cs.reverse.dropWhile isBlank).reverse

def trim (cs : List Char) : List Char :=
  trimEnd (trimStart cs)

/-- No character is left only if there was none but blanks. -/
def isBlankText (cs : List Char) : Bool :=
  cs.all isBlank

end Dice.Text
