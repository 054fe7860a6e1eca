/-
White space.

`isBlank` is the white space that is cut from both ends of a source text,
`isSpacing` the six characters that may stand around a number.
-/
namespace PageScript.Text

/-- White space in the wide sense: the control characters that separate
lines and records, and every space and separator of the character set. -/
def isBlank (c : Char) : Bool :=
  let n := c.toNat
  (9 ≤ n && n ≤ 13) || (28 ≤ n && n ≤ 32) || n == 0x85 || n == 0xa0 || n == 0x1680 ||
    (0x2000 ≤ n && n ≤ 0x200a) || n == 0x2028 || n == 0x2029 || n == 0x202f ||
    n == 0x205f || n == 0x3000

/-- Blank, tab, line feed, vertical tab, form feed and carriage return. -/
def isSpacing (c : Char) : Bool :=
  let n := c.toNat
  (9 ≤ n && n ≤ 13) || n == 32

/-- Cuts from both ends the characters for which `p` holds. -/
def trimBy (p : Char → Bool) (cs : List Char) : List Char :=
  ((cs.dropWhile p).reverse.dropWhile p).reverse

end PageScript.Text
