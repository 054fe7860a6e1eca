/-
Texts and bytes in quotes.

`quote` writes a text so that it can be told apart from what stands around
it: in single quotes, or in double quotes if it holds a single one and no
double one.  The quote in use, backslashes and what cannot be shown are
escaped.  `quoteBytes` does the same for the bytes of a text.
-/
import PageScript.Text.Printable

namespace PageScript.Text

/-- `n` in base sixteen, with zeros in front up to `width` digits. -/
def hexDigits (width n : Nat) : List Char :=
  let digits := Nat.toDigits 16 n
  List.replicate (width - digits.length) '0' ++ digits

/-- The quote for a text: a single one unless only that occurs in it. -/
def quoteMark (cs : List Char) : Char :=
  if cs.contains '\x27' && !cs.contains '\x22' then '\x22' else '\x27'

def commonEscape? (mark c : Char) : Option (List Char) :=
  if c = mark ∨ c = '\x5c' then some ['\x5c', c]
  else if c = '\t' then some ['\x5c', 't']
  else if c = '\n' then some ['\x5c', 'n']
  else if c = '\r' then some ['\x5c', 'r']
  else none

def escaped (mark c : Char) : List Char :=
  match commonEscape? mark c with
  | some cs => cs
  | none =>
    if isPrintable c then [c]
    else if c.toNat < 0x100 then '\x5c' :: 'x' :: hexDigits 2 c.toNat
    else if c.toNat < 0x10000 then '\x5c' :: 'u' :: hexDigits 4 c.toNat
    else '\x5c' :: 'U' :: hexDigits 8 c.toNat

def quote (s : String) : String :=
  let mark := quoteMark s.toList
  String.ofList (mark :: (s.toList.flatMap (escaped mark) ++ [mark]))

/-- A byte inside quotes; bytes above 126 and below the blank are shown by
their codes. -/
def escapedByte (mark : Char) (b : UInt8) : List Char :=
  let c := Char.ofNat b.toNat
  match commonEscape? mark c with
  | some cs => cs
  | none =>
    if 32 ≤ b.toNat ∧ b.toNat < 127 then [c]
    else '\x5c' :: 'x' :: hexDigits 2 b.toNat

def quoteBytes (s : String) : String :=
  let mark := quoteMark s.toList
  String.ofList ('b' :: mark :: (s.toUTF8.toList.flatMap (escapedByte mark) ++ [mark]))

end PageScript.Text
