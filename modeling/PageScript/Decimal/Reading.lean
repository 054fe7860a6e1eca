/-
Reading numbers.

`readFloat?` reads a decimal number: white space around it, a sign, digits
of any script with single underscores between them, a point, an exponent;
or the words for an infinity and for no number.  `readInt?` reads a whole
number by the same rules about space, sign, digits and underscores.
-/
import PageScript.Text.Blank
import PageScript.Text.Digit

namespace PageScript.Decimal

open Text (isBlank isSpacing isDigit isPlainDigit digitValue? plainDigit trimBy)

/-- Digits of other scripts become plain digits and other white space a
blank; any other character beyond the plain ones spoils the number. -/
def plain (c : Char) : Char :=
  if c.toNat < 127 then c
  else if isBlank c then ' '
  else match digitValue? c with
    | some n => plainDigit n
    | none => '?'

/-- Drops underscores; each has to stand between two digits. -/
def dropUnderscores : Char → List Char → Option (List Char)
  | _, [] => some []
  | last, '_' :: cs =>
    if isPlainDigit last && (cs.head?.any isPlainDigit) then dropUnderscores '_' cs else none
  | _, c :: cs => (dropUnderscores c cs).map (c :: ·)

/-- A numeral made plain, without the space around it and without
underscores. -/
def numeral? (s : String) : Option (List Char) :=
  dropUnderscores ' ' (trimBy isSpacing (s.toList.map plain))

/-- Takes a sign off: whether it is a minus, and the rest. -/
def takeSign : List Char → Bool × List Char
  | '-' :: cs => (true, cs)
  | '+' :: cs => (false, cs)
  | cs => (false, cs)

/-- The number that digits from `0` to `9` write. -/
def digitsValue (cs : List Char) : Nat :=
  cs.foldl (fun n c => 10 * n + (c.toNat - 48)) 0

/-- Whether this is at least one digit from `0` to `9`, and nothing else. -/
def isDigits (cs : List Char) : Bool := !cs.isEmpty && cs.all isPlainDigit

/-- The exponent after an `e`; nothing at all counts as zero. -/
def exponent? : List Char → Option Int
  | [] => some 0
  | c :: cs =>
    if c = 'e' ∨ c = 'E' then
      let (negative, digits) := takeSign cs
      if isDigits digits then
        some (if negative then -(digitsValue digits : Int) else digitsValue digits)
      else none
    else none

/-- A decimal without its sign: digits with or without a point among them,
then the exponent. The value is the first number times ten to the second. -/
def magnitude? (cs : List Char) : Option (Nat × Int) :=
  let whole := cs.takeWhile isPlainDigit
  let rest := cs.dropWhile isPlainDigit
  let (fraction, rest) := match rest with
    | '.' :: more => (more.takeWhile isPlainDigit, more.dropWhile isPlainDigit)
    | _ => ([], rest)
  if whole.isEmpty && fraction.isEmpty then none
  else (exponent? rest).map fun e => (digitsValue (whole ++ fraction), e - fraction.length)

/-- The double nearest to `m · 10 ^ e`.  Outside the range of doubles the
power itself is never computed. -/
def nearest (m : Nat) (e : Int) : Float :=
  let size := (Nat.toDigits 10 m).length + e
  if m = 0 ∨ size < -400 then 0.0
  else if 400 < size then 1.0 / 0.0
  else Float.ofScientific m (decide (e < 0)) e.natAbs

/-- The words for an infinity and for no number, in any case. -/
def word? (cs : List Char) : Option Float :=
  let w := String.ofList (cs.map Char.toLower)
  if w = "inf" ∨ w = "infinity" then some (1.0 / 0.0)
  else if w = "nan" then some (0.0 / 0.0)
  else none

def readFloat? (s : String) : Option Float := do
  let cs ← numeral? s
  let (negative, cs) := takeSign cs
  let x ← match magnitude? cs with
    | some (m, e) => some (nearest m e)
    | none => word? cs
  return if negative then -x else x

def readInt? (s : String) : Option Int := do
  let cs ← numeral? s
  let (negative, cs) := takeSign cs
  if isDigits cs then
    return if negative then -(digitsValue cs : Int) else digitsValue cs
  else none

end PageScript.Decimal
