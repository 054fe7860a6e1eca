/-
Shortest decimals.

A double stands for all the reals that round to it.  `shortest m q` is the
decimal `d · 10 ^ s` with the fewest digits among those that round to
`m · 2 ^ q`, and the nearest one of them.  `floatText` lays it out: plain
digits while the exponent is at least -4 and below 16, and otherwise one
digit before the point and an exponent of two digits or more.

The search tries 1, 2, … 17 digits.  For each count the value lies between
two neighbours on that decimal grid; if any point of the grid rounds to the
value then one of these two does.  All comparisons are between natural
numbers.
-/
import PageScript.Double.Parts

namespace PageScript.Decimal

open Double (Parts parts)

/-- How many decimal digits a natural number has; zero has none. -/
def digitCount (n : Nat) : Nat :=
  if n = 0 then 0 else (Nat.toDigits 10 n).length

/-- The place of the leading digit: for a positive `num / den` the `p` with
`10 ^ (p - 1) ≤ num / den < 10 ^ p`. -/
def leadingPlace (num den : Nat) : Int :=
  if den ≤ num then digitCount (num / den)
  else 1 - (digitCount ((den + num - 1) / num - 1) : Int)

/-- `m · 2 ^ q` as a fraction. -/
def asFraction (m : Nat) (q : Int) : Nat × Nat :=
  (m * Nat.pow 2 q.toNat, Nat.pow 2 (-q).toNat)

/-- A grid point `c` in units of `10 ^ s` rounds to `m · 2 ^ q`.  With
`a / b` the value in these units, the reals that round to it reach from
`low` to `high` quarters of the last place; the ends belong to it when the
mantissa is even. -/
def roundsTo (m : Nat) (q : Int) (a b c : Nat) : Bool :=
  let low := if m = Nat.pow 2 52 ∧ -1074 < q then 4 * m - 1 else 4 * m - 2
  let high := 4 * m + 2
  let x := c * (4 * m) * b
  if m % 2 = 0 then decide (low * a ≤ x) && decide (x ≤ high * a)
  else decide (low * a < x) && decide (x < high * a)

/-- The better of the two neighbours of `m · 2 ^ q` on the grid with `k`
digits, if one of them rounds to it: the digits and the power of ten. Of two
that are equally near it is the even one. -/
def neighbour (m : Nat) (q : Int) (k : Nat) : Option (Nat × Int) :=
  let (num, den) := asFraction m q
  let s := leadingPlace num den - k
  let a := num * Nat.pow 10 (-s).toNat
  let b := den * Nat.pow 10 s.toNat
  let d := a / b
  let below := roundsTo m q a b d
  let above := roundsTo m q a b (d + 1)
  if below && above then
    if 2 * a < (2 * d + 1) * b ∨ (2 * a = (2 * d + 1) * b ∧ d % 2 = 0) then some (d, s)
    else some (d + 1, s)
  else if below then some (d, s)
  else if above then some (d + 1, s)
  else none

/-- The shortest decimal that rounds to `m · 2 ^ q`, for a positive
mantissa. -/
def shortest (m : Nat) (q : Int) : Nat × Int :=
  (((List.range 17).map (· + 1)).findSome? (neighbour m q)).getD (m, 0)

def significant (d : Nat) : List Char :=
  ((Nat.toDigits 10 d).reverse.dropWhile (· == '0')).reverse

/-- The text of an exponent: a sign and two digits or more. -/
def exponentText (e : Int) : List Char :=
  let digits := Nat.toDigits 10 e.natAbs
  (if e < 0 then '-' else '+') :: (List.replicate (2 - digits.length) '0' ++ digits)

/-- Digits with the point after the place `p`: positional from `1e-4` up to
below `1e16`, with an exponent outside. -/
def layOut (digits : List Char) (p : Int) : List Char :=
  if -4 < p ∧ p ≤ 16 then
    if p ≤ 0 then '0' :: '.' :: (List.replicate (-p).toNat '0' ++ digits)
    else if digits.length ≤ p.toNat then
      digits ++ List.replicate (p.toNat - digits.length) '0' ++ ['.', '0']
    else digits.take p.toNat ++ '.' :: digits.drop p.toNat
  else
    let mantissa := match digits with
      | [] => ['0']
      | [d] => [d]
      | d :: rest => d :: '.' :: rest
    mantissa ++ 'e' :: exponentText (p - 1)

def magnitudeText (m : Nat) (q : Int) : List Char :=
  if m = 0 then ['0', '.', '0']
  else
    let (d, s) := shortest m q
    layOut (significant d) (digitCount d + s)

/-- The text of a double: the shortest decimal that reads back. -/
def floatText (x : Float) : String :=
  match parts x with
  | .finite negative m q =>
    String.ofList (if negative then '-' :: magnitudeText m q else magnitudeText m q)
  | .infinite negative => if negative then "-inf" else "inf"
  | .nan => "nan"

end PageScript.Decimal
