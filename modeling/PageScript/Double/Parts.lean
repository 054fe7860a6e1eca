/-
Doubles taken apart.

`parts x` reads a double off its bits as `± m · 2 ^ q`, an infinity or no
number at all.  Everything that has to be exact about a double (its integer
part, its decimal digits, its rounding) starts from there and goes on in
natural numbers.
-/
import PageScript.Fault

namespace PageScript.Double

/-- A double is `± mantissa · 2 ^ exponent`, an infinity, or no number. -/
inductive Parts where
  | finite (negative : Bool) (mantissa : Nat) (exponent : Int)
  | infinite (negative : Bool)
  | nan
  deriving DecidableEq, Repr

/-- The parts of a double, from its bits: one for the sign, eleven for the
exponent, fifty-two for the mantissa. -/
def parts (x : Float) : Parts :=
  let bits := x.toBits.toNat
  let negative := bits.testBit 63
  let e : Nat := bits / Nat.pow 2 52 % 2048
  let f : Nat := bits % Nat.pow 2 52
  if e = 2047 then
    if f = 0 then .infinite negative else .nan
  else if e = 0 then .finite negative f (-1074)
  else .finite negative (f + Nat.pow 2 52) ((e : Int) - 1075)

def signed (negative : Bool) (n : Nat) : Int :=
  if negative then -(n : Int) else n

/-- The integer part of a double, cut toward zero.  No number has none, and
an infinity is too large to have one. -/
def truncate (x : Float) : Except Fault Int :=
  match parts x with
  | .finite negative m q =>
    if 0 ≤ q then .ok (signed negative (m * Nat.pow 2 q.toNat))
    else .ok (signed negative (m / Nat.pow 2 (-q).toNat))
  | .infinite _ => .error .tooLarge
  | .nan => .error .malformedNumber

def isIntegral (x : Float) : Bool :=
  match parts x with
  | .finite _ m q => decide (0 ≤ q) || m % Nat.pow 2 (-q).toNat == 0
  | _ => false

/-- The double nearest to an integer, ties to even; an integer that would
round to an infinity is too large. -/
def ofInt (n : Int) : Except Fault Float :=
  let x := Float.ofInt n
  if x.isInf then .error .tooLarge else .ok x

end PageScript.Double
