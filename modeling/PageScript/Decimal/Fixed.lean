/-
Decimals with a fixed number of places.

`fixedText places x` is the exact value of a double rounded to that many
places after the point; a half goes to the even neighbour.
-/
import PageScript.Double.Parts

namespace PageScript.Decimal

open Double (Parts parts)

/-- `num / den` rounded to the nearest integer, a half to the even one. -/
def roundHalfEven (num den : Nat) : Nat :=
  let d := num / den
  let r := num % den
  if 2 * r < den then d
  else if den < 2 * r then d + 1
  else if d % 2 = 0 then d else d + 1

/-- The digits of `n`, with a point before the last `places` of them. -/
def withPoint (n places : Nat) : List Char :=
  let digits := Nat.toDigits 10 n
  let padded := List.replicate (places + 1 - digits.length) '0' ++ digits
  let whole := padded.take (padded.length - places)
  if places = 0 then whole else whole ++ '.' :: padded.drop (padded.length - places)

def fixedText (places : Nat) (x : Float) : String :=
  match parts x with
  | .finite negative m q =>
    let text := withPoint
      (roundHalfEven (m * Nat.pow 10 places * Nat.pow 2 q.toNat) (Nat.pow 2 (-q).toNat)) places
    String.ofList (if negative then '-' :: text else text)
  | .infinite negative => if negative then "-inf" else "inf"
  | .nan => "nan"

/-- The largest number of places that can be asked for. -/
def mostPlaces : Int := 2147483647

/-- A double to a number of places that was computed: it has to be from zero
up to `mostPlaces`. -/
def fixedText? (places : Int) (x : Float) : Except Fault String :=
  if places < 0 ∨ mostPlaces < places then .error .malformedNumber
  else .ok (fixedText places.toNat x)

end PageScript.Decimal
