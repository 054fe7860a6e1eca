/-
Templates of `printf`.

A directive is a `%`, a point that is passed over, a width of digits from 0
to 8, and a letter: `s` for the text of the next item, `d` for its text with
zeros in front up to the width, `f` for its value with as many places as the
width says.  Any other letter is a feature that does not exist, and so is a
digit 9.
-/
import PageScript.Value.Text
import PageScript.Value.Arithmetic
import PageScript.Decimal.Fixed
import PageScript.Decimal.Reading

namespace PageScript.Store

/-- Whether this can be a digit of a width. -/
def isWidthDigit (c : Char) : Bool := '0' ≤ c && c ≤ '8'

/-- A text with zeros in front, up to a width. -/
def zeroPad (width : Nat) (t : String) : String :=
  String.ofList (List.replicate (width - t.length) '0') ++ t

/-- The text of an item as the letter of a directive wants it. -/
def formatItem (s : Store) (letter : Char) (width : Nat) (v : Value) : Except Fault String :=
  if letter = 's' then s.textOf v
  else if letter = 'd' then do return zeroPad width (← s.textOf v)
  else if letter = 'f' then do
    let x ← v.toNumber
    return zeroPad width (← Decimal.fixedText? width x)
  else throw (.notImplemented (String.ofList [letter]))

/-- What follows the `%` of a directive: width, letter, and the rest of the
template. -/
def directive? (cs : List Char) : Option (Nat × Char × List Char) :=
  let cs := if cs.head? = some '.' then cs.drop 1 else cs
  match cs.dropWhile isWidthDigit with
  | [] => none
  | letter :: rest => some (Decimal.digitsValue (cs.takeWhile isWidthDigit), letter, rest)

theorem directive?_length {cs rest : List Char} {width : Nat} {letter : Char}
    (h : directive? cs = some (width, letter, rest)) : rest.length < cs.length := by
  unfold directive? at h
  simp only at h
  split at h
  · cases h
  · next hd =>
    simp only [Option.some.injEq, Prod.mk.injEq] at h
    obtain ⟨-, -, rfl⟩ := h
    have h₁ := congrArg List.length hd
    simp only [List.length_cons] at h₁
    split at h₁
    · have h₂ := (List.dropWhile_sublist isWidthDigit (l := cs.drop 1)).length_le
      simp only [List.length_drop] at h₂
      omega
    · have h₂ := (List.dropWhile_sublist isWidthDigit (l := cs)).length_le
      omega

/-- The pieces of a template with the items filled in, and how many items
were used. -/
def formatFrom (s : Store) (cs : List Char) (items : List Value) (used : Nat) :
    Except Fault (List Char × Nat) :=
  match cs with
  | [] => .ok ([], used)
  | c :: rest =>
    if c = '%' then
      match h : directive? rest, items with
      | none, _ => .error .outOfRange
      | some _, [] => .error .outOfRange
      | some (width, letter, more), item :: items => do
        have : more.length < rest.length := directive?_length h
        let piece ← s.formatItem letter width item
        let (text, used) ← s.formatFrom more items (used + 1)
        return (piece.toList ++ text, used)
    else do
      let (text, used) ← s.formatFrom rest items used
      return (c :: text, used)
termination_by cs.length
decreasing_by
  · simp only [List.length_cons]
    omega
  · simp only [List.length_cons]
    omega

/-- A template with the items filled in, and how many items were used. -/
def format (s : Store) (template : String) (items : List Value) :
    Except Fault (String × Nat) := do
  let (text, used) ← s.formatFrom template.toList items 0
  return (String.ofList text, used)

end PageScript.Store
