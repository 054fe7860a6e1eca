/-
Native functions.

A native function takes the values of its arguments: for a reference, what
is in its cell.  The template of `printf` is the one exception, it has to be
a text itself.  Arguments beyond those it needs are ignored.
-/
import PageScript.Machine.State
import PageScript.Value.Template
import PageScript.Decimal.Fixed
import PageScript.Decimal.Reading

namespace PageScript

namespace Exec

def argument (args : List Value) (i : Nat) : Exec Value :=
  match args[i]? with
  | some v => return v
  | none => throw .outOfRange

def argumentValue (args : List Value) (i : Nat) : Exec Value := do
  let v ← argument args i
  fromStore (·.valueOf v)

def valuesOf : List Value → Exec (List Value)
  | [] => return []
  | v :: vs => do
    let v ← fromStore (·.valueOf v)
    return v :: (← valuesOf vs)

def check (holds : Bool) : Exec Unit :=
  if holds then return () else throw .checkFailed

def textOf (v : Value) : Exec String := fromStore (·.textOf v)

def newList (items : List Value) : Exec Value :=
  onStore fun s => return s.newList items.toArray

/-- A new sequence of values that is no value of the script itself. -/
def newItems (items : List Value) : Exec Value :=
  onStore fun s => return (.datum (.items s.lists.size), (s.newList items.toArray).2)

end Exec

namespace Native

open Exec

/-- A text several times over; a count below one gives an empty text. -/
def repeated (t : String) (count : Int) : Except Fault String :=
  if !inWordRange count then .error .tooLarge
  else if count < 1 ∨ t.isEmpty then .ok ""
  else if wordLimit - 1 < count * t.length then .error .tooLarge
  else .ok (String.join (List.replicate count.toNat t))

def hexText (n : Int) : String :=
  let digits := "0x" ++ String.ofList (Nat.toDigits 16 n.natAbs)
  if n < 0 then "-" ++ digits else digits

/-- The integers from one up to another. -/
def interval (start finish : Int) : List Int :=
  (List.range (finish + 1 - start).toNat).map fun i : Nat => start + i

def secondsAndMicros (clock : Float) : Except Fault (Int × Int) :=
  let (whole, fraction) := Text.cutFirst '.' (Decimal.fixedText 6 clock).toList
  match Decimal.readInt? (String.ofList whole), fraction.bind fun cs =>
      Decimal.readInt? (String.ofList cs) with
  | some seconds, some micros => .ok (seconds, micros)
  | _, _ => .error .malformedNumber

/-- Declares a named constant; answers whether the name was free. -/
def callDefine (args : List Value) : Exec Value := do
  let name ← argumentValue args 0
  check name.isText
  let v ← argumentValue args 1
  let name ← textOf name
  let m ← get
  match m.world.constants.get? name with
  | some _ => return .bool false
  | none =>
    check v.isScript
    set { m with world := { m.world with constants := m.world.constants.put name v } }
    return .bool true

/-- What a native function does. -/
def call (f : Native) (args : List Value) : Exec Value :=
  match f with
  | .define => callDefine args
  | .strlen => do
    let v ← argumentValue args 0
    check v.isText
    return .int (← fromStore (·.lengthOf v))
  | .strRepeat => do
    let v ← argumentValue args 0
    let count ← argumentValue args 1
    check v.isText
    check count.isInt
    let t ← textOf v
    return .text (← ofExcept (repeated t (← ofExcept count.getInt)))
  | .printf => do
    let template ← argument args 0
    check template.isText
    let items ← valuesOf (args.drop 1)
    let t ← textOf template
    let (text, _) ← fromStore (·.format t items)
    output text
    return .null
  | .printR => do
    let v ← argumentValue args 0
    output (← fromStore (·.fullTextOf v))
    return .null
  | .dechex => do
    let v ← argumentValue args 0
    check v.isInt
    return .text (hexText (← ofExcept v.getInt))
  | .numberFormat => do
    let v ← argumentValue args 0
    check v.isFloat
    let places ← argumentValue args 1
    check places.isInt
    let x ← ofExcept v.toNumber
    return .text (← ofExcept (Decimal.fixedText? (← ofExcept places.getInt) x))
  | .range => do
    let start ← argumentValue args 0
    let finish ← argumentValue args 1
    check start.isInt
    check finish.isInt
    let numbers := interval (← ofExcept start.getInt) (← ofExcept finish.getInt)
    newList (numbers.map .int)
  | .getTimeOfDay => do
    let (seconds, micros) ← ofExcept (secondsAndMicros (← get).world.clock)
    onStore fun s => return s.newDict [("sec", .int seconds), ("usec", .int micros)]
  | .obStart => do
    startBuffering
    return .null
  | .obEndClean => do
    let _ ← endBuffer
    return .null
  | .obFlush => do
    let text ← endBuffer
    output text
    return .null

end Native

end PageScript
