/-
Arithmetic.

Integers have no bound, but sums, differences and products that leave 64 bits
become reals, computed from both operands as reals.  A quotient of integers
is a real, and an integer again if it is whole.  A remainder is that of the
operands as reals and has the sign of the left one.  Where one operand is an
integer and the other is not, the integer becomes a real first.
-/
import PageScript.Value
import PageScript.Double.Parts

namespace PageScript

inductive ArithOp where
  | add
  | sub
  | mult
  | mod
  | div
  deriving DecidableEq, Repr, Inhabited

namespace ArithOp

def all : List ArithOp := [.add, .sub, .mult, .mod, .div]

def name : ArithOp → String
  | .add => "add"
  | .sub => "sub"
  | .mult => "mult"
  | .mod => "mod"
  | .div => "div"

/-- An integer result if it fits into 64 bits, and otherwise the operation on
reals. -/
def checked (z : Int) (f : Float → Float → Float) (x y : Int) : Except Fault Value :=
  if inWordRange z then .ok (.int z)
  else do
    let x ← Double.ofInt x
    let y ← Double.ofInt y
    return .float (f x y)

def divide (x y : Int) : Except Fault Value := do
  let y ← Double.ofInt y
  let x ← Double.ofInt x
  if y == 0 then throw .divisionByZero
  let quotient := x / y
  if Double.isIntegral quotient then return .int (← Double.truncate quotient)
  else return .float quotient

def remainder (x y : Int) : Except Fault Value :=
  if x = 0 then .ok (.int x)
  else do
    let x ← Double.ofInt x
    let y ← Double.ofInt y
    let x ← Double.truncate x
    let y ← Double.truncate y
    if y = 0 then throw .malformedNumber
    return .int (x.tmod y)

def onInts : ArithOp → Int → Int → Except Fault Value
  | .add, x, y => checked (x + y) (· + ·) x y
  | .sub, x, y => checked (x - y) (· - ·) x y
  | .mult, x, y => checked (x * y) (· * ·) x y
  | .mod, x, y => remainder x y
  | .div, x, y => divide x y

/-- An operation on reals; there is no remainder of reals. -/
def onFloats : ArithOp → Float → Float → Except Fault Value
  | .add, x, y => .ok (.float (x + y))
  | .sub, x, y => .ok (.float (x - y))
  | .mult, x, y => .ok (.float (x * y))
  | .mod, _, _ => .error .noOperation
  | .div, x, y => if y == 0 then .error .divisionByZero else .ok (.float (x / y))

/-- An operation on two numbers of one kind, which the left one fixes. -/
def strict (op : ArithOp) : Value → Value → Except Fault Value
  | .int x, .int y => op.onInts x y
  | .int _, _ => .error .checkFailed
  | .float x, .float y => op.onFloats x y
  | .float _, _ => if op = .mod then .error .noOperation else .error .checkFailed
  | _, _ => .error .noOperation

/-- An operation on two numbers; an integer beside anything else becomes a
real. -/
def apply (op : ArithOp) : Value → Value → Except Fault Value
  | .int x, .int y => op.onInts x y
  | .int x, right => do
    let x ← Double.ofInt x
    op.strict (.float x) right
  | left, .int y => do
    let y ← Double.ofInt y
    op.strict left (.float y)
  | left, right => op.strict left right

end ArithOp

namespace Value

/-- A number that steps are counted in: a truth value counts as one or
zero. -/
inductive Step where
  | int (n : Int)
  | float (x : Float)

def toStep? : Value → Option Step
  | .datum (.int n) => some (.int n)
  | .datum (.truth b) => some (.int (if b then 1 else 0))
  | .datum (.float x) => some (.float x)
  | _ => none

def Step.neg : Step → Step
  | .int n => .int (-n)
  | .float x => .float (-x)

/-- A number that goes up by a step.  An integer stays an integer. -/
def increment (step : Option Step) : Value → Except Fault Value
  | .int n =>
    match step with
    | some (.int i) => .ok (.int (n + i))
    | some (.float x) => do
      let y ← Double.ofInt n
      return .int (← Double.truncate (y + x))
    | none => .error .wrongArguments
  | .float x =>
    match step with
    | some (.int i) => do
      let y ← Double.ofInt i
      return .float (x + y)
    | some (.float y) => .ok (.float (x + y))
    | none => .error .wrongArguments
  | _ => .error .noOperation

def toNumber : Value → Except Fault Float
  | .int n => Double.ofInt n
  | .float x => .ok x
  | _ => .error .noOperation

def getInt : Value → Except Fault Int
  | .int n => .ok n
  | _ => .error .noOperation

/-- Whether a value counts as true: a number unless it is zero, and a truth
value as it says.  Nothing else counts as either. -/
def isTrue : Value → Except Fault Bool
  | .bool b => .ok b
  | v => do return (← v.toNumber) != 0

/-- How far a shift goes: the five low bits of its right side. -/
def shiftCount (n : Int) : Nat := (n % 32).toNat

/-- A shift to the right keeps the sign. -/
def shiftRight (left right : Value) : Except Fault Value := do
  let r ← right.getInt
  let l ← left.getInt
  return .int (l.fdiv (Int.pow 2 (shiftCount r)))

/-- A shift to the left has no bound. -/
def shiftLeft (left right : Value) : Except Fault Value := do
  let r ← right.getInt
  let l ← left.getInt
  return .int (l * Int.pow 2 (shiftCount r))

end Value

end PageScript
