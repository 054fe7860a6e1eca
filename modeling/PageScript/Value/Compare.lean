/-
Comparison of values.

Two integers compare exactly, two numbers as reals, and any other pair by
the order of their texts.
-/
import PageScript.Value.Text
import PageScript.Value.Arithmetic

namespace PageScript

/-- The three tests that comparisons are made of. -/
inductive Test where
  | greater
  | greaterOrEqual
  | equal
  deriving DecidableEq, Repr

namespace Test

def ints : Test → Int → Int → Bool
  | .greater, x, y => y < x
  | .greaterOrEqual, x, y => y ≤ x
  | .equal, x, y => x == y

/-- A test of reals; what is no number passes none. -/
def floats : Test → Float → Float → Bool
  | .greater, x, y => y < x
  | .greaterOrEqual, x, y => y ≤ x
  | .equal, x, y => x == y

def texts : Test → String → String → Bool
  | .greater, x, y => y < x
  | .greaterOrEqual, x, y => !(x < y)
  | .equal, x, y => x == y

def values (t : Test) (s : Store) (x y : Value) : Except Fault Bool :=
  match x, y with
  | .int m, .int n => .ok (t.ints m n)
  | x, y =>
    if x.isNumber && y.isNumber then do
      let a ← x.toNumber
      let b ← y.toNumber
      return t.floats a b
    else do
      let a ← s.textOf x
      let b ← s.textOf y
      return t.texts a b

end Test

inductive Comparison where
  | eq
  | gt
  | ge
  | lt
  | le
  deriving DecidableEq, Repr

def Comparison.all : List Comparison := [.eq, .gt, .ge, .lt, .le]

def Comparison.name : Comparison → String
  | .eq => "eq"
  | .gt => "gt"
  | .ge => "ge"
  | .lt => "lt"
  | .le => "le"

/-- A comparison: `<` and `≤` are `>` and `≥` with the sides exchanged. -/
def Comparison.holds (c : Comparison) (s : Store) (x y : Value) : Except Fault Bool :=
  match c with
  | .eq => Test.equal.values s y x
  | .gt => Test.greater.values s x y
  | .ge => Test.greaterOrEqual.values s x y
  | .lt => Test.greater.values s y x
  | .le => Test.greaterOrEqual.values s y x

end PageScript
