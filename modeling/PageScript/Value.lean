/-
Values of a script.

Numbers, texts, booleans and null are values in themselves.  What can change
or be shared (the contents of arrays, the cells behind references, the text
under construction behind a concatenation, the state of an iteration, the
code of a function) lives in the `Store`; the value then holds its number
there.

Three kinds of value never result from an expression of the language but do
occur where the machine is driven by hand: `unset`, the content of a slot
nobody stored into; `datum`, a plain piece of data not wrapped as a script
value; and `hollow`, the copy of something whose content copying leaves out.
-/
namespace PageScript

/-- The integers of 64 bits are those from `-wordLimit` to `wordLimit - 1`. -/
def wordLimit : Int := 9223372036854775808

/-- Whether an integer fits into 64 bits. -/
def inWordRange (n : Int) : Bool := -wordLimit ≤ n && n ≤ wordLimit - 1

/-- The functions every script can call without declaring them. -/
inductive Native where
  | define
  | strlen
  | strRepeat
  | printf
  | printR
  | dechex
  | numberFormat
  | range
  | getTimeOfDay
  | obStart
  | obEndClean
  | obFlush
  deriving DecidableEq, Repr, Inhabited

def Native.all : List Native :=
  [.define, .strlen, .strRepeat, .printf, .printR, .dechex, .numberFormat, .range,
    .getTimeOfDay, .obStart, .obEndClean, .obFlush]

def Native.name : Native → String
  | .define => "define"
  | .strlen => "strlen"
  | .strRepeat => "str_repeat"
  | .printf => "printf"
  | .printR => "print_r"
  | .dechex => "dechex"
  | .numberFormat => "number_format"
  | .range => "range"
  | .getTimeOfDay => "gettimeofday"
  | .obStart => "ob_start"
  | .obEndClean => "ob_end_clean"
  | .obFlush => "ob_flush"

def Native.find? (name : String) : Option Native :=
  Native.all.find? fun f => f.name == name

/-- A plain piece of data, not yet wrapped as a value of the script. -/
inductive Datum where
  | truth (b : Bool)
  | int (n : Int)
  | float (x : Float)
  | text (s : String)
  /-- A plain sequence; its items are the list with this number. -/
  | items (list : Nat)
  /-- Data of any other shape. -/
  | other
  deriving Inhabited

/-- The kinds of value whose copies are empty. -/
inductive Hollow where
  | template
  | cursor
  | native
  | code
  deriving DecidableEq, Repr, Inhabited

/-- A value of a script. -/
inductive Value where
  /-- Nothing: what an unused slot holds. -/
  | unset
  | null
  | bool (b : Bool)
  | int (n : Int)
  | float (x : Float)
  | text (s : String)
  /-- The text under construction with this number, of the length it had when
  the value was made. -/
  | concat (builder length : Nat)
  | list (id : Nat)
  | dict (id : Nat)
  | ref (id : Nat)
  | cursor (id : Nat)
  /-- A text with gaps. -/
  | template (parts : List (Option String))
  | native (f : Native)
  | code (id : Nat)
  | hollow (kind : Hollow)
  | datum (d : Datum)
  deriving Inhabited

namespace Value

def isInt : Value → Bool
  | .int _ => true
  | _ => false

def isFloat : Value → Bool
  | .float _ => true
  | _ => false

def isNumber (v : Value) : Bool := v.isInt || v.isFloat

/-- A text, whether finished or under construction. -/
def isText : Value → Bool
  | .text _ => true
  | .concat _ _ => true
  | _ => false

def isRef : Value → Bool
  | .ref _ => true
  | _ => false

def isFunction : Value → Bool
  | .native _ => true
  | .code _ => true
  | .hollow .native => true
  | .hollow .code => true
  | _ => false

/-- A value of the language, as opposed to nothing and to plain data. -/
def isScript : Value → Bool
  | .unset => false
  | .datum _ => false
  | _ => true

end Value

end PageScript
