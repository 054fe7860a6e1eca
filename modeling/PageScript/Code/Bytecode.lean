/-
Code that can be run.

A `Bytecode` is the code of one program or function together with what its
scope declares.  It is made from a list of instructions and labels in three
steps, each of which can be looked at alone:

* `resolve` takes the labels out and gives every jump the position of its
  label;
* `dropReturns` leaves out a `RETURN` that directly follows a `RETURN`;
* `stackEstimate` adds up the changes of stack depth along the code, which
  must never lead below zero, and takes the greatest.
-/
import PageScript.Code.Instr
import PageScript.Scope

namespace PageScript

/-- The code of one program or function. -/
structure Bytecode where
  name : String
  symbols : SymbolMap
  varNames : List String
  globals : List (String × Int)
  parameters : List (String × Bool)
  superglobals : List Int
  constants : Array Value
  listing : Array (Instr Nat Bytecode)
  code : Array (Instr Nat Bytecode)
  /-- How many values the operand stack can hold. -/
  stackSize : Nat
  deriving Inhabited

/-- An instruction, or the label of the one after it. -/
inductive Item where
  | label (n : Int)
  | instr (i : Instr Int Bytecode)
  deriving Inhabited

namespace Item

def text : Item → String
  | .label n => "LABEL " ++ toString n
  | .instr i => i.text

def stackChange : Item → Int
  | .label _ => 0
  | .instr i => i.stackChange

/-- The labels with the positions they mark, counting from `pos`; of two
equal labels the last one counts. -/
def labels (pos : Nat) : List Item → List (Int × Nat)
  | [] => []
  | .label n :: items => labels pos items ++ [(n, pos)]
  | .instr _ :: items => labels (pos + 1) items

def position (table : List (Int × Nat)) (n : Int) : Except Fault Nat :=
  match table.lookup n with
  | some pos => .ok pos
  | none => .error .missingEntry

/-- The instructions without the labels, jumps going to positions. -/
def relocate (table : List (Int × Nat)) : List Item → Except Fault (List (Instr Nat Bytecode))
  | [] => .ok []
  | .label _ :: items => relocate table items
  | .instr i :: items => do
    let i ← i.retarget (position table)
    return i :: (← relocate table items)

/-- Jumps to labels become jumps to positions. -/
def resolve (items : List Item) : Except Fault (List (Instr Nat Bytecode)) :=
  relocate (labels 0 items) items

end Item

namespace Bytecode

/-- Code without each `RETURN` that directly follows a `RETURN`. -/
def dropReturns (afterReturn : Bool) :
    List (Instr Nat Bytecode) → List (Instr Nat Bytecode)
  | [] => []
  | i :: is =>
    if i.isReturn && afterReturn then dropReturns true is
    else i :: dropReturns i.isReturn is

/-- The greatest depth of the stack along the code, if it never falls below
zero. -/
def stackEstimate (depth greatest : Int) : List (Instr Nat Bytecode) → Except Fault Int
  | [] => .ok greatest
  | i :: is =>
    let depth := depth + i.stackChange
    if depth < 0 then .error .checkFailed else stackEstimate depth (max depth greatest) is

/-- Makes code of items. -/
def assemble (name : String) (scope : Scope) (items : List Item) : Except Fault Bytecode := do
  let listing ← Item.resolve items
  let code := dropReturns false listing
  let size ← stackEstimate 0 0 code
  return {
    name := name
    symbols := scope.symbols
    varNames := scope.varNames
    globals := scope.globals
    parameters := scope.parameters
    superglobals := scope.superglobals
    constants := scope.constants.toArray
    listing := listing.toArray
    code := code.toArray
    stackSize := size.toNat }

def symbolSize (b : Bytecode) : Nat := b.symbols.size.toNat

/-- The slot of a name, or -1. -/
def slotOf (b : Bytecode) (name : String) : Int := b.symbols.lookup (some name)

def functions (b : Bytecode) : List Bytecode :=
  b.listing.toList.filterMap fun
    | .declareFunction _ code => some code
    | _ => none

end Bytecode

end PageScript
