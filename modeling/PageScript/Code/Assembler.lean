/-
Putting code together.

An `Assembler` holds the items emitted so far, the next free label, and four
stacks about the loops that are open: where each starts, where it ends,
whether something has to be taken off the stack after a break, and where
`continue` goes.  The last may have fewer or more entries than the others:
a loop over an array has no place of its own for `continue`.
-/
import PageScript.Code.Bytecode

namespace PageScript

/-- Code under construction. -/
structure Assembler where
  items : Array Item := #[]
  nextLabel : Int := 100000
  /-- The start labels of open loops, innermost first. -/
  starts : List Int := []
  ends : List Int := []
  popAfterBreak : List Bool := []
  /-- The labels for `continue`, innermost first. -/
  updates : List Int := []
  deriving Inhabited

/-- Actions that emit code. -/
abbrev Emit := EStateM Fault Assembler

namespace Emit

def item (i : Item) : Emit Unit :=
  modify fun a => { a with items := a.items.push i }

def instr (i : Instr Int Bytecode) : Emit Unit := item (.instr i)

def freshLabel : Emit Int := do
  let a ← get
  set { a with nextLabel := a.nextLabel + 1 }
  return a.nextLabel

/-- Emits a label; the label -1 asks for a fresh one. -/
def label (n : Int) : Emit Int := do
  let n ← if n = -1 then freshLabel else pure n
  item (.label n)
  return n

/-- Opens a loop and emits its start label. -/
def startLoop : Emit Int := do
  let n ← label (-1)
  modify fun a => { a with starts := n :: a.starts }
  return n

/-- A label for the end of the loop. -/
def freshEnd (popAfterBreak : Bool) : Emit Int := do
  let n ← freshLabel
  modify fun a => { a with ends := n :: a.ends, popAfterBreak := popAfterBreak :: a.popAfterBreak }
  return n

def freshUpdate : Emit Int := do
  let n ← freshLabel
  modify fun a => { a with updates := n :: a.updates }
  return n

def popEnd : Emit Unit := do
  let a ← get
  match a.ends with
  | [] => throw .outOfRange
  | _ :: rest => set { a with ends := rest }

def popStart : Emit Unit := do
  let a ← get
  match a.starts with
  | [] => throw .outOfRange
  | _ :: rest => set { a with starts := rest }

def popMark : Emit Unit := do
  let a ← get
  match a.popAfterBreak with
  | [] => throw .outOfRange
  | _ :: rest => set { a with popAfterBreak := rest }

def popUpdate : Emit Unit := do
  let a ← get
  match a.updates with
  | [] => throw .outOfRange
  | _ :: rest => set { a with updates := rest }

/-- Closes a loop. -/
def endLoop (n : Int) : Emit Unit := do
  popEnd
  popStart
  popMark
  let _ ← label n

def updateLoop (n : Int) : Emit Unit := do
  popUpdate
  let _ ← label n

/-- From here on `continue` goes to a label. -/
def continueAt (n : Int) : Emit Unit :=
  modify fun a => { a with updates := n :: a.updates }

/-- Jumps to the end of the innermost loop. -/
def breakLoop : Emit Unit := do
  match (← get).ends with
  | [] => throw (.complaint .breakOutsideLoop)
  | n :: _ => instr (.jump .always n)

/-- Jumps to where `continue` goes. -/
def continueLoop : Emit Unit := do
  let a ← get
  if a.starts.isEmpty then throw (.complaint .continueOutsideLoop)
  else match a.updates with
    | [] => throw .outOfRange
    | n :: _ => instr (.jump .always n)

end Emit

end PageScript
