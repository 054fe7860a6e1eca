/-
The state of the machine.

* A `World` outlives every run: the store, the table of named constants,
  what was written to standard output, and the clock.
* An `Interpreter` has the functions, the open output buffers and the
  superglobals of one or more runs.
* A `Machine` is a run in progress: a world, an interpreter, the running
  frame and the frames that wait for calls to return.

Instructions are actions on a machine (`Exec`).  An action that fails leaves
the machine as far as it got.
-/
import PageScript.Machine.Frame

namespace PageScript

/-- What outlives every run. -/
structure World where
  store : Store := {}
  /-- The named constants, which all interpreters share. -/
  constants : Entries Value := []
  written : String := ""
  clock : Float := 0.0
  deriving Inhabited

/-- What the runs of one interpreter share. -/
structure Interpreter where
  /-- The functions by name, those declared last first. -/
  functions : Entries Value := Native.all.map fun f => (f.name, .native f)
  /-- The texts of the open output buffers, innermost first. -/
  buffers : List String := []
  /-- The values of the superglobals, once they are set up. -/
  superglobals : List Value := []
  deriving Inhabited

/-- A frame and the position of its next instruction. -/
structure Activation where
  frame : Frame
  pos : Nat := 0
  deriving Inhabited

/-- A run in progress. -/
structure Machine where
  world : World
  interpreter : Interpreter
  current : Activation
  /-- The activations that wait for a call to return, innermost first. -/
  callers : List Activation := []
  steps : Nat := 0
  /-- Whether a check of an operand stack has failed. -/
  stackFault : Bool := false
  deriving Inhabited

namespace World

/-- Writes to the output stream.  That every write is complete and none fails is an
assumption of this model: a stream that is closed or full is not represented. -/
def write (w : World) (text : String) : World := { w with written := w.written ++ text }

/-- Writes a line, under the same assumption. -/
def writeLine (w : World) (text : String) : World := w.write (text ++ "\n")

end World

namespace Machine

/-- The frame of the program. -/
def mainFrame (m : Machine) : Frame := (m.callers.getLastD m.current).frame

/-- Everything printed: what was written, then the open buffers from the
outermost to the innermost. -/
def transcript (m : Machine) : String :=
  m.world.written ++ String.join m.interpreter.buffers.reverse

end Machine

/-- Actions on a machine. -/
abbrev Exec := EStateM Fault Machine

namespace Exec

/-- Asks the store. -/
def fromStore {α : Type} (f : Store → Except Fault α) : Exec α := do
  ofExcept (f (← get).world.store)

/-- Changes the store. -/
def onStore {α : Type} (f : Store → Except Fault (α × Store)) : Exec α := do
  let m ← get
  let (result, store) ← ofExcept (f m.world.store)
  set { m with world := { m.world with store := store } }
  return result

def setFrame (frame : Frame) : Exec Unit :=
  modify fun m => { m with current := { m.current with frame := frame } }

/-- Changes the running frame. -/
def onFrame {α : Type} (f : Frame → Except Fault (α × Frame)) : Exec α := do
  let (result, frame) ← ofExcept (f (← get).current.frame)
  setFrame frame
  return result

/-- The answer of the operand stack; a check of it that fails is noted. -/
def fromStack {α : Type} (answer : Except Fault α) : Exec α :=
  match answer with
  | .ok a => return a
  | .error fault => do
    modify fun m => { m with stackFault := true }
    throw fault

/-- Puts an operand onto the stack. -/
def push (v : Value) : Exec Unit := do
  let frame ← fromStack ((← get).current.frame.push v)
  setFrame frame

/-- Takes the top operand. -/
def pop : Exec Value := do
  let (v, frame) ← fromStack (← get).current.frame.pop
  setFrame frame
  return v

def top : Exec Value := do
  fromStack (← get).current.frame.top

/-- Takes several operands off the stack; the result has them from the
bottom.  A count below one takes none. -/
def popN (n : Int) : Exec (List Value) := do
  let (result, frame) := (← get).current.frame.popN n.toNat
  setFrame frame
  fromStack result

def getVariable (slot : Int) : Exec Value := do
  let m ← get
  ofExcept (m.current.frame.getVariable m.world.store slot)

/-- Goes on with a changed frame and store. -/
def keep (frame : Frame) (store : Store) : Exec Unit :=
  modify fun m => { m with
    world := { m.world with store := store }
    current := { m.current with frame := frame } }

def storeVariable (slot : Int) (v : Value) : Exec Unit := do
  let m ← get
  let (frame, store) ← ofExcept (m.current.frame.storeVariable m.world.store slot v)
  keep frame store

def getReference (slot : Int) : Exec Value := do
  let m ← get
  let (r, frame, store) ← ofExcept (m.current.frame.getReference m.world.store slot)
  keep frame store
  return r

def getReferenceByName (name : String) : Exec Value := do
  let m ← get
  let (r, frame, store) ← ofExcept (m.current.frame.getReferenceByName m.world.store name)
  keep frame store
  return r

def setReference (slot : Int) (r : Value) : Exec Unit := do
  let m ← get
  let (frame, store) ← ofExcept (m.current.frame.setReference m.world.store slot r)
  keep frame store

/-- The value of a variable that must have one. -/
def requireVariable (slot : Int) (name : String) : Exec Value := do
  match ← getVariable slot with
  | .unset => throw (.complaint (.unsetVariable name))
  | v => return v

/-- Prints: into the innermost buffer, or to standard output if none is
open. -/
def output (text : String) : Exec Unit :=
  modify fun m =>
    match m.interpreter.buffers with
    | [] => { m with world := m.world.write text }
    | buffer :: rest =>
      { m with interpreter := { m.interpreter with buffers := (buffer ++ text) :: rest } }

def startBuffering : Exec Unit :=
  modify fun m => { m with
    interpreter := { m.interpreter with buffers := "" :: m.interpreter.buffers } }

/-- Closes the innermost buffer; answers its text. -/
def endBuffer : Exec String := do
  let m ← get
  match m.interpreter.buffers with
  | [] => throw .outOfRange
  | buffer :: rest =>
    set { m with interpreter := { m.interpreter with buffers := rest } }
    return buffer

end Exec

end PageScript
