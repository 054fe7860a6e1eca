/-
Running code.

`Machine.run` makes steps until the program is over, something fails, or a
given number of steps is used up; more steps than needed change nothing.
`Interpreter.run` runs code and then writes out what is left in open
buffers.  `Interpreter.runReturn` collects the output in a buffer instead
and answers its text; a script that closes this buffer itself leaves nothing
to answer.
-/
import PageScript.Machine.Step

namespace PageScript

/-- How a run ended. -/
inductive Ending where
  /-- With a value, or with `unset` past the last instruction. -/
  | finished (result : Value)
  | failed (fault : Fault)
  /-- It did not end within the steps it was given. -/
  | outOfFuel

def Ending.fault? : Ending → Option Fault
  | .finished _ => none
  | .failed fault => some fault
  | .outOfFuel => some .interrupted

namespace Machine

/-- Runs for at most `fuel` steps. -/
def run : Nat → Machine → Ending × Machine
  | 0, m => (.outOfFuel, m)
  | fuel + 1, m =>
    match step.run m with
    | .ok .running m => run fuel m
    | .ok (.done v) m => (.finished v, m)
    | .error fault m => (.failed fault, m)

/-- The machine before each of its next `n` steps. -/
def states : Nat → Machine → List Machine
  | 0, _ => []
  | n + 1, m =>
    match step.run m with
    | .ok .running next => m :: states n next
    | _ => [m]

/-- The machine before its first step. -/
def launch (world : World) (interpreter : Interpreter) (code : Bytecode) :
    Except Fault Machine := do
  let frame ← Frame.new interpreter.superglobals code
  return { world := world, interpreter := interpreter, current := { frame := frame } }

end Machine

/-- What came of a run. -/
structure Run where
  world : World
  interpreter : Interpreter
  ending : Ending
  /-- The machine before the first and after the last step, if there were
  any. -/
  course : Option (Machine × Machine) := none
  returned : Option String := none

namespace Interpreter

/-- Runs code, leaving open buffers open. -/
def execute (fuel : Nat) (world : World) (i : Interpreter) (code : Bytecode) : Run :=
  match Machine.launch world i code with
  | .error fault => { world := world, interpreter := i, ending := .failed fault }
  | .ok start =>
    if code.code.isEmpty then
      { world := world, interpreter := i, ending := .finished .unset }
    else
      let (ending, last) := start.run fuel
      { world := last.world, interpreter := last.interpreter, ending := ending,
        course := some (start, last) }

/-- The text of the outermost buffer once every inner one is closed and its
text passed on to the one around it. -/
def collect (i : Interpreter) : String :=
  i.buffers.foldl (fun inner outer => outer ++ inner) ""

/-- Runs code and writes out what is left in open buffers. -/
def run (fuel : Nat) (world : World) (i : Interpreter) (code : Bytecode) : Run :=
  let r := i.execute fuel world code
  match r.ending with
  | .finished _ =>
    { r with
      world := r.world.write r.interpreter.collect
      interpreter := { r.interpreter with buffers := [] } }
  | _ => r

/-- Runs code and collects its output. -/
def runReturn (fuel : Nat) (world : World) (i : Interpreter) (code : Bytecode) : Run :=
  let r := { i with buffers := "" :: i.buffers }.execute fuel world code
  match r.ending, r.interpreter.buffers with
  | .finished _, _ :: _ =>
    { r with
      returned := some r.interpreter.collect
      interpreter := { r.interpreter with buffers := [] } }
  | _, _ => r

/-- Sets the superglobals up from the query of a request.  There is nothing
in the second one. -/
def setup (world : World) (i : Interpreter) (query : List (String × String)) :
    World × Interpreter :=
  let entries := Entries.putAll [] (query.map fun (key, t) => (key, Value.text t))
  let (dict, store) := world.store.newDict entries
  let (r, store) := store.newRef dict
  ({ world with store := store }, { i with superglobals := [r, .unset] })

end Interpreter

end PageScript
