/-
Frames.

A frame is the state of one running piece of code: the operand stack, which
cannot grow beyond the size computed for the code, and a slot for every
symbol.  A slot holds a value, nothing, or a reference; it becomes a
reference the first time one to it is asked for, and from then on storing
into the slot stores into the cell that the reference shares.
-/
import PageScript.Value.Access

namespace PageScript

/-- One running piece of code. -/
structure Frame where
  code : Bytecode
  /-- How many operands fit on the stack. -/
  capacity : Nat
  /-- The operands, the top first. -/
  stack : List Value := []
  slots : Array Value
  deriving Inhabited

namespace Frame

/-- Puts values into the slots of superglobals, in order. -/
def fillSuperglobals (values : List Value) (slots : Array Value) :
    List Int → Except Fault (Array Value)
  | [] => .ok slots
  | slot :: rest =>
    if slot < 0 then fillSuperglobals (values.drop 1) slots rest
    else match values with
      | [] => .error .outOfRange
      | v :: values => fillSuperglobals values (slots.setIfInBounds slot.toNat v) rest

/-- A new frame for a piece of code: nothing on the stack, nothing in the
slots but superglobals. -/
def new (superglobals : List Value) (code : Bytecode) : Except Fault Frame := do
  let slots ← fillSuperglobals superglobals (Array.replicate code.symbolSize Value.unset)
    code.superglobals
  return { code := code, capacity := code.stackSize, slots := slots }

def depth (f : Frame) : Nat := f.stack.length

/-- All the places of the stack, from the bottom, also those not in use. -/
def places (f : Frame) : List Value :=
  f.stack.reverse ++ List.replicate (f.capacity - f.depth) .unset

def push (f : Frame) (v : Value) : Except Fault Frame :=
  if f.depth < f.capacity then .ok { f with stack := v :: f.stack } else .error .checkFailed

def pushAll (f : Frame) : List Value → Except Fault Frame
  | [] => .ok f
  | v :: vs => do
    let f ← f.push v
    f.pushAll vs

def pop (f : Frame) : Except Fault (Value × Frame) :=
  match f.stack with
  | [] => .error .checkFailed
  | v :: rest => .ok (v, { f with stack := rest })

def top (f : Frame) : Except Fault Value :=
  match f.stack with
  | [] => .error .checkFailed
  | v :: _ => .ok v

/-- What a slot holds. -/
def load (f : Frame) (slot : Int) : Except Fault Value :=
  if slot < 0 then .error .checkFailed
  else match f.slots[slot.toNat]? with
    | some v => .ok v
    | none => .error .outOfRange

def store (f : Frame) (slot : Int) (v : Value) : Except Fault Frame :=
  if slot < 0 then .error .checkFailed
  else if slot.toNat < f.slots.size then
    .ok { f with slots := f.slots.setIfInBounds slot.toNat v }
  else .error .outOfRange

/-- The value of a variable: nothing, what its slot holds, or what is in the
cell that its slot refers to. -/
def getVariable (f : Frame) (s : Store) (slot : Int) : Except Fault Value := do
  let v ← f.load slot
  if v.isRef then s.valueOf v else return v

/-- Stores into the cell of a reference. -/
def putThrough (s : Store) (r v : Value) : Except Fault Store :=
  match r with
  | .ref id => .ok (s.setRef id v)
  | _ => .error .noOperation

/-- Stores into a variable: into its slot, or into the cell that its slot
refers to. -/
def storeVariable (f : Frame) (s : Store) (slot : Int) (v : Value) :
    Except Fault (Frame × Store) := do
  let old ← f.load slot
  if old.isRef then return (f, ← putThrough s old v) else return (← f.store slot v, s)

/-- A reference to a variable; its slot holds the reference from now on. -/
def getReference (f : Frame) (s : Store) (slot : Int) :
    Except Fault (Value × Frame × Store) := do
  let v ← f.load slot
  if v.isRef then return (v, f, s)
  else
    let (r, s) := s.newRef v
    return (r, ← f.store slot r, s)

/-- Binds a variable to a reference.  A slot that holds a reference already
keeps it and takes over the value only. -/
def setReference (f : Frame) (s : Store) (slot : Int) (r : Value) :
    Except Fault (Frame × Store) := do
  if !r.isRef then throw .checkFailed
  let old ← f.load slot
  if old.isRef then
    let v ← s.valueOf r
    return (f, ← putThrough s old v)
  else return (← f.store slot r, s)

def getReferenceByName (f : Frame) (s : Store) (name : String) :
    Except Fault (Value × Frame × Store) :=
  f.getReference s (f.code.slotOf name)

/-- Takes several operands off the stack. The result has them from the
bottom; what was taken before the stack ran out is gone. -/
def popN (f : Frame) : Nat → Except Fault (List Value) × Frame
  | 0 => (.ok [], f)
  | n + 1 =>
    match f.pop with
    | .error fault => (.error fault, f)
    | .ok (v, f) =>
      match f.popN n with
      | (.ok vs, f) => (.ok (vs ++ [v]), f)
      | (.error fault, f) => (.error fault, f)

end Frame

end PageScript
