/-
One step of the machine.

`Instr.exec` is what an instruction does to the running frame, the store and
the output; it answers how the machine goes on.  `Machine.step` adds the
bookkeeping of calls: a call of a declared function suspends the running
frame, and a return hands its value to the frame that waits.  Code that runs
past its end returns nothing, which only the program itself may do.
-/
import PageScript.Machine.Native
import PageScript.Value.Compare

namespace PageScript

/-- How the machine goes on after an instruction. -/
inductive Flow (L : Type) where
  | next
  | jump (target : L)
  /-- With the first instruction of a called function. -/
  | enter (frame : Frame)
  | leave (v : Value)

open Exec

/-- Whether a jump is made. -/
def Jump.taken : Jump → Exec Bool
  | .always => return true
  | .ifFalse => do
    let v ← pop
    return !(← ofExcept v.isTrue)
  | .ifFalseKeep => do
    let v ← top
    if ← ofExcept v.isTrue then
      let _ ← pop
      return false
    else return true
  | .ifTrueKeep => do
    let v ← top
    if ← ofExcept v.isTrue then return true
    else
      let _ ← pop
      return false
  | .ifIteratorEmpty => do
    let last ← pop
    match ← top with
    | .cursor id =>
      let c := (← get).world.store.cursor id
      if c.index = c.stop then
        let _ ← pop
        push last
        return true
      else return false
    | _ => throw .noOperation

def Operator.evaluate (op : Operator) (left right : Value) : Exec Value :=
  match op with
  | .comma => return right
  | .concat => onStore (·.concatenate left right)
  | .add => ofExcept (ArithOp.add.apply left right)
  | .sub => ofExcept (ArithOp.sub.apply left right)
  | .mul => ofExcept (ArithOp.mult.apply left right)
  | .div => ofExcept (ArithOp.div.apply left right)
  | .mod => ofExcept (ArithOp.mod.apply left right)
  | .eq => return .bool (← fromStore (Comparison.eq.holds · left right))
  | .gt => return .bool (← fromStore (Comparison.gt.holds · left right))
  | .ge => return .bool (← fromStore (Comparison.ge.holds · left right))
  | .lt => return .bool (← fromStore (Comparison.lt.holds · left right))
  | .le => return .bool (← fromStore (Comparison.le.holds · left right))
  | .ursh => ofExcept (Value.shiftRight left right)
  | .rsh => ofExcept (Value.shiftRight left right)
  | .lsh => ofExcept (Value.shiftLeft left right)

def UnaryOperator.evaluate (op : UnaryOperator) (v : Value) : Except Fault Value :=
  match op with
  | .not => do return .bool (!(← v.isTrue))
  | .incr => v.increment (some (.int 1))
  | .decr => v.increment (some (.int (-1)))

namespace Exec

def constantAt (place : Int) : Exec Value := do
  let pool := (← get).current.frame.code.constants
  match (Store.place? pool.size place).bind fun n => pool[n]? with
  | some v => return v
  | none => throw .outOfRange

/-- What a parameter gets: by value a copy of what the argument stands for,
by reference the reference itself. -/
def bindArgument (byValue : Bool) (v : Value) : Exec Value := do
  if byValue then
    let v ← if v.isRef then fromStore (·.valueOf v) else pure v
    onStore (·.copy v)
  else if v.isRef then return v
  else throw (.complaint .referenceExpected)

/-- Binds parameters, the first to slot `i`, and so on. -/
def bindParameters (frame : Frame) (i : Nat) (args : List Value) :
    List (String × Bool) → Exec Frame
  | [] => return frame
  | (_, byValue) :: rest => do
    match args with
    | [] => throw .outOfRange
    | v :: args =>
      let v ← bindArgument byValue v
      let frame ← onStore fun s => frame.storeVariable s i v
      bindParameters frame (i + 1) args rest

/-- Binds the names declared global to the variables of the running frame
with these names. -/
def bindGlobals (frame : Frame) : List (String × Int) → Exec Frame
  | [] => return frame
  | (name, slot) :: rest => do
    let r ← getReferenceByName name
    let frame ← onStore fun s => frame.setReference s slot r
    bindGlobals frame rest

/-- The frame in which a declared function runs.  Code without instructions
returns nothing, which a call does not accept. -/
def enterFunction (code : Bytecode) (args : List Value) : Exec Frame := do
  let frame ← ofExcept (Frame.new (← get).interpreter.superglobals code)
  let frame ← bindParameters frame 0 args code.parameters
  let frame ← bindGlobals frame code.globals
  check (!code.code.isEmpty)
  return frame

/-- Calls a value. -/
def callFunction {L : Type} (f : Value) (args : List Value) : Exec (Flow L) :=
  match f with
  | .native g => do
    let v ← g.call args
    push v
    return .next
  | .code id => do
    let code := (← get).world.store.code id
    return .enter (← enterFunction code args)
  | _ => throw .noOperation

def declareFunction (name : String) (code : Bytecode) : Exec Unit := do
  let f ← onStore fun s => return s.newCode code
  let m ← get
  match m.interpreter.functions.get? name with
  | some _ => throw (.complaint (.functionTaken name))
  | none =>
    set { m with interpreter :=
      { m.interpreter with functions := (name, f) :: m.interpreter.functions } }

/-- The element an iteration stands at and its key go on the stack, and the
iteration goes on. -/
def advance : Exec Unit := do
  match ← top with
  | .cursor id =>
    let c := (← get).world.store.cursor id
    let element ← fromStore (·.currentElement c)
    push element
    push (.text (Store.currentKey c))
    let _ ← onStore (·.nextElement id)
  | .hollow .cursor => throw .noOperation
  | _ => throw .checkFailed

end Exec

/-- What an instruction does. -/
def Instr.exec {L : Type} (i : Instr L Bytecode) : Exec (Flow L) :=
  match i with
  | .loadNamedConstant name => do
    match (← get).world.constants.get? name with
    | some v => do
      push v
      return .next
    | none => throw (.complaint (.undefinedConstant name))
  | .loadVar slot name => do
    push (← requireVariable slot name)
    return .next
  | .loadRef slot _ => do
    push (← getReference slot)
    return .next
  | .loadFunction name => do
    match (← get).interpreter.functions.get? name with
    | some f => do
      push f
      return .next
    | none => throw (.complaint (.undefinedFunction name))
  | .declareFunction name code => do
    Exec.declareFunction name code
    return .next
  | .loadNull => do
    push .null
    return .next
  | .loadBoolean value => do
    push (.bool value)
    return .next
  | .stringSubstitution count => do
    let template ← pop
    let fillers ← popN count
    push (← fromStore (·.substitute template fillers))
    return .next
  | .loadArray count => do
    let items ← popN count
    push (← newList items)
    return .next
  | .loadConstant place => do
    push (← constantAt place)
    return .next
  | .loadMember => do
    let array ← pop
    let key ← pop
    push (← fromStore (·.getMember array key))
    return .next
  | .loadMemberVar slot name => do
    let array ← requireVariable slot name
    let key ← pop
    push (← fromStore (·.getMember array key))
    return .next
  | .storeMember => do
    let array ← pop
    let key ← pop
    let v ← pop
    push (← onStore (·.putMember array key v))
    return .next
  | .storeMemberVar slot name => do
    let array ← requireVariable slot name
    let key ← pop
    let v ← pop
    let array ← onStore (·.putMember array key v)
    push array
    storeVariable slot array
    return .next
  | .assign slot _ => do
    let v ← pop
    storeVariable slot v
    push v
    return .next
  | .discardTop => do
    let _ ← pop
    return .next
  | .dup => do
    push (← top)
    return .next
  | .jump kind target => do
    if ← kind.taken then return .jump target else return .next
  | .loadIterator => do
    let array ← pop
    push (← onStore (·.iterate array))
    return .next
  | .nextIterator => do
    advance
    return .next
  | .returnTop => return .leave (← pop)
  | .print => do
    output (← textOf (← top))
    return .next
  | .call count => do
    let f ← pop
    check f.isFunction
    let args ← popN count
    callFunction f args
  | .binary op => do
    let right ← pop
    let left ← pop
    push (← op.evaluate left right)
    return .next
  | .unary op => do
    let v ← pop
    push (← ofExcept (op.evaluate v))
    return .next

/-- Whether a run goes on, or is over with a value. -/
inductive Progress where
  | running
  | done (result : Value)

namespace Machine

def goTo (pos : Nat) : Exec Unit :=
  modify fun m => { m with current := { m.current with pos := pos } }

/-- The running frame waits, and a new one runs. -/
def enter (frame : Frame) : Exec Unit :=
  modify fun m => { m with
    current := { frame := frame }
    callers := m.current :: m.callers }

/-- The running frame is over.  The frame that waits gets the value, which
must not be nothing; the program itself has none that waits. -/
def leave (v : Value) : Exec Progress := do
  let m ← get
  match m.callers with
  | [] => return .done v
  | caller :: rest =>
    match v with
    | .unset => throw .checkFailed
    | v =>
      set { m with current := caller, callers := rest }
      push v
      goTo (caller.pos + 1)
      return .running

/-- One step of the machine. -/
def step : Exec Progress := do
  modify fun m => { m with steps := m.steps + 1 }
  let current := (← get).current
  match current.frame.code.code[current.pos]? with
  | none => leave .unset
  | some i =>
    match ← i.exec with
    | .next => do
      goTo (current.pos + 1)
      return .running
    | .jump target => do
      goTo target
      return .running
    | .enter frame => do
      enter frame
      return .running
    | .leave v => leave v

end Machine

end PageScript
