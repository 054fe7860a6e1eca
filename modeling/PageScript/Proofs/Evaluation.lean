/-
The meaning of nodes.

`Node.eval` evaluates a node by recursion on the tree, with fuel for loops and calls.

* A call evaluates its arguments, then what is called; a variable among the arguments
  stands for a reference to it.
* An element evaluates its index, then the array.
* The value of a block is that of its last statement, and that of a `for` or `foreach`
  loop that of the last round; a `while` loop has none.
* An assignment has the value assigned, or the old one for `++` and `--` after their
  operand.  Storing an element has the array for its value.
-/
import PageScript.Proofs.Instructions
import PageScript.Proofs.Tidy

open EStateM (Result)

namespace PageScript

open Exec

/-- Why an evaluation stopped. -/
inductive Halt where
  | fault (f : Fault)
  | outOfFuel

/-- Evaluation without a stack. -/
abbrev Eval := EStateM Halt Situation

namespace Eval

/-- Does what an action of the machine does to the situation. -/
def act {α : Type} (a : Exec α) : Eval α := fun S =>
  match a.seen S with
  | .ok r T => .ok r T
  | .error f T => .error (.fault f) T

theorem run_act {α : Type} (a : Exec α) (S : Situation) :
    (act a).run S = match a.seen S with
      | .ok r T => .ok r T
      | .error f T => .error (.fault f) T := rfl

theorem act_bind {α β : Type} {a : Exec α} (ha : Blind a) (f : α → Exec β) :
    act (a >>= f) = act a >>= fun r => act (f r) := by
  funext S
  show (act (a >>= f)).run S = (act a >>= fun r => act (f r)).run S
  rw [EStateM.run_bind, run_act, run_act, ha.seen_bind]
  cases a.seen S <;> rfl

theorem run_act_fromStore {α : Type} (f : Store → Except Fault α) (S : Situation) :
    (act (fromStore f)).run S = match f S.world.store with
      | .ok r => .ok r S
      | .error e => .error (.fault e) S := by
  rw [run_act, seen, run_fromStore]
  cases f S.world.store <;> rfl

def truth (v : Value) : Eval Bool := act (ofExcept v.isTrue)

/-- A machine that is about to run a frame with nothing below it. -/
def callee (S : Situation) (frame : Frame) : Machine :=
  ⟨S.world, S.interpreter, { frame := frame }, [], 0, false⟩

def resumed (S : Situation) (m : Machine) : Situation :=
  { S with world := m.world, interpreter := m.interpreter }

/-- What the run of a function means for its caller; it has to return
something. -/
def returned (S : Situation) : Ending × Machine → Result Halt Situation Value
  | (.finished .unset, m) => .error (.fault .checkFailed) (resumed S m)
  | (.finished v, m) => .ok v (resumed S m)
  | (.failed f, m) => .error (.fault f) (resumed S m)
  | (.outOfFuel, _) => .error .outOfFuel S

theorem returned_finished {S : Situation} {v : Value} {m : Machine} (hv : v ≠ .unset) :
    returned S (.finished v, m) = .ok v (resumed S m) := by
  cases v with
  | unset => exact absurd rfl hv
  | _ => rfl

def runFrame (fuel : Nat) (frame : Frame) : Eval Value := fun S =>
  returned S ((callee S frame).run fuel)

def invoke (fuel : Nat) (f : Value) (args : List Value) : Eval Value :=
  match f with
  | .native g => act (g.call args)
  | .code id => do
    let frame ← act (enterFunction ((← get).world.store.code id) args)
    runFrame fuel frame
  | f => throw (.fault f.uncallable)

/-- Makes rounds until one answers nothing; the result is the answer before.
There are fewer rounds than `fuel`. -/
def rounds (round : Value → Eval (Option Value)) : Nat → Value → Eval Value
  | 0, _ => throw .outOfFuel
  | fuel + 1, last => do
    match ← round last with
    | some v => rounds round fuel v
    | none => return last

/-- Gives a variable of a `foreach` header its value. -/
def bindTarget (target : Node) (v : Value) : Eval Unit :=
  match target with
  | .variable _ slot => act (storeVariable slot v)
  | _ => return ()

def update (operator : String) (old : Value) (right : Eval Value) : Eval Value :=
  match operator with
  | "+=" => do act (Operator.add.evaluate old (← right))
  | "-=" => do act (Operator.sub.evaluate old (← right))
  | ".=" => do act (Operator.concat.evaluate old (← right))
  | "++" => act (ofExcept (UnaryOperator.incr.evaluate old))
  | "--" => act (ofExcept (UnaryOperator.decr.evaluate old))
  | _ => throw (.fault .checkFailed)

/-- Stores an element: the array, if it is in a variable, goes back there. -/
def storeElement (base : Node) (array : Eval Value) (key v : Value) : Eval Value :=
  match base with
  | .variable _ slot => do
    let array ← array
    let array ← act (onStore (·.putMember array key v))
    act (storeVariable slot array)
    return array
  | _ => do
    let array ← array
    act (onStore (·.putMember array key v))

end Eval

namespace Node

open Eval

mutual

def eval (fuel : Nat) : Node → Eval Value
  | .exprStatement expr => eval fuel expr
  | .call callee (.argumentList nodes) => do
    let args ← evalArguments fuel nodes
    let f ← eval fuel callee
    invoke fuel f args
  | .identifier name => act do
    match (← get).interpreter.functions.get? name with
    | some f => return f
    | none => throw (.complaint (.undefinedFunction name))
  | .namedConstant name => act do
    match (← get).world.constants.get? name with
    | some v => return v
    | none => throw (.complaint (.undefinedConstant name))
  | .array nodes => do act (newList (← evalAll fuel nodes))
  | .member base index => do
    let key ← eval fuel index
    let array ← eval fuel base
    act (fromStore (·.getMember array key))
  | .constantInt _ place => act (constantAt place)
  | .constantFloat _ place => act (constantAt place)
  | .constantText _ place => act (constantAt place)
  | .interpolation _ parts place => do
    let fillers ← evalAll fuel parts
    let template ← act (constantAt place)
    act (fromStore (·.substitute template fillers))
  | .boolean value => return .bool value
  | .null => return .null
  | .variable name slot => act (requireVariable slot name)
  | .emptyExpression => return .null
  | .assignment name slot right operator post =>
    if operator = "=" then do
      let v ← eval fuel right
      act (storeVariable slot v)
      return v
    else do
      let old ← act (requireVariable slot name)
      let v ← update operator old (eval fuel right)
      act (storeVariable slot v)
      return if post then old else v
  | .memberAssignment base index right operator post =>
    if operator = "=" then do
      let v ← eval fuel right
      let key ← eval fuel index
      storeElement base (eval fuel base) key v
    else do
      let key ← eval fuel index
      let array ← eval fuel base
      let old ← act (fromStore (·.getMember array key))
      let v ← update operator old (eval fuel right)
      -- The index and the array are evaluated once more to store.
      let key ← eval fuel index
      let array ← storeElement base (eval fuel base) key v
      return if post then old else array
  | .ifElse condition thenBranch elseBranch => do
    if ← truth (← eval fuel condition) then eval fuel thenBranch
    else match elseBranch with
      | .absent => return .null
      | elseBranch => eval fuel elseBranch
  | .whileLoop condition body =>
    rounds (fun last => do
      if ← truth (← eval fuel condition) then
        let _ ← eval fuel body
        return some last
      else return none) fuel .null
  | .forLoop setup condition update body => do
    let _ ← eval fuel setup
    rounds (fun _ => do
      if ← truth (← eval fuel condition) then
        let v ← eval fuel body
        let _ ← eval fuel update
        return some v
      else return none) fuel .null
  | .foreachLoop subject key value body => do
    let array ← eval fuel subject
    let iteration ← act (onStore (·.iterate array))
    rounds (fun _ => do
      if ← act (fromStore (·.finished iteration)) then return none
      else
        let (element, word) ← act (fetch iteration)
        bindTarget key word
        bindTarget value element
        return some (← eval fuel body)) fuel .null
  | .print expr => do
    let v ← eval fuel expr
    act do output (← textOf v)
    return v
  | .block nodes => evalBlock fuel nodes
  | .binary op left right => do
    let v ← eval fuel left
    let w ← eval fuel right
    act (op.evaluate v w)
  | .not expr => do
    let v ← eval fuel expr
    act (ofExcept (UnaryOperator.not.evaluate v))
  | .both left right => do
    let v ← eval fuel left
    if ← truth v then eval fuel right else return v
  | .either left right => do
    let v ← eval fuel left
    if ← truth v then return v else eval fuel right
  | _ => throw (.fault .noOperation)

def evalAll (fuel : Nat) : List Node → Eval (List Value)
  | [] => return []
  | node :: nodes => do
    let v ← eval fuel node
    return v :: (← evalAll fuel nodes)

/-- What arguments stand for: a variable for a reference to it. -/
def evalArguments (fuel : Nat) : List Node → Eval (List Value)
  | [] => return []
  | .variable _ slot :: nodes => do
    let r ← act (getReference slot)
    return r :: (← evalArguments fuel nodes)
  | node :: nodes => do
    let v ← eval fuel node
    return v :: (← evalArguments fuel nodes)

/-- The value of the last of some statements. -/
def evalBlock (fuel : Nat) : List Node → Eval Value
  | [] => return .null
  | [node] => eval fuel node
  | node :: nodes => do
    let _ ← eval fuel node
    evalBlock fuel nodes

end

end Node

end PageScript
