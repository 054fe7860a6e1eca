/-
One instruction alone.

An instruction can be evaluated by itself on a frame.  A function that it
calls runs to its end.  Besides instructions, this also covers what only
stands for a family of them: labels, and the kinds that instructions are
grouped into, most of which cannot be evaluated.
-/
import PageScript.Machine.Run
import PageScript.Code.Mnemonic

namespace PageScript

inductive Family where
  | any
  | jump
  | decision
  | arithmetic
  | unary
  | bitwise
  deriving DecidableEq, Repr

def Family.name : Family → String
  | .any => "Opcode"
  | .jump => "BaseJump"
  | .decision => "BaseDecision"
  | .arithmetic => "BaseMathOperation"
  | .unary => "BaseUnaryOperation"
  | .bitwise => "BaseBinaryBitwiseOp"

/-- By how much a kind is taken to change the depth of the stack. -/
def Family.stackChange : Family → Int
  | .any => 1
  | .unary => 0
  | _ => -1

def Family.all : List Family := [.any, .jump, .decision, .arithmetic, .unary, .bitwise]

def Family.arity : Family → Nat
  | .jump => 1
  | _ => 0

inductive Lone where
  | item (i : Item)
  | family (f : Family)

/-- What came of an evaluation: what was returned, where a jump goes, and
what went wrong. A jump returns nothing before it is decided. -/
structure Evaluation where
  returned : Option Value := none
  target : Option Int := none
  fault : Option Fault := none
  machine : Machine

namespace Lone

def ofMnemonic (name : String) (args : List Argument) : Except Fault Lone :=
  match Family.all.find? fun f => f.name == name with
  | some f => if args.length = f.arity then .ok (.family f) else .error .wrongArguments
  | none => do return .item (← Item.ofMnemonic name args)

def text : Lone → String
  | .item i => i.text
  | .family f => f.name

def stackChange : Lone → Int
  | .item i => i.stackChange
  | .family f => f.stackChange

/-- Runs until no frame waits for a call any more. -/
def finishCalls : Nat → Machine → Except Fault Unit × Machine
  | 0, m => (.error .interrupted, m)
  | fuel + 1, m =>
    if m.callers.isEmpty then (.ok (), m)
    else match Machine.step.run m with
      | .ok _ m => finishCalls fuel m
      | .error fault m => (.error fault, m)

def evaluateInstr (fuel : Nat) (pos : Int) (m : Machine) (i : Instr Int Bytecode) : Evaluation :=
  match i with
  | .jump kind target =>
    match kind.taken.run m with
    | .ok taken m =>
      { returned := some .unset, target := some (if taken then target else pos + 1), machine := m }
    | .error fault m => { returned := some .unset, fault := some fault, machine := m }
  | i =>
    match i.exec.run m with
    | .error fault m => { fault := some fault, machine := m }
    | .ok (.leave v) m => { returned := some v, machine := m }
    | .ok (.enter frame) m =>
      match finishCalls fuel { m with current := { frame := frame }, callers := [m.current] } with
      | (.ok (), m) => { returned := some .unset, machine := m }
      | (.error fault, m) => { fault := some fault, machine := m }
    | .ok _ m => { returned := some .unset, machine := m }

/-- Evaluates a kind of instructions: a jump without a condition cannot be
decided, a decision fails once it has its operands, and all the others do
nothing. -/
def evaluateFamily (m : Machine) : Family → Evaluation
  | .jump => { returned := some .unset, fault := some .noOperation, machine := m }
  | .decision =>
    match (do let _ ← Exec.pop; let _ ← Exec.pop; throw (.notImplemented "") :
        Exec Unit).run m with
    | .ok () m => { machine := m }
    | .error fault m => { fault := some fault, machine := m }
  | f => { fault := some (.notImplemented (f.name ++ ".eval")), machine := m }

def evaluate (fuel : Nat) (pos : Int) (m : Machine) : Lone → Evaluation
  | .item (.instr i) => evaluateInstr fuel pos m i
  | .item (.label _) => { fault := some (.notImplemented "LABEL.eval"), machine := m }
  | .family f => evaluateFamily m f

end Lone

end PageScript
