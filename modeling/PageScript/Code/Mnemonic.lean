/-
Instructions by name.

`Item.ofMnemonic` makes an instruction or a label from the name it has in
listings and its arguments.  A name that no instruction has and a wrong
number of arguments are different faults.
-/
import PageScript.Code.Bytecode

namespace PageScript

/-- An argument of an instruction, as it is written. -/
inductive Argument where
  | nothing
  | truth (b : Bool)
  | number (n : Int)
  | text (t : String)
  | code (b : Bytecode)

namespace Argument

def isTrue : Argument → Bool
  | .nothing => false
  | .truth b => b
  | .number n => n ≠ 0
  | .text t => !t.isEmpty
  | .code _ => true

def number? : Argument → Option Int
  | .truth b => some (if b then 1 else 0)
  | .number n => some n
  | _ => none

def name? : Argument → Option String
  | .text t => some t
  | .number n => some (toString n)
  | _ => none

end Argument

namespace Item

def operators : List Operator :=
  [.comma, .concat, .add, .sub, .mul, .div, .mod, .eq, .gt, .ge, .lt, .le, .ursh, .rsh, .lsh]

def jumps : List Jump := [.always, .ifFalse, .ifFalseKeep, .ifTrueKeep, .ifIteratorEmpty]

def unaryOperators : List UnaryOperator := [.not, .incr, .decr]

def plainInstrs : List (Instr Int Bytecode) :=
  [.loadNull, .loadMember, .storeMember, .discardTop, .dup, .loadIterator, .nextIterator,
    .returnTop, .print] ++ operators.map .binary ++ unaryOperators.map .unary

def withSlot (make : Int → String → Instr Int Bytecode) : List Argument → Except Fault Item
  | [slot, name] =>
    match slot.number?, name.name? with
    | some slot, some name => .ok (.instr (make slot name))
    | _, _ => .error .wrongArguments
  | _ => .error .wrongArguments

def withNumber (make : Int → Item) : List Argument → Except Fault Item
  | [n] =>
    match n.number? with
    | some n => .ok (make n)
    | none => .error .wrongArguments
  | _ => .error .wrongArguments

def withName (make : String → Instr Int Bytecode) : List Argument → Except Fault Item
  | [name] =>
    match name.name? with
    | some name => .ok (.instr (make name))
    | none => .error .wrongArguments
  | _ => .error .wrongArguments

def declaration : List Argument → Except Fault Item
  | [name, .code b] =>
    match name.name? with
    | some name => .ok (.instr (.declareFunction name b))
    | none => .error .wrongArguments
  | _ => .error .wrongArguments

def otherInstr (name : String) (args : List Argument) : Except Fault Item :=
  match plainInstrs.find? fun i => i.text == name, jumps.find? fun j => j.name == name with
  | some i, _ => if args.isEmpty then .ok (.instr i) else .error .wrongArguments
  | none, some j => withNumber (fun n => .instr (.jump j n)) args
  | none, none => .error .noOperation

def ofMnemonic (name : String) (args : List Argument) : Except Fault Item :=
  match name with
  | "LOAD_NAMED_CONSTANT" => withName .loadNamedConstant args
  | "LOAD_VAR" => withSlot .loadVar args
  | "LOAD_REF" => withSlot .loadRef args
  | "LOAD_FUNCTION" => withName .loadFunction args
  | "DECLARE_FUNCTION" => declaration args
  | "LOAD_BOOLEAN" =>
    match args with
    | [v] => .ok (.instr (.loadBoolean v.isTrue))
    | _ => .error .wrongArguments
  | "STRING_SUBSTITUTION" => withNumber (fun n => .instr (.stringSubstitution n)) args
  | "LOAD_ARRAY" => withNumber (fun n => .instr (.loadArray n)) args
  | "LOAD_CONSTANT" => withNumber (fun n => .instr (.loadConstant n)) args
  | "LOAD_MEMBER_VAR" => withSlot .loadMemberVar args
  | "STORE_MEMBER_VAR" => withSlot .storeMemberVar args
  | "ASSIGN" => withSlot .assign args
  | "LABEL" => withNumber .label args
  | "CALL" => withNumber (fun n => .instr (.call n)) args
  | name => otherInstr name args

end Item

end PageScript
