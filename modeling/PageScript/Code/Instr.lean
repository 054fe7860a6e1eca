/-
Instructions of the stack machine.

`Instr L B` has `L` for the targets of jumps and `B` for the code of
declared functions.  While code is put together, targets are labels and a
`LABEL` may stand anywhere (`Item`); afterwards targets are positions.
-/
import PageScript.Node

namespace PageScript

/-- When a jump is taken, and what it does to the operand stack. -/
inductive Jump where
  /-- Always; the stack stays as it is. -/
  | always
  /-- If the value taken off the stack is not true. -/
  | ifFalse
  /-- If the top is not true; it is taken off only if there is no jump. -/
  | ifFalseKeep
  /-- If the top is true; it is taken off only if there is no jump. -/
  | ifTrueKeep
  /-- If the iteration below the top is at its end; it is then taken off. -/
  | ifIteratorEmpty
  deriving DecidableEq, Repr, Inhabited

/-- Operations on the one value at the top of the stack. -/
inductive UnaryOperator where
  | not
  | incr
  | decr
  deriving DecidableEq, Repr, Inhabited

/-- An instruction, with labels from `L` and code of functions from `B`. -/
inductive Instr (L B : Type) where
  | loadNamedConstant (name : String)
  | loadVar (slot : Int) (name : String)
  | loadRef (slot : Int) (name : String)
  | loadFunction (name : String)
  | declareFunction (name : String) (code : B)
  | loadNull
  | loadBoolean (value : Bool)
  | stringSubstitution (count : Int)
  | loadArray (count : Int)
  | loadConstant (place : Int)
  | loadMember
  | loadMemberVar (slot : Int) (name : String)
  | storeMember
  | storeMemberVar (slot : Int) (name : String)
  | assign (slot : Int) (name : String)
  | discardTop
  | dup
  | jump (kind : Jump) (target : L)
  | loadIterator
  | nextIterator
  | returnTop
  | print
  | call (count : Int)
  | binary (op : Operator)
  | unary (op : UnaryOperator)
  deriving Inhabited

def Jump.name : Jump → String
  | .always => "JUMP"
  | .ifFalse => "JUMP_IF_FALSE"
  | .ifFalseKeep => "JUMP_IF_FALSE_NOPOP"
  | .ifTrueKeep => "JUMP_IF_TRUE_NOPOP"
  | .ifIteratorEmpty => "JUMP_IF_ITERATOR_EMPTY"

def Jump.stackChange : Jump → Int
  | .always => 0
  | .ifIteratorEmpty => 0
  | _ => -1

def UnaryOperator.name : UnaryOperator → String
  | .not => "NOT"
  | .incr => "INCR"
  | .decr => "DECR"

/-- By how much an operator changes the depth of the stack. The comma counts
as an operation on one value. -/
def Operator.stackChange : Operator → Int
  | .comma => 0
  | _ => -1

namespace Instr

variable {L B : Type}

/-- By how much an instruction is taken to change the depth of the stack. -/
def stackChange : Instr L B → Int
  | .loadNamedConstant _ => 1
  | .loadVar _ _ => 1
  | .loadRef _ _ => 1
  | .loadFunction _ => 1
  | .declareFunction _ _ => 0
  | .loadNull => 1
  | .loadBoolean _ => 1
  | .stringSubstitution count => -count
  | .loadArray count => 1 - count
  | .loadConstant _ => 1
  | .loadMember => -1
  | .loadMemberVar _ _ => 0
  | .storeMember => -2
  | .storeMemberVar _ _ => -1
  | .assign _ _ => 0
  | .discardTop => -1
  | .dup => 1
  | .jump kind _ => kind.stackChange
  | .loadIterator => 0
  | .nextIterator => 2
  | .returnTop => -1
  | .print => 0
  | .call count => -count
  | .binary op => op.stackChange
  | .unary _ => 0

def slotText (word : String) (slot : Int) (name : String) : String :=
  word ++ " " ++ toString slot ++ ", " ++ name

def text [ToString L] : Instr L B → String
  | .loadNamedConstant name => "LOAD_NAMED_CONSTANT " ++ name
  | .loadVar slot name => slotText "LOAD_VAR" slot name
  | .loadRef slot name => slotText "LOAD_REF" slot name
  | .loadFunction name => "LOAD_FUNCTION " ++ name
  | .declareFunction name _ => "DECLARE_FUNCTION " ++ name
  | .loadNull => "LOAD_NULL"
  | .loadBoolean value => if value then "LOAD_BOOLEAN True" else "LOAD_BOOLEAN False"
  | .stringSubstitution count => "STRING_SUBSTITUTION " ++ toString count
  | .loadArray count => "LOAD_ARRAY " ++ toString count
  | .loadConstant place => "LOAD_CONSTANT " ++ toString place
  | .loadMember => "LOAD_MEMBER"
  | .loadMemberVar slot name => slotText "LOAD_MEMBER_VAR" slot name
  | .storeMember => "STORE_MEMBER"
  | .storeMemberVar slot name => slotText "STORE_MEMBER_VAR" slot name
  | .assign slot name => slotText "ASSIGN" slot name
  | .discardTop => "DISCARD_TOP"
  | .dup => "DUP"
  | .jump kind target => kind.name ++ " " ++ toString target
  | .loadIterator => "LOAD_ITERATOR"
  | .nextIterator => "NEXT_ITERATOR"
  | .returnTop => "RETURN"
  | .print => "PRINT"
  | .call _ => "CALL"
  | .binary op => op.name
  | .unary op => op.name

def isReturn : Instr L B → Bool
  | .returnTop => true
  | _ => false

/-- The same instruction with another kind of target; it fails where there is
none. -/
def retarget {M : Type} (f : L → Except Fault M) : Instr L B → Except Fault (Instr M B)
  | .loadNamedConstant name => .ok (.loadNamedConstant name)
  | .loadVar slot name => .ok (.loadVar slot name)
  | .loadRef slot name => .ok (.loadRef slot name)
  | .loadFunction name => .ok (.loadFunction name)
  | .declareFunction name code => .ok (.declareFunction name code)
  | .loadNull => .ok .loadNull
  | .loadBoolean value => .ok (.loadBoolean value)
  | .stringSubstitution count => .ok (.stringSubstitution count)
  | .loadArray count => .ok (.loadArray count)
  | .loadConstant place => .ok (.loadConstant place)
  | .loadMember => .ok .loadMember
  | .loadMemberVar slot name => .ok (.loadMemberVar slot name)
  | .storeMember => .ok .storeMember
  | .storeMemberVar slot name => .ok (.storeMemberVar slot name)
  | .assign slot name => .ok (.assign slot name)
  | .discardTop => .ok .discardTop
  | .dup => .ok .dup
  | .jump kind target => (f target).map (.jump kind)
  | .loadIterator => .ok .loadIterator
  | .nextIterator => .ok .nextIterator
  | .returnTop => .ok .returnTop
  | .print => .ok .print
  | .call count => .ok (.call count)
  | .binary op => .ok (.binary op)
  | .unary op => .ok (.unary op)

end Instr

end PageScript
