/-
Abstract trees.

A `Node` is a statement or an expression of a script after its declarations
were resolved: variables know their slots, constants their places in the
pool, and functions the number of their scope.

Two kinds of node stand for what the grammar does not have: `absent` where a
part is missing, and `foreign` for a parse tree that no rule reads.  Neither
has a text or any code.
-/
import PageScript.Tree

namespace PageScript

/-- Binary operators that always evaluate both sides. -/
inductive Operator where
  | comma
  | concat
  | add
  | mul
  | mod
  | div
  | sub
  | eq
  | gt
  | ge
  | lt
  | le
  | ursh
  | rsh
  | lsh
  deriving DecidableEq, Repr, Inhabited

def Operator.name : Operator → String
  | .comma => "COMMA"
  | .concat => "CONCAT"
  | .add => "ADD"
  | .mul => "MUL"
  | .mod => "MOD"
  | .div => "DIV"
  | .sub => "SUB"
  | .eq => "EQ"
  | .gt => "GT"
  | .ge => "GE"
  | .lt => "LT"
  | .le => "LE"
  | .ursh => "URSH"
  | .rsh => "RSH"
  | .lsh => "LSH"

/-- A statement or an expression. -/
inductive Node where
  /-- The statements of a program or function, and the functions declared
  among them. -/
  | sourceElements (functions nodes : List Node)
  | program (body : Node) (scope : Nat)
  | exprStatement (expr : Node)
  | function (name : String) (body : Node) (scope : Nat)
  | call (callee arguments : Node)
  | identifier (name : String)
  | namedConstant (name : String)
  | argumentList (nodes : List Node)
  | array (nodes : List Node)
  | global (nodes : List Node)
  | member (base index : Node)
  | constantInt (value : Int) (place : Nat)
  | constantFloat (value : Float) (place : Nat)
  | constantText (text : String) (place : Nat)
  /-- A text with the expressions that fill its gaps. -/
  | interpolation (text : String) (parts : List Node) (place : Nat)
  | boolean (value : Bool)
  | null
  | variable (name : String) (slot : Int)
  /-- The right side of `++` and `--`. -/
  | empty
  /-- A part of a `for` header that was left out. -/
  | emptyExpression
  | assignment (name : String) (slot : Int) (right : Node) (operator : String) (post : Bool)
  | memberAssignment (base index right : Node) (operator : String) (post : Bool)
  | breakLoop (count : Node)
  | continueLoop (count : Node)
  | ifElse (condition thenBranch elseBranch : Node)
  | whileLoop (condition body : Node)
  | forLoop (setup condition update body : Node)
  | foreachLoop (subject key value body : Node)
  | print (expr : Node)
  | returnValue (expr : Node)
  | block (nodes : List Node)
  | binary (op : Operator) (left right : Node)
  | not (expr : Node)
  | both (left right : Node)
  | either (left right : Node)
  | absent
  | foreign (tree : Tree)
  deriving Inhabited

namespace Node

def isReturn : Node → Bool
  | .returnValue _ => true
  | _ => false

def literal? : Node → Option String
  | .identifier name => some name
  | .variable name _ => some name
  | _ => none

def nodes? : Node → Option (List Node)
  | .sourceElements _ nodes => some nodes
  | .argumentList nodes => some nodes
  | .array nodes => some nodes
  | .global nodes => some nodes
  | .block nodes => some nodes
  | _ => none

def scope? : Node → Option Nat
  | .program _ scope => some scope
  | .function _ _ scope => some scope
  | _ => none

def body? : Node → Option Node
  | .program body _ => some body
  | .function _ body _ => some body
  | .whileLoop _ body => some body
  | .forLoop _ _ _ body => some body
  | .foreachLoop _ _ _ body => some body
  | _ => none

end Node

end PageScript
