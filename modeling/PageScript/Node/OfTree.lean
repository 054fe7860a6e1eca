/-
From parse trees to abstract trees.

Each symbol of the grammar has a rule that reads its children and builds a
node; a tree with any other symbol is left as it is.  Reading declares:
scopes are opened, symbols get slots, constants get places, functions are
collected with the list of statements they stand in.

A rule reads its children in the order it needs them, some more often than
others, and looks at grandchildren where the grammar nests.  So each subtree
is first paired with the action that reads it (`Part`); the recursion over
the tree builds these pairs and nothing else, and every rule is a plain
function of the parts below it.
-/
import PageScript.Node
import PageScript.Scope
import PageScript.Double.Parts
import PageScript.Decimal.Reading
import PageScript.Literal.Quote
import PageScript.Literal.Escape

namespace PageScript

/-- What has been declared so far. -/
structure Declarations where
  /-- Every scope opened so far, by number. -/
  scopes : Array Scope := #[]
  opened : List Nat := []
  /-- The functions declared in each enclosing list of statements, innermost
  first. -/
  functions : List (List Node) := []
  deriving Inhabited

/-- Actions that read trees. -/
abbrev Reading := EStateM Fault Declarations

/-- A subtree with the action that reads it. -/
inductive Part where
  | mk (tree : Tree) (read : Reading Node) (children : List Part)

namespace Part

def tree : Part → Tree
  | .mk tree _ _ => tree

def read : Part → Reading Node
  | .mk _ read _ => read

def children : Part → List Part
  | .mk _ _ children => children

def text (p : Part) : String := p.tree.text

end Part

namespace Reading

def child (parts : List Part) (i : Nat) : Reading Part :=
  match parts[i]? with
  | some p => return p
  | none => throw .outOfRange

/-- Reads a child by its number. -/
def readChild (parts : List Part) (i : Nat) : Reading Node := do
  (← child parts i).read

def readAll : List Part → Reading (List Node)
  | [] => return []
  | p :: ps => do
    let node ← p.read
    return node :: (← readAll ps)

def literal (node : Node) : Reading String :=
  match node.literal? with
  | some name => return name
  | none => throw .noOperation

/-- Opens a scope. -/
def enterScope : Reading Unit :=
  modify fun d => { d with scopes := d.scopes.push {}, opened := d.scopes.size :: d.opened }

def currentScope : Reading Nat := do
  match (← get).opened with
  | scope :: _ => return scope
  | [] => throw .outOfRange

/-- Closes the innermost scope. -/
def exitScope : Reading Unit :=
  modify fun d => { d with opened := d.opened.drop 1 }

def declare {α : Type} (f : Scope → α × Scope) : Reading α := do
  let id ← currentScope
  let d ← get
  let (result, scope) := f (d.scopes.getD id {})
  set { d with scopes := d.scopes.setIfInBounds id scope }
  return result

/-- A variable, declared in the scope. -/
def readVariable (name : String) : Reading Node := do
  return .variable name (← declare (·.addVariable name))

def constantText (text : String) : Reading Node := do
  return .constantText text (← declare (·.addText text))

/-- The program: a new scope and the statements in it.  The scope stays
open. -/
def readMain (parts : List Part) : Reading Node := do
  enterScope
  let body ← readChild parts 0
  return .program body (← currentScope)

/-- Declares variables global. -/
def declareGlobals : List Node → Reading Unit
  | [] => return ()
  | node :: nodes => do
    let name ← literal node
    let _ ← declare (·.addGlobal name)
    declareGlobals nodes

/-- Reads statements.  Function declarations leave no statement, and neither
do `global` statements, whose names are declared. -/
def readStatements : List Part → Reading (List Node)
  | [] => return []
  | p :: ps => do
    match ← p.read with
    | .absent => readStatements ps
    | .global nodes => do
      declareGlobals nodes
      readStatements ps
    | node => return node :: (← readStatements ps)

/-- A list of statements together with the functions declared in it. -/
def readSourceElements (parts : List Part) : Reading Node := do
  modify fun d => { d with functions := [] :: d.functions }
  let nodes ← readStatements parts
  let functions := (← get).functions.headD []
  modify fun d => { d with functions := d.functions.drop 1 }
  return .sourceElements functions nodes

/-- The signs that stand for a part left out. -/
def fillers : List String := [";", ")", "(", "\x7d"]

/-- Reads the part at a place and steps over the sign after it; a sign in its
place means that the part is missing. -/
def nextExpr (parts : List Part) (i : Nat) : Reading (Node × Nat) := do
  let p ← child parts i
  if p.tree.isLeaf && fillers.contains p.text then return (.absent, i + 1)
  else return (← p.read, i + 2)

/-- A function in a list of functions: it takes the place of one with the
same name. -/
def insertFunction (name : String) (f : Node) : List Node → List Node
  | [] => [f]
  | g :: gs =>
    match g with
    | .function other _ _ => if other = name then f :: gs else g :: insertFunction name f gs
    | _ => g :: insertFunction name f gs

/-- A function declaration: its scope, name, parameters and body.  It is
kept with the enclosing list of statements and leaves nothing in its
place. -/
def readFunction (parts : List Part) : Reading Node := do
  enterScope
  let (identifier, i) ← nextExpr parts 0
  let (_, i) ← nextExpr parts i
  let (body, _) ← nextExpr parts i
  let scope ← currentScope
  exitScope
  let name ← literal identifier
  let body := match body with
    | .absent => .returnValue .absent
    | body => body
  let d ← get
  match d.functions with
  | [] => throw .outOfRange
  | innermost :: outer =>
    set { d with functions := insertFunction name (.function name body scope) innermost :: outer }
    return .absent

/-- The parameters of a function, each by value unless marked with `&`. -/
def readParameters : List Part → Reading Unit
  | [] => return ()
  | p :: ps => do
    let first ← child p.children 0
    let byReference := first.text == "&"
    let variable_ ← readChild p.children (if byReference then 1 else 0)
    let name ← literal variable_
    let _ ← declare (·.addParameter name (!byReference))
    readParameters ps

/-- Builds a binary expression from the spelling of its operator. -/
def binary? (op : String) (left right : Node) : Option Node :=
  match op with
  | "+" => some (.binary .add left right)
  | "-" => some (.binary .sub left right)
  | "*" => some (.binary .mul left right)
  | "/" => some (.binary .div left right)
  | "%" => some (.binary .mod left right)
  | ">" => some (.binary .gt left right)
  | ">=" => some (.binary .ge left right)
  | "<" => some (.binary .lt left right)
  | "<=" => some (.binary .le left right)
  | "." => some (.binary .concat left right)
  | "&&" => some (.both left right)
  | "||" => some (.either left right)
  | "==" => some (.binary .eq left right)
  | ">>" => some (.binary .rsh left right)
  | ">>>" => some (.binary .ursh left right)
  | "<<" => some (.binary .lsh left right)
  | "[" => some (.member left right)
  | "," => some (.binary .comma left right)
  | _ => none

/-- Operators and operands in turn, grouped to the left. -/
def readOperands (left : Node) : List Part → Reading Node
  | op :: operand :: rest => do
    let right ← operand.read
    match binary? op.text left right with
    | some node => readOperands node rest
    | none => throw .missingEntry
  | _ => return left

def readBinary (parts : List Part) : Reading Node := do
  let left ← readChild parts 0
  readOperands left (parts.drop 1)

/-- An assignment to a variable or an element. -/
def assign (left right : Node) (operator : String) (post : Bool) : Reading Node :=
  let right := match right with
    | .absent => .empty
    | right => right
  match left with
  | .variable name slot => return .assignment name slot right operator post
  | .member base index => return .memberAssignment base index right operator post
  | _ => throw (.complaint .notAssignable)

def readUnary (parts : List Part) : Reading Node := do
  let op ← child parts 0
  let operand ← readChild parts 1
  if op.text = "++" ∨ op.text = "--" then assign operand .absent op.text false
  else if op.text = "!" then return .not operand
  else throw .missingEntry

def readPostfix (parts : List Part) : Reading Node := do
  let op ← child parts 1
  let operand ← readChild parts 0
  assign operand .absent op.text true

def readAssignment (parts : List Part) : Reading Node := do
  let left ← readChild parts 0
  let op ← child parts 1
  let right ← readChild parts 2
  assign left right op.text false

/-- A truth value, or null for any other word. -/
def readLiteral (parts : List Part) : Reading Node := do
  let word ← child parts 0
  if word.text = "true" then return .boolean true
  else if word.text = "false" then return .boolean false
  else return .null

/-- The integer that a real number is: it has no fraction and fits into 64
bits.  A fraction is reported as `none`. -/
def wholeNumber? (x : Float) : Except Fault (Option Int) := do
  let n ← Double.truncate x
  if !inWordRange n then throw .tooLarge
  else return if Double.isIntegral x then some n else none

/-- A numeral.  All its parts together are read as a real number, which is
an integer if it is whole and fits into 64 bits.  If it cannot be read or is
out of range, the last part alone is read as a real number. -/
def readNumber (own : String) (parts : List Part) : Reading Node := do
  let all := String.join (parts.map Part.text)
  let last := (parts.getLast?.map Part.text).getD own
  match (Decimal.readFloat? all).map fun x => (x, wholeNumber? x) with
  | some (_, .ok (some n)) => return .constantInt n (← declare (·.addInt n))
  | some (x, .ok none) => return .constantFloat x (← declare (·.addFloat x))
  | _ =>
    match Decimal.readFloat? last with
    | some x => return .constantFloat x (← declare (·.addFloat x))
    | none => throw .malformedNumber

/-- The pieces of a text in double quotes, in turn: texts are kept, empty
ones only at the start, and variables leave a gap. -/
def readPieces (done : List (Option String)) (filled : List Node) :
    List (List Char) → Reading (List (Option String) × List Node)
  | [] => return (done, filled)
  | piece :: pieces => do
    if piece.isEmpty && !done.isEmpty then readPieces done filled pieces
    else if piece.head? = some '$' then
      match Literal.variableName? piece with
      | some name => do
        let part ← readVariable (String.ofList name)
        readPieces (done ++ [none]) (filled ++ [part]) pieces
      | none => throw .unreadable
    else readPieces (done ++ [some (String.ofList piece)]) filled pieces

/-- A text literal.  In double quotes its variables become gaps. -/
def readText (literal : String) : Reading Node := do
  let (quoted, quoting) ← ofExcept (Literal.unquote literal.toList)
  let cs ← ofExcept (Literal.unescape quoted)
  let text := String.ofList cs
  match quoting with
  | .single => constantText text
  | .double => do
    let (pieces, parts) ← readPieces [] [] (Literal.splitVariables cs)
    if parts.isEmpty then constantText text
    else return .interpolation text parts (← declare (·.addTemplate pieces))

/-- Calls, one after another, of what the first part gives. -/
def readCalls (callee : Node) : List Part → Reading Node
  | [] => return callee
  | p :: ps => do
    if p.tree.isLeaf then throw (.notImplemented "Not implemented")
    else
      let arguments ← p.read
      readCalls (.call callee arguments) ps

def readCall (parts : List Part) : Reading Node := do
  let callee ← readChild parts 0
  readCalls callee (parts.drop 1)

def readGlobal (parts : List Part) : Reading Node := do
  let names ← child parts 1
  return .global (← readAll names.children)

def readNamedConstant (parts : List Part) : Reading Node := do
  return .namedConstant (← child parts 0).text

def readIf (parts : List Part) : Reading Node := do
  let condition ← readChild parts 0
  let thenBranch ← readChild parts 1
  let elseBranch ← if 2 < parts.length then readChild parts 2 else pure .absent
  return .ifElse condition thenBranch elseBranch

def readConditional (parts : List Part) : Reading Node := do
  let condition ← readChild parts 0
  let thenBranch ← readChild parts 2
  let elseBranch ← readChild parts 3
  return .ifElse condition thenBranch elseBranch

/-- A loop that starts with a word; only `while` is one. -/
def readWhile (parts : List Part) : Reading Node := do
  let word ← child parts 0
  if word.text = "while" then
    let condition ← readChild parts 1
    let body ← readChild parts 2
    return .whileLoop condition body
  else throw (.notImplemented ("Unknown while version " ++ word.text))

/-- A part of a `for` header that may be left out. -/
def orEmpty : Node → Node
  | .absent => .emptyExpression
  | node => node

/-- A condition of a `for` header: left out or null, it always holds. -/
def orTrue : Node → Node
  | .absent => .boolean true
  | .null => .boolean true
  | node => node

def readFor (parts : List Part) : Reading Node := do
  let (setup, i) ← nextExpr parts 1
  let (condition, i) ← nextExpr parts i
  let (update, i) ← nextExpr parts i
  let (body, _) ← nextExpr parts i
  return .forLoop (orEmpty setup) (orTrue condition) (orEmpty update) (orEmpty body)

def readForeach (parts : List Part) : Reading Node := do
  let subject ← readChild parts 1
  let value ← readChild parts 2
  let body ← readChild parts 3
  return .foreachLoop subject .absent value body

def readKeyForeach (parts : List Part) : Reading Node := do
  let subject ← readChild parts 1
  let key ← readChild parts 2
  let value ← readChild parts 3
  let body ← readChild parts 4
  return .foreachLoop subject key value body

def readFirst (parts : List Part) : Reading Node :=
  if parts.isEmpty then return .absent else readChild parts 0

/-- Reads a tree by the rule of its symbol. -/
def rule (tree : Tree) (parts : List Part) : Reading Node :=
  match tree.symbol with
  | "main" => readMain parts
  | "arguments" => return .argumentList (← readAll (parts.drop 1))
  | "sourceelements" => readSourceElements parts
  | "functiondeclaration" => readFunction parts
  | "formalparameterlist" => do
    readParameters parts
    return .absent
  | "logicalorexpression" => readBinary parts
  | "logicalandexpression" => readBinary parts
  | "stringjoinexpression" => readBinary parts
  | "relationalexpression" => readBinary parts
  | "equalityexpression" => readBinary parts
  | "additiveexpression" => readBinary parts
  | "multiplicativeexpression" => readBinary parts
  | "shiftexpression" => readBinary parts
  | "expression" => readBinary parts
  | "memberexpression" => readBinary parts
  | "unaryexpression" => readUnary parts
  | "nullliteral" => readLiteral parts
  | "booleanliteral" => readLiteral parts
  | "numericliteral" => readNumber tree.text parts
  | "expressionstatement" => return .exprStatement (← readChild parts 0)
  | "printstatement" => return .print (← readChild parts 1)
  | "globalstatement" => readGlobal parts
  | "constantexpression" => readNamedConstant parts
  | "callexpression" => readCall parts
  | "postfixexpression" => readPostfix parts
  | "arrayliteral" => return .array (← readAll (parts.drop 1))
  | "block" => return .block (← readAll (parts.drop 1))
  | "assignmentexpression" => readAssignment parts
  | "ifstatement" => readIf parts
  | "conditionalexpression" => readConditional parts
  | "iterationstatement" => readChild parts 0
  | "whiles" => readWhile parts
  | "regularfor" => readFor parts
  | "foreach" => readForeach parts
  | "keyforeach" => readKeyForeach parts
  | "breakstatement" => return .breakLoop (← readFirst parts)
  | "continuestatement" => return .continueLoop (← readFirst parts)
  | "returnstatement" => return .returnValue (← readFirst parts)
  | "IDENTIFIERNAME" => return .identifier tree.text
  | "VARIABLENAME" => readVariable tree.text
  | "DOUBLESTRING" => readText tree.text
  | "SINGLESTRING" => readText tree.text
  | _ => return .foreign tree

end Reading

mutual

/-- Pairs a tree with the action that reads it. -/
def Part.ofTree : Tree → Part
  | .leaf symbol text =>
    .mk (.leaf symbol text) (Reading.rule (.leaf symbol text) []) []
  | .branch symbol children =>
    let parts := Part.ofTrees children
    .mk (.branch symbol children) (Reading.rule (.branch symbol children) parts) parts

def Part.ofTrees : List Tree → List Part
  | [] => []
  | tree :: trees => Part.ofTree tree :: Part.ofTrees trees

end

/-- A program with its scopes. -/
structure Script where
  root : Node
  scopes : Array Scope
  deriving Inhabited

/-- Reads a program. -/
def Script.ofTree (tree : Tree) : Except Fault Script :=
  match (Part.ofTree tree).read.run {} with
  | .ok root d => .ok { root := root, scopes := d.scopes }
  | .error fault _ => .error fault

def Script.scope (s : Script) (id : Nat) : Scope := s.scopes.getD id {}

/-- The scope of the script itself; only a program and a function have
one. -/
def Script.ownScope (s : Script) : Except Fault Scope :=
  match s.root.scope? with
  | some id => .ok (s.scope id)
  | none => .error .noOperation

end PageScript
