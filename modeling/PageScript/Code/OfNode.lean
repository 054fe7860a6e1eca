/-
From abstract trees to code.

Every expression and every statement leaves exactly one value on the operand
stack, except `return`, `break`, `continue` and the empty right side of an
increment.  A function becomes code of its own and a declaration in the code
around it.
-/
import PageScript.Code.Assembler
import PageScript.Node.OfTree

namespace PageScript.Node

/-- The instruction for the operator of a compound assignment. -/
def operation? {L : Type} : String → Option (Instr L Bytecode)
  | "+=" => some (.binary .add)
  | "-=" => some (.binary .sub)
  | "++" => some (.unary .incr)
  | "--" => some (.unary .decr)
  | ".=" => some (.binary .concat)
  | _ => none

def emitOperation (operator : String) : Emit Unit :=
  match operation? operator with
  | some i => .instr i
  | none => throw .checkFailed

def emitIf (condition : Bool) (i : Instr Int Bytecode) : Emit Unit :=
  if condition then .instr i else return ()

/-- Emits an assignment of the top to a variable of a `foreach` header. -/
def emitTarget : Node → Emit Unit
  | .variable name slot => do
    .instr (.assign slot name)
    .instr .discardTop
  | _ => throw (.complaint .foreachTarget)

def emitKey : Node → Emit Unit
  | .absent => .instr .discardTop
  | key => emitTarget key

/-- A `break` or `continue` has no count. -/
def checkNoCount : Node → Emit Unit
  | .absent => return ()
  | _ => throw .checkFailed

def argumentCount (arguments : Node) : Emit Int :=
  match arguments.nodes? with
  | some nodes => return nodes.length
  | none => throw .noOperation

/-- The code of a body in its scope. -/
def assembleBody (name : String) (scope : Scope) (body : Emit Unit) : Except Fault Bytecode :=
  match body.run {} with
  | .ok _ a => Bytecode.assemble name scope a.items.toList
  | .error fault _ => .error fault

mutual

/-- Emits the code of a node; `scopes` are those that functions refer to. -/
def compile (scopes : Nat → Scope) : Node → Emit Unit
  | .sourceElements functions nodes => do
    compileAll scopes functions
    compileBody scopes nodes
  | .program body _ => compile scopes body
  | .exprStatement expr => compile scopes expr
  | .function name body scope => do
    let code ← ofExcept (assembleBody name (scopes scope) (compile scopes body))
    .instr (.declareFunction name code)
  | .call callee arguments => do
    compile scopes arguments
    compile scopes callee
    .instr (.call (← argumentCount arguments))
  | .identifier name => .instr (.loadFunction name)
  | .namedConstant name => .instr (.loadNamedConstant name)
  | .argumentList nodes => compileArguments scopes nodes
  | .array nodes => do
    compileAll scopes nodes
    .instr (.loadArray nodes.length)
  | .global _ => return ()
  | .member base index => do
    compile scopes index
    match base with
    | .variable name slot => .instr (.loadMemberVar slot name)
    | base => do
      compile scopes base
      .instr .loadMember
  | .constantInt _ place => .instr (.loadConstant place)
  | .constantFloat _ place => .instr (.loadConstant place)
  | .constantText _ place => .instr (.loadConstant place)
  | .interpolation _ parts place => do
    compileAll scopes parts
    .instr (.loadConstant place)
    .instr (.stringSubstitution parts.length)
  | .boolean value => .instr (.loadBoolean value)
  | .null => .instr .loadNull
  | .variable name slot => .instr (.loadVar slot name)
  | .empty => return ()
  | .emptyExpression => .instr .loadNull
  | .assignment name slot right operator post => do
    if operator = "=" then compile scopes right
    else
      .instr (.loadVar slot name)
      emitIf post .dup
      compile scopes right
      emitOperation operator
    .instr (.assign slot name)
    emitIf post .discardTop
  | .memberAssignment base index right operator post => do
    if operator = "=" then compile scopes right
    else
      compile scopes index
      match base with
      | .variable name slot => .instr (.loadMemberVar slot name)
      | base => do
        compile scopes base
        .instr .loadMember
      emitIf post .dup
      compile scopes right
      emitOperation operator
    compile scopes index
    match base with
    | .variable name slot => .instr (.storeMemberVar slot name)
    | base => do
      compile scopes base
      .instr .storeMember
    emitIf post .discardTop
  | .breakLoop count => do
    checkNoCount count
    .instr .loadNull
    Emit.breakLoop
  | .continueLoop count => do
    checkNoCount count
    .instr .loadNull
    Emit.continueLoop
  | .ifElse condition thenBranch elseBranch => do
    compile scopes condition
    let endIf ← Emit.freshLabel
    let endThen ← Emit.freshLabel
    .instr (.jump .ifFalse endThen)
    compile scopes thenBranch
    .instr (.jump .always endIf)
    let _ ← Emit.label endThen
    match elseBranch with
    | .absent => .instr .loadNull
    | elseBranch => compile scopes elseBranch
    let _ ← Emit.label endIf
  | .whileLoop condition body => do
    .instr .loadNull
    let start ← Emit.startLoop
    Emit.continueAt start
    compile scopes condition
    let finish ← Emit.freshEnd false
    .instr (.jump .ifFalse finish)
    compile scopes body
    .instr .discardTop
    .instr (.jump .always start)
    Emit.endLoop finish
    Emit.popUpdate
  | .forLoop setup condition update body => do
    compile scopes setup
    .instr .discardTop
    .instr .loadNull
    let start ← Emit.startLoop
    let finish ← Emit.freshEnd false
    let next ← Emit.freshUpdate
    compile scopes condition
    .instr (.jump .ifFalse finish)
    .instr .discardTop
    compile scopes body
    Emit.updateLoop next
    compile scopes update
    .instr .discardTop
    .instr (.jump .always start)
    Emit.endLoop finish
  | .foreachLoop subject key value body => do
    compile scopes subject
    .instr .loadIterator
    .instr .loadNull
    let start ← Emit.startLoop
    let finish ← Emit.freshEnd true
    .instr (.jump .ifIteratorEmpty finish)
    .instr .nextIterator
    emitKey key
    emitTarget value
    compile scopes body
    .instr (.jump .always start)
    Emit.endLoop finish
  | .print expr => do
    compile scopes expr
    .instr .print
  | .returnValue expr => do
    match expr with
    | .absent => .instr .loadNull
    | expr => compile scopes expr
    .instr .returnTop
  | .block nodes => compileBlock scopes nodes
  | .binary op left right => do
    compile scopes left
    compile scopes right
    .instr (.binary op)
  | .not expr => do
    compile scopes expr
    .instr (.unary .not)
  | .both left right => do
    compile scopes left
    let finish ← Emit.freshLabel
    .instr (.jump .ifFalseKeep finish)
    compile scopes right
    let _ ← Emit.label finish
  | .either left right => do
    compile scopes left
    let finish ← Emit.freshLabel
    .instr (.jump .ifTrueKeep finish)
    compile scopes right
    let _ ← Emit.label finish
  | .absent => throw .noOperation
  | .foreign _ => throw .noOperation

def compileAll (scopes : Nat → Scope) : List Node → Emit Unit
  | [] => return ()
  | node :: nodes => do
    compile scopes node
    compileAll scopes nodes

/-- Emits arguments: a variable is passed as a reference to it. -/
def compileArguments (scopes : Nat → Scope) : List Node → Emit Unit
  | [] => return ()
  | .variable name slot :: nodes => do
    .instr (.loadRef slot name)
    compileArguments scopes nodes
  | node :: nodes => do
    compile scopes node
    compileArguments scopes nodes

/-- Emits the statements of a program or function.  The value of each is
discarded and that of the last one returned; after a `return` there is no
value to discard or to return.  With no statement at all there is a value
but no `return`. -/
def compileBody (scopes : Nat → Scope) : List Node → Emit Unit
  | [] => .instr .loadNull
  | [node] => do
    compile scopes node
    emitIf (!node.isReturn) .returnTop
  | node :: nodes => do
    compile scopes node
    emitIf (!node.isReturn) .discardTop
    compileBody scopes nodes

/-- Emits the statements of a block; its value is that of the last one. -/
def compileBlock (scopes : Nat → Scope) : List Node → Emit Unit
  | [] => .instr .loadNull
  | [node] => compile scopes node
  | node :: nodes => do
    compile scopes node
    .instr .discardTop
    compileBlock scopes nodes

end

end PageScript.Node

namespace PageScript

/-- The code of a script. -/
def Script.compile (s : Script) (name : String) : Except Fault Bytecode := do
  let scope ← s.ownScope
  Node.assembleBody name scope (s.root.compile s.scope)

end PageScript
