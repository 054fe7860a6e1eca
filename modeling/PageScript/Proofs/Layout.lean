/-
Where the code of a node lies.

`Node.layout` gives the code of a node line by line without labels: it is told the position
of its first instruction and where `break` and `continue` go, and computes every other
target from the widths of the parts.  Each line has the depth of the operand stack before
it and a mark if it belongs to a loop or leaves one.
-/
import PageScript.Code.OfNode

namespace PageScript

/-- The loops of the language. -/
inductive LoopKind where
  | whileLoop
  | forLoop
  | foreachLoop
  deriving DecidableEq, Repr

/-- Where a loop lies in its code. -/
structure Loop where
  kind : LoopKind
  /-- The depth of the operand stack where the loop is entered. -/
  depth : Nat
  entry : Nat
  start : Nat
  /-- Where the next iteration is prepared: at the condition of a `while`
  loop, at the update of a `for` loop, at the next element of a `foreach`
  loop. -/
  next : Nat
  finish : Nat
  deriving DecidableEq, Repr

/-- What a line is for. -/
inductive Mark where
  | plain
  | loop (l : Loop)
  | leaves (l : Loop)
  | continues (l : Loop)
  deriving DecidableEq, Repr

/-- An instruction, the depth of the stack before it, and its part in a
loop. -/
structure Line where
  instr : Instr Nat Bytecode
  depth : Nat
  mark : Mark := .plain

/-- The ways out of a node: where `break` and `continue` go, and the innermost
loop around it. -/
structure Exits where
  loop : Option Loop := none
  breakTo : Nat := 0
  continueTo : Nat := 0

namespace Node

def count (arguments : Node) : Nat := (arguments.nodes?.getD []).length

/-- How many values the right side of an assignment puts on the stack. -/
def operands : Node → Nat
  | .empty => 0
  | _ => 1

/-- A variable, whose elements are reached without loading it. -/
def isVariable : Node → Bool
  | .variable _ _ => true
  | _ => false

def isAbsent : Node → Bool
  | .absent => true
  | _ => false

/-- How many instructions the key of a `foreach` loop becomes. -/
def keyWidth (key : Node) : Nat := if key.isAbsent then 1 else 2

mutual

def width : Node → Nat
  | .sourceElements functions nodes => widthAll functions + widthBody nodes
  | .program body _ => width body
  | .exprStatement expr => width expr
  | .function _ _ _ => 1
  | .call callee arguments => width arguments + width callee + 1
  | .identifier _ => 1
  | .namedConstant _ => 1
  | .argumentList nodes => widthAll nodes
  | .array nodes => widthAll nodes + 1
  | .global _ => 0
  | .member base index => width index + width base + (!base.isVariable).toNat
  | .constantInt _ _ => 1
  | .constantFloat _ _ => 1
  | .constantText _ _ => 1
  | .interpolation _ parts _ => widthAll parts + 2
  | .boolean _ => 1
  | .null => 1
  | .variable _ _ => 1
  | .empty => 0
  | .emptyExpression => 1
  | .assignment _ _ right operator post =>
    width right + (if operator = "=" then 0 else post.toNat + 2) + 1 + post.toNat
  | .memberAssignment base index right operator post =>
    (if operator = "=" then 0
      else width index + width base + (!base.isVariable).toNat + post.toNat + 1)
      + width right + width index + width base + (!base.isVariable).toNat + post.toNat
  | .breakLoop _ => 2
  | .continueLoop _ => 2
  | .ifElse condition thenBranch elseBranch =>
    width condition + 1 + width thenBranch + 1 + width elseBranch + elseBranch.isAbsent.toNat
  | .whileLoop condition body => width condition + width body + 4
  | .forLoop setup condition update body =>
    width setup + width condition + width body + width update + 6
  | .foreachLoop subject key _ body =>
    width subject + keyWidth key + width body + 7
  | .print expr => width expr + 1
  | .returnValue expr => width expr + expr.isAbsent.toNat + 1
  | .block nodes => widthBlock nodes
  | .binary _ left right => width left + width right + 1
  | .not expr => width expr + 1
  | .both left right => width left + width right + 1
  | .either left right => width left + width right + 1
  | .absent => 0
  | .foreign _ => 0

def widthAll : List Node → Nat
  | [] => 0
  | node :: nodes => width node + widthAll nodes

def widthBody : List Node → Nat
  | [] => 1
  | [node] => width node + (!node.isReturn).toNat
  | node :: nodes => width node + (!node.isReturn).toNat + widthBody nodes

def widthBlock : List Node → Nat
  | [] => 1
  | [node] => width node
  | node :: nodes => width node + 1 + widthBlock nodes

end

/-- The operation of a compound assignment.  There is none for other
operators, which are refused. -/
def operationLine (operator : String) (d : Nat) : Line :=
  ⟨(operation? operator).getD .discardTop, d, .plain⟩

/-- The element of an array: the code of the array, unless it is a variable,
and the access. -/
def memberLines (base : Node) (lines : List Line) (d : Nat) : List Line :=
  match base with
  | .variable name slot => [⟨.loadMemberVar slot name, d, .plain⟩]
  | _ => lines ++ [⟨.loadMember, d + 1, .plain⟩]

def storeLines (base : Node) (lines : List Line) (d : Nat) : List Line :=
  match base with
  | .variable name slot => [⟨.storeMemberVar slot name, d, .plain⟩]
  | _ => lines ++ [⟨.storeMember, d + 1, .plain⟩]

/-- A part that may be missing, which then is null. -/
def orNullLines (node : Node) (lines : List Line) (d : Nat) : List Line :=
  match node with
  | .absent => [⟨.loadNull, d, .plain⟩]
  | _ => lines

/-- A variable of a `foreach` header gets the top of the stack; nothing else
is accepted. -/
def targetLines (target : Node) (d : Nat) : List Line :=
  match target with
  | .variable name slot => [⟨.assign slot name, d, .plain⟩, ⟨.discardTop, d, .plain⟩]
  | _ => [⟨.discardTop, d, .plain⟩, ⟨.discardTop, d, .plain⟩]

def keyLines (key : Node) (d : Nat) : List Line :=
  match key with
  | .absent => [⟨.discardTop, d, .plain⟩]
  | key => targetLines key d

/-- An argument: a variable is passed as a reference to it. -/
def argumentLines (node : Node) (lines : List Line) (d : Nat) : List Line :=
  match node with
  | .variable name slot => [⟨.loadRef slot name, d, .plain⟩]
  | _ => lines

def exitLines (target d : Nat) (mark : Loop → Mark) (loop : Option Loop) : List Line :=
  [⟨.loadNull, d, .plain⟩, ⟨.jump .always target, d + 1, (loop.map mark).getD .plain⟩]

def lineIf (condition : Bool) (i : Instr Nat Bytecode) (d : Nat) : List Line :=
  if condition then [⟨i, d, .plain⟩] else []

/-- The code of a function; of what is refused there is none. -/
def functionCode (name : String) (scope : Scope) (body : Emit Unit) : Bytecode :=
  match assembleBody name scope body with
  | .ok code => code
  | .error _ => default

def whileAt (pos d condition body : Nat) : Loop where
  kind := .whileLoop
  depth := d
  entry := pos
  start := pos + 1
  next := pos + 1
  finish := pos + condition + body + 4

def forAt (pos d setup condition update body : Nat) : Loop where
  kind := .forLoop
  depth := d
  entry := pos
  start := pos + setup + 2
  next := pos + setup + condition + body + 4
  finish := pos + setup + condition + body + update + 6

def foreachAt (pos d subject key body : Nat) : Loop where
  kind := .foreachLoop
  depth := d
  entry := pos
  start := pos + subject + 2
  next := pos + subject + 2
  finish := pos + subject + key + body + 7

section

variable (scopes : Nat → Scope)

mutual

/-- The lines of a node at a position, from a depth of the operand stack. -/
def layout (pos d : Nat) (x : Exits) : Node → List Line
  | .sourceElements functions nodes =>
    layoutAll pos d 0 x functions ++ layoutBody (pos + widthAll functions) d x nodes
  | .program body _ => layout pos d x body
  | .exprStatement expr => layout pos d x expr
  | .function name body scope =>
    [⟨.declareFunction name (functionCode name (scopes scope) (compile scopes body)), d, .plain⟩]
  | .call callee arguments =>
    layout pos d x arguments ++
    layout (pos + width arguments) (d + arguments.count) x callee ++
    [⟨.call arguments.count, d + arguments.count + 1, .plain⟩]
  | .identifier name => [⟨.loadFunction name, d, .plain⟩]
  | .namedConstant name => [⟨.loadNamedConstant name, d, .plain⟩]
  | .argumentList nodes => layoutArguments pos d x nodes
  | .array nodes =>
    layoutAll pos d 1 x nodes ++ [⟨.loadArray nodes.length, d + nodes.length, .plain⟩]
  | .global _ => []
  | .member base index =>
    layout pos d x index ++
    memberLines base (layout (pos + width index) (d + 1) x base) (d + 1)
  | .constantInt _ place => [⟨.loadConstant place, d, .plain⟩]
  | .constantFloat _ place => [⟨.loadConstant place, d, .plain⟩]
  | .constantText _ place => [⟨.loadConstant place, d, .plain⟩]
  | .interpolation _ parts place =>
    layoutAll pos d 1 x parts ++
    [⟨.loadConstant place, d + parts.length, .plain⟩,
     ⟨.stringSubstitution parts.length, d + parts.length + 1, .plain⟩]
  | .boolean value => [⟨.loadBoolean value, d, .plain⟩]
  | .null => [⟨.loadNull, d, .plain⟩]
  | .variable name slot => [⟨.loadVar slot name, d, .plain⟩]
  | .empty => []
  | .emptyExpression => [⟨.loadNull, d, .plain⟩]
  | .assignment name slot right operator post =>
    (if operator = "=" then layout pos d x right
      else
        ⟨.loadVar slot name, d, .plain⟩ :: lineIf post .dup (d + 1) ++
        layout (pos + 1 + post.toNat) (d + 1 + post.toNat) x right ++
        [operationLine operator (d + 1 + post.toNat + right.operands)]) ++
    ⟨.assign slot name, d + 1 + post.toNat, .plain⟩ :: lineIf post .discardTop (d + 2)
  | .memberAssignment base index right operator post =>
    let access := width index + width base + (!base.isVariable).toNat
    let stored := if operator = "=" then pos + width right
      else pos + access + post.toNat + width right + 1
    (if operator = "=" then layout pos d x right
      else
        layout pos d x index ++
        memberLines base (layout (pos + width index) (d + 1) x base) (d + 1) ++
        lineIf post .dup (d + 1) ++
        layout (pos + access + post.toNat) (d + 1 + post.toNat) x right ++
        [operationLine operator (d + 1 + post.toNat + right.operands)]) ++
    layout stored (d + 1 + post.toNat) x index ++
    storeLines base (layout (stored + width index) (d + 2 + post.toNat) x base)
      (d + 2 + post.toNat) ++
    lineIf post .discardTop (d + 2)
  | .breakLoop _ => exitLines x.breakTo d .leaves x.loop
  | .continueLoop _ => exitLines x.continueTo d .continues x.loop
  | .ifElse condition thenBranch elseBranch =>
    let middle := pos + width condition + 1 + width thenBranch + 1
    layout pos d x condition ++
    ⟨.jump .ifFalse middle, d + 1, .plain⟩ ::
    layout (pos + width condition + 1) d x thenBranch ++
    ⟨.jump .always (middle + width elseBranch + elseBranch.isAbsent.toNat), d + 1, .plain⟩ ::
    orNullLines elseBranch (layout middle d x elseBranch) d
  | .whileLoop condition body =>
    let l := whileAt pos d (width condition) (width body)
    ⟨.loadNull, d, .loop l⟩ ::
    layout l.start (d + 1) { x with continueTo := l.next } condition ++
    ⟨.jump .ifFalse l.finish, d + 2, .plain⟩ ::
    layout (l.start + width condition + 1) (d + 1) ⟨some l, l.finish, l.next⟩ body ++
    [⟨.discardTop, d + 2, .plain⟩, ⟨.jump .always l.start, d + 1, .plain⟩]
  | .forLoop setup condition update body =>
    let l := forAt pos d (width setup) (width condition) (width update) (width body)
    layout pos d x setup ++
    ⟨.discardTop, d + 1, .loop l⟩ ::
    ⟨.loadNull, d, .plain⟩ ::
    layout l.start (d + 1) ⟨some l, l.finish, l.next⟩ condition ++
    ⟨.jump .ifFalse l.finish, d + 2, .plain⟩ ::
    ⟨.discardTop, d + 1, .plain⟩ ::
    layout (l.start + width condition + 2) d ⟨some l, l.finish, l.next⟩ body ++
    layout l.next (d + 1) ⟨some l, l.finish, x.continueTo⟩ update ++
    [⟨.discardTop, d + 2, .plain⟩, ⟨.jump .always l.start, d + 1, .plain⟩]
  | .foreachLoop subject key value body =>
    let l := foreachAt pos d (width subject) (keyWidth key) (width body)
    layout pos d x subject ++
    ⟨.loadIterator, d + 1, .loop l⟩ ::
    ⟨.loadNull, d + 1, .plain⟩ ::
    ⟨.jump .ifIteratorEmpty l.finish, d + 2, .plain⟩ ::
    ⟨.nextIterator, d + 1, .plain⟩ ::
    keyLines key (d + 3) ++
    targetLines value (d + 2) ++
    layout (l.start + keyWidth key + 4) (d + 1) ⟨some l, l.finish, x.continueTo⟩ body ++
    [⟨.jump .always l.start, d + 2, .plain⟩]
  | .print expr => layout pos d x expr ++ [⟨.print, d + 1, .plain⟩]
  | .returnValue expr =>
    orNullLines expr (layout pos d x expr) d ++ [⟨.returnTop, d + 1, .plain⟩]
  | .block nodes => layoutBlock pos d x nodes
  | .binary op left right =>
    layout pos d x left ++ layout (pos + width left) (d + 1) x right ++
    [⟨.binary op, d + 2, .plain⟩]
  | .not expr => layout pos d x expr ++ [⟨.unary .not, d + 1, .plain⟩]
  | .both left right =>
    layout pos d x left ++
    ⟨.jump .ifFalseKeep (pos + width left + 1 + width right), d + 1, .plain⟩ ::
    layout (pos + width left + 1) d x right
  | .either left right =>
    layout pos d x left ++
    ⟨.jump .ifTrueKeep (pos + width left + 1 + width right), d + 1, .plain⟩ ::
    layout (pos + width left + 1) d x right
  | .absent => []
  | .foreign _ => []

/-- The lines of nodes one after another, each of which leaves as many values
as `step` says. -/
def layoutAll (pos d step : Nat) (x : Exits) : List Node → List Line
  | [] => []
  | node :: nodes =>
    layout pos d x node ++ layoutAll (pos + width node) (d + step) step x nodes

def layoutArguments (pos d : Nat) (x : Exits) : List Node → List Line
  | [] => []
  | node :: nodes =>
    argumentLines node (layout pos d x node) d ++
    layoutArguments (pos + width node) (d + 1) x nodes

def layoutBody (pos d : Nat) (x : Exits) : List Node → List Line
  | [] => [⟨.loadNull, d, .plain⟩]
  | [node] => layout pos d x node ++ lineIf (!node.isReturn) .returnTop (d + 1)
  | node :: nodes =>
    layout pos d x node ++ lineIf (!node.isReturn) .discardTop (d + 1) ++
    layoutBody (pos + width node + (!node.isReturn).toNat) d x nodes

def layoutBlock (pos d : Nat) (x : Exits) : List Node → List Line
  | [] => [⟨.loadNull, d, .plain⟩]
  | [node] => layout pos d x node
  | node :: nodes =>
    layout pos d x node ++ ⟨.discardTop, d + 1, .plain⟩ ::
    layoutBlock (pos + width node + 1) d x nodes

end

theorem widthBody_cons (node next : Node) (nodes : List Node) :
    widthBody (node :: next :: nodes)
      = width node + (!node.isReturn).toNat + widthBody (next :: nodes) := by
  simp only [widthBody]

theorem layoutBody_cons (pos d : Nat) (x : Exits) (node next : Node) (nodes : List Node) :
    layoutBody scopes pos d x (node :: next :: nodes)
      = layout scopes pos d x node ++ lineIf (!node.isReturn) .discardTop (d + 1) ++
        layoutBody scopes (pos + width node + (!node.isReturn).toNat) d x (next :: nodes) := by
  simp only [layoutBody]

theorem length_memberLines (base : Node) (lines : List Line) (d : Nat) (h : lines.length = width base) :
    (memberLines base lines d).length = width base + (!base.isVariable).toNat := by
  unfold memberLines
  split
  · rfl
  · cases base <;> simp_all [isVariable]

theorem length_storeLines (base : Node) (lines : List Line) (d : Nat) (h : lines.length = width base) :
    (storeLines base lines d).length = width base + (!base.isVariable).toNat := by
  unfold storeLines
  split
  · rfl
  · cases base <;> simp_all [isVariable]

theorem length_orNullLines (node : Node) (lines : List Line) (d : Nat) (h : lines.length = width node) :
    (orNullLines node lines d).length = width node + node.isAbsent.toNat := by
  unfold orNullLines
  split
  · rfl
  · cases node <;> simp_all [isAbsent]

theorem length_argumentLines (node : Node) (lines : List Line) (d : Nat)
    (h : lines.length = width node) : (argumentLines node lines d).length = width node := by
  unfold argumentLines
  split
  · rfl
  · exact h

@[simp] theorem length_targetLines (target : Node) (d : Nat) : (targetLines target d).length = 2 := by
  unfold targetLines
  split <;> rfl

@[simp] theorem length_keyLines (key : Node) (d : Nat) : (keyLines key d).length = keyWidth key := by
  unfold keyLines
  split
  · rfl
  · cases key <;> simp_all [keyWidth, isAbsent]

@[simp] theorem length_lineIf (condition : Bool) (i : Instr Nat Bytecode) (d : Nat) :
    (lineIf condition i d).length = condition.toNat := by
  cases condition <;> rfl

theorem layout_lengths :
    (∀ node pos d x, (layout scopes pos d x node).length = width node) ∧
    (∀ nodes pos d x, (layoutBlock scopes pos d x nodes).length = widthBlock nodes) ∧
    (∀ nodes pos d x, (layoutBody scopes pos d x nodes).length = widthBody nodes) ∧
    ∀ nodes, (∀ pos d x, (layoutArguments scopes pos d x nodes).length = widthAll nodes) ∧
      ∀ pos d step x, (layoutAll scopes pos d step x nodes).length = widthAll nodes := by
  apply width.mutual_induct <;> intros <;>
    simp_all +arith [layout, layoutAll, layoutArguments, layoutBody, layoutBlock, width, widthAll,
      widthBody, widthBlock, length_memberLines, length_storeLines, length_orNullLines,
      length_argumentLines, exitLines] <;>
    split <;> simp_all +arith [length_memberLines]

theorem length_layout (pos d : Nat) (x : Exits) (node : Node) :
    (layout scopes pos d x node).length = width node :=
  (layout_lengths scopes).1 node pos d x

theorem length_layoutBody (pos d : Nat) (x : Exits) (nodes : List Node) :
    (layoutBody scopes pos d x nodes).length = widthBody nodes :=
  (layout_lengths scopes).2.2.1 nodes pos d x

theorem length_layoutArguments (pos d : Nat) (x : Exits) (nodes : List Node) :
    (layoutArguments scopes pos d x nodes).length = widthAll nodes :=
  ((layout_lengths scopes).2.2.2 nodes).1 pos d x

theorem length_layoutAll (pos d step : Nat) (x : Exits) (nodes : List Node) :
    (layoutAll scopes pos d step x nodes).length = widthAll nodes :=
  ((layout_lengths scopes).2.2.2 nodes).2 pos d step x

end

end Node

end PageScript
