/-
The text of an abstract tree.

Expressions are written on one line, statements with bodies over several,
the body indented by a tab.  A missing part and a foreign tree have no text,
and so has nothing that contains one.
-/
import PageScript.Node
import PageScript.Decimal.Shortest
import PageScript.Text.Split

namespace PageScript.Node

def indent (s : String) : String :=
  Text.unlines ((Text.lines s).map ("\t" ++ ·))

/-- Texts one below the other, indented; nothing at all is one empty line
without indentation. -/
def indentAll (parts : List String) : String :=
  Text.unlines ((parts.flatMap Text.lines).map ("\t" ++ ·))

def truthText (b : Bool) : String := if b then "True" else "False"

def variableText (name : String) (slot : Int) : String :=
  "VariableIdentifier (" ++ toString slot ++ ", " ++ name ++ ")"

mutual

def text : Node → Except Fault String
  | .sourceElements functions nodes => do
    let functions ← texts functions
    let nodes ← texts nodes
    return "SourceElements (\n" ++ indentAll (functions ++ nodes) ++ "\n)"
  | .program body _ => do
    return "Program (\n" ++ indent (← text body) ++ "\n)"
  | .exprStatement expr => do
    return "ExprStatement (" ++ (← text expr) ++ ")"
  | .function name body _ => do
    return "Function (" ++ name ++ ",\n" ++ indent (← text body) ++ "\n)"
  | .call callee arguments => do
    return "Call (" ++ (← text callee) ++ ", " ++ (← text arguments) ++ ")"
  | .identifier name => return "Identifier " ++ name
  | .namedConstant name => return "NamedConstant (" ++ name ++ ")"
  | .argumentList nodes => do
    return "ArgumentList (" ++ ", ".intercalate (← texts nodes) ++ ")"
  | .array nodes => do
    return "Array (" ++ ", ".intercalate (← texts nodes) ++ ")"
  | .global _ => return "Global"
  | .member base index => do
    return "Member (" ++ (← text base) ++ ", " ++ (← text index) ++ ")"
  | .constantInt value _ => return "ConstantInt " ++ toString value
  | .constantFloat value _ => return "ConstantFloat " ++ Decimal.floatText value
  | .constantText t _ => return "ConstantString \"" ++ t ++ "\""
  | .interpolation t _ _ => return "StringSubstitution (" ++ t ++ ")"
  | .boolean value => return "Boolean " ++ truthText value
  | .null => return "Null"
  | .variable name slot => return variableText name slot
  | .empty => return "Empty"
  | .emptyExpression => return "EmptyExpression"
  | .assignment name slot right operator _ => do
    return "AssignmentOperation (" ++ variableText name slot ++ ", " ++ operator ++ ", " ++
      (← text right) ++ ")"
  | .memberAssignment base index right operator _ => do
    return "MemberAssignmentOperation (Member (" ++ (← text base) ++ ", " ++ (← text index) ++
      "), " ++ operator ++ ", " ++ (← text right) ++ ")"
  | .breakLoop _ => return "Break"
  | .continueLoop _ => return "Continue"
  | .ifElse condition thenBranch .absent => do
    let thenText ← text thenBranch
    return "If (" ++ (← text condition) ++ ",\n" ++ indent thenText ++ "\n)"
  | .ifElse condition thenBranch elseBranch => do
    let thenText ← text thenBranch
    let elseText ← text elseBranch
    return "If (" ++ (← text condition) ++ ",\n" ++ indent thenText ++ ",\n" ++
      indent elseText ++ "\n)"
  | .whileLoop condition body => do
    let bodyText ← text body
    return "While (" ++ (← text condition) ++ ",\n" ++ indent bodyText ++ "\n)"
  | .forLoop setup condition update body => do
    let bodyText ← text body
    return "For (" ++ (← text setup) ++ ", " ++ (← text condition) ++ ", " ++
      (← text update) ++ ",\n" ++ indent bodyText ++ "\n)"
  | .foreachLoop subject key value body => do
    let bodyText ← text body
    return "Foreach (" ++ (← text subject) ++ ", " ++ (← text key) ++ ", " ++
      (← text value) ++ ",\n" ++ indent bodyText ++ "\n)"
  | .print expr => do
    return "Print (" ++ (← text expr) ++ ")"
  | .returnValue .absent => return "Return"
  | .returnValue expr => do
    return "Return (" ++ (← text expr) ++ ")"
  | .block nodes => do
    return "Block (\n" ++ indentAll (← texts nodes) ++ "\n)"
  | .binary op left right => do
    return op.name ++ " (" ++ (← text left) ++ ", " ++ (← text right) ++ ")"
  | .not expr => do
    return "NOT (" ++ (← text expr) ++ ")"
  | .both left right => do
    return "And (" ++ (← text left) ++ ", " ++ (← text right) ++ ")"
  | .either left right => do
    return "Or (" ++ (← text left) ++ ", " ++ (← text right) ++ ")"
  | .absent => throw .noOperation
  | .foreign _ => throw .noOperation

def texts : List Node → Except Fault (List String)
  | [] => return []
  | node :: nodes => do
    return (← text node) :: (← texts nodes)

end

end PageScript.Node
