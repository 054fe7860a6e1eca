/-
What trees are read as.

A grammatical expression is read as a node without statements in it, and a
statement as one in which expressions stand where values are wanted.  Signs
of assignments are not looked at yet, nor where a `break` or `continue`
stands: this is left to the compiler.
-/
import PageScript.Proofs.Tidy

namespace PageScript.Node

/-- The nodes of expressions. -/
inductive IsExpression : Node → Prop where
  | identifier {name} : IsExpression (.identifier name)
  | namedConstant {name} : IsExpression (.namedConstant name)
  | constantInt {value place} : IsExpression (.constantInt value place)
  | constantFloat {value place} : IsExpression (.constantFloat value place)
  | constantText {text place} : IsExpression (.constantText text place)
  | boolean {value} : IsExpression (.boolean value)
  | null : IsExpression .null
  | variable {name slot} : IsExpression (.variable name slot)
  | emptyExpression : IsExpression .emptyExpression
  | interpolation {text parts place} : (∀ n ∈ parts, n.isVariable) →
      IsExpression (.interpolation text parts place)
  | array {nodes} : (∀ n ∈ nodes, IsExpression n) → IsExpression (.array nodes)
  | call {callee nodes} : (∀ n ∈ nodes, IsExpression n) → IsExpression callee →
      IsExpression (.call callee (.argumentList nodes))
  | member {base index} : IsExpression index → IsExpression base →
      IsExpression (.member base index)
  | assignment {name slot right operator} : operator ∉ stepSigns → IsExpression right →
      IsExpression (.assignment name slot right operator false)
  | step {name slot operator post} : operator ∈ stepSigns →
      IsExpression (.assignment name slot .empty operator post)
  | memberAssignment {base index right operator} : operator ∉ stepSigns → IsExpression right →
      IsExpression index → IsExpression base →
      IsExpression (.memberAssignment base index right operator false)
  | memberStep {base index operator post} : operator ∈ stepSigns → IsExpression index →
      IsExpression base → IsExpression (.memberAssignment base index .empty operator post)
  | conditional {condition yes no} : IsExpression condition → IsExpression yes →
      IsExpression no → IsExpression (.ifElse condition yes no)
  | binary {op left right} : IsExpression left → IsExpression right →
      IsExpression (.binary op left right)
  | not {expr} : IsExpression expr → IsExpression (.not expr)
  | both {left right} : IsExpression left → IsExpression right → IsExpression (.both left right)
  | either {left right} : IsExpression left → IsExpression right →
      IsExpression (.either left right)

/-- Statements; `globals` says whether `global` may be one. -/
inductive IsStatement (globals : Bool) : Node → Prop where
  | exprStatement {expr} : IsExpression expr → IsStatement globals (.exprStatement expr)
  | print {expr} : IsExpression expr → IsStatement globals (.print expr)
  | ifThen {condition yes} : IsExpression condition → IsStatement globals yes →
      IsStatement globals (.ifElse condition yes .absent)
  | ifElse {condition yes no} : IsExpression condition → IsStatement globals yes →
      IsStatement globals no → IsStatement globals (.ifElse condition yes no)
  | whileLoop {condition body} : IsExpression condition → IsStatement globals body →
      IsStatement globals (.whileLoop condition body)
  | forLoop {setup condition update body} : IsExpression setup → IsExpression condition →
      IsExpression update → IsStatement globals body →
      IsStatement globals (.forLoop setup condition update body)
  | foreachLoop {subject key value body} : IsExpression subject →
      key.isAbsent ∨ key.isVariable → value.isVariable → IsStatement globals body →
      IsStatement globals (.foreachLoop subject key value body)
  | block {nodes} : (∀ n ∈ nodes, IsStatement globals n) → IsStatement globals (.block nodes)
  | breakLoop {count} : IsStatement globals (.breakLoop count)
  | continueLoop {count} : IsStatement globals (.continueLoop count)
  | returnNothing : IsStatement globals (.returnValue .absent)
  | returnValue {expr} : IsExpression expr → IsStatement globals (.returnValue expr)
  | global {nodes} : globals → IsStatement globals (.global nodes)

/-- Bodies of programs and functions. -/
inductive IsBody (globals : Bool) : Node → Prop where
  | elements {functions nodes} :
      (∀ f ∈ functions, ∃ name body scope, f = .function name body scope) →
      (∀ name body scope, .function name body scope ∈ functions → IsBody globals body) →
      (∀ n ∈ nodes, IsStatement globals n) → IsBody globals (.sourceElements functions nodes)
  | nothing : IsBody globals (.returnValue .absent)

/-- The bodies of a program: its own, and those of the functions declared in one
of them. -/
inductive HasBody : Node → Node → Prop where
  | own {body : Node} : HasBody body body
  | declared {functions nodes : List Node} {name : String} {f body : Node} {scope : Nat} :
      .function name f scope ∈ functions → HasBody f body →
      HasBody (.sourceElements functions nodes) body

theorem IsExpression.present {node : Node} (h : IsExpression node) : node ≠ .absent := by
  rintro rfl
  cases h

theorem IsExpression.operands_eq {node : Node} (h : IsExpression node) : node.operands = 1 := by
  cases h <;> rfl

theorem IsStatement.present {globals : Bool} {node : Node} (h : IsStatement globals node) :
    node ≠ .absent := by
  rintro rfl
  cases h

theorem IsBody.of_hasBody {globals : Bool} {body f : Node} (h : IsBody globals body)
    (hf : body.HasBody f) : IsBody globals f := by
  induction hf with
  | own => exact h
  | declared hmem _ ih =>
    cases h with
    | elements _ hbodies _ => exact ih (hbodies _ _ _ hmem)

theorem isExpression_of_isVariable {node : Node} (h : node.isVariable) : IsExpression node := by
  cases node with
  | «variable» name slot => exact .variable
  | _ => cases h

end PageScript.Node
