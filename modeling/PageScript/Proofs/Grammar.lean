/-
The grammar of programs, as a class of parse trees.

There is one constructor for each rule that leaves a branch of its own in the
tree.  Rules that differ in their symbol only are taken together, and where
reading does not look at a token it may be any tree.

The grammar allows a `global` statement wherever it allows a statement.
`globals` says whether this is so; without it such statements stand directly
in bodies only.
-/
import PageScript.Node.OfTree
import PageScript.Proofs.Tidy
import PageScript.Sample.Grammar

namespace PageScript.Tree

open Reading (fillers)
open Node (stepSigns)

def chainRules : List String := [
  "logicalorexpression", "logicalandexpression", "stringjoinexpression", "relationalexpression",
  "equalityexpression", "additiveexpression", "multiplicativeexpression", "shiftexpression",
  "expression", "memberexpression"]

def links : List (Tree × Tree) → List Tree
  | [] => []
  | (op, operand) :: rest => op :: operand :: links rest

/-- The trees of expressions. -/
inductive Expression : Tree → Prop where
  | variable {name : String} : name ∉ fillers → Expression (.leaf "VARIABLENAME" name)
  | text {rule literal : String} : rule ∈ ["SINGLESTRING", "DOUBLESTRING"] →
      literal ∉ fillers → Expression (.leaf rule literal)
  | word {rule : String} {words : List Tree} : rule ∈ ["nullliteral", "booleanliteral"] →
      Expression (.branch rule words)
  | number {digits : List Tree} : Expression (.branch "numericliteral" digits)
  | constant {names : List Tree} : Expression (.branch "constantexpression" names)
  | array {bracket : Tree} {elements : List Tree} : (∀ t ∈ elements, Expression t) →
      Expression (.branch "arrayliteral" (bracket :: elements))
  | call {name : String} {lists : List (Tree × List Tree)} :
      (∀ l ∈ lists, ∀ t ∈ l.2, Expression t) →
      Expression (.branch "callexpression" (.leaf "IDENTIFIERNAME" name ::
        lists.map fun l => .branch "arguments" (l.1 :: l.2)))
  | chain {rule : String} {first : Tree} {rest : List (Tree × Tree)} : rule ∈ chainRules →
      Expression first → (∀ l ∈ rest, Expression l.2) →
      Expression (.branch rule (first :: links rest))
  | unary {op operand : Tree} : Expression operand →
      Expression (.branch "unaryexpression" [op, operand])
  | step {kind op : String} {operand : Tree} : op ∈ stepSigns → Expression operand →
      Expression (.branch "postfixexpression" [operand, .leaf kind op])
  | assignment {kind op : String} {left right : Tree} : op ∉ stepSigns → Expression left →
      Expression right → Expression (.branch "assignmentexpression" [left, .leaf kind op, right])
  | conditional {mark condition yes no : Tree} : Expression condition → Expression yes →
      Expression no → Expression (.branch "conditionalexpression" [condition, mark, yes, no])

/-- A part of the header of a `for` loop with the sign behind it. -/
inductive HeaderPart : List Tree → Prop where
  | given {expr sign : Tree} : Expression expr → HeaderPart [expr, sign]
  | missing {kind sign : String} : sign ∈ fillers → HeaderPart [.leaf kind sign]

def variableLeaves (names : List String) : List Tree := names.map (.leaf "VARIABLENAME")

/-- The trees of statements. -/
inductive Statement (globals : Bool) : Tree → Prop where
  | block {brace : Tree} {statements : List Tree} : (∀ t ∈ statements, Statement globals t) →
      Statement globals (.branch "block" (brace :: statements))
  | expression {expr : Tree} : Expression expr →
      Statement globals (.branch "expressionstatement" [expr])
  | print {word expr : Tree} : Expression expr →
      Statement globals (.branch "printstatement" [word, expr])
  | ifThen {condition yes : Tree} : Expression condition → Statement globals yes →
      Statement globals (.branch "ifstatement" [condition, yes])
  | ifElse {condition yes no : Tree} : Expression condition → Statement globals yes →
      Statement globals no → Statement globals (.branch "ifstatement" [condition, yes, no])
  | whileLoop {word condition body : Tree} : Expression condition → Statement globals body →
      Statement globals (.branch "iterationstatement" [.branch "whiles" [word, condition, body]])
  | forLoop {word body : Tree} {setup condition change : List Tree} : HeaderPart setup →
      HeaderPart condition → HeaderPart change → Statement globals body →
      Statement globals (.branch "iterationstatement"
        [.branch "regularfor" (word :: (setup ++ (condition ++ (change ++ [body]))))])
  | foreachValue {word subject body : Tree} {value : String} : Expression subject →
      Statement globals body → Statement globals (.branch "iterationstatement"
        [.branch "foreach" [word, subject, .leaf "VARIABLENAME" value, body]])
  | foreachPair {word subject body : Tree} {key value : String} : Expression subject →
      Statement globals body → Statement globals (.branch "iterationstatement"
        [.branch "keyforeach"
          [word, subject, .leaf "VARIABLENAME" key, .leaf "VARIABLENAME" value, body]])
  | breakLoop {counts : List Tree} : (∀ t ∈ counts, Expression t) →
      Statement globals (.branch "breakstatement" counts)
  | continueLoop {counts : List Tree} : (∀ t ∈ counts, Expression t) →
      Statement globals (.branch "continuestatement" counts)
  | returnValue {values : List Tree} : (∀ t ∈ values, Expression t) →
      Statement globals (.branch "returnstatement" values)
  | global {word : Tree} {rule : String} {names : List String} : globals →
      Statement globals (.branch "globalstatement" [word, .branch rule (variableLeaves names)])

/-- A parameter, by value or by reference. -/
inductive Parameter : Tree → Prop where
  | value {rule name : String} : Parameter (.branch rule [.leaf "VARIABLENAME" name])
  | reference {rule kind name : String} :
      Parameter (.branch rule [.leaf kind "&", .leaf "VARIABLENAME" name])

inductive Parameters : List Tree → Prop where
  | given {parameters : List Tree} {sign : Tree} : (∀ t ∈ parameters, Parameter t) →
      Parameters [.branch "formalparameterlist" parameters, sign]
  | missing {kind sign : String} : sign ∈ fillers → Parameters [.leaf kind sign]

/-- What stands directly in a body: statements and functions. -/
inductive Element (globals : Bool) : Tree → Prop where
  | statement {tree : Tree} : Statement globals tree → Element globals tree
  | global {word : Tree} {rule : String} {names : List String} :
      Element globals (.branch "globalstatement" [word, .branch rule (variableLeaves names)])
  | function {name : String} {sign brace : Tree} {parameters elements : List Tree} :
      name ∉ fillers → Parameters parameters → (∀ t ∈ elements, Element globals t) →
      Element globals (.branch "functiondeclaration" (.leaf "IDENTIFIERNAME" name :: sign ::
        (parameters ++ [.branch "sourceelements" elements, brace])))
  | emptyFunction {name kind brace : String} {sign : Tree} {parameters : List Tree} :
      name ∉ fillers → Parameters parameters → brace ∈ fillers →
      Element globals (.branch "functiondeclaration" (.leaf "IDENTIFIERNAME" name :: sign ::
        (parameters ++ [.leaf kind brace])))

/-- The trees of programs. -/
inductive Program (globals : Bool) : Tree → Prop where
  | main {elements : List Tree} : (∀ t ∈ elements, Element globals t) →
      Program globals (.branch "main" [.branch "sourceelements" elements])

/-! ### Trees of samples -/

section

open Sample

variable {globals : Bool} {name : String} {tree : Tree} {trees parameters : List Tree}

theorem Expression.callTree (h : ∀ t ∈ trees, Expression t) : Expression (callTree name trees) := by
  have hlists : ∀ l ∈ [(token "(", trees)], ∀ t ∈ l.2, Expression t := by simpa using h
  exact .call hlists

theorem Statement.assignTree (hname : name ∉ fillers) (h : Expression tree) :
    Statement globals (assignTree name tree) :=
  .expression (.assignment (by decide) (.variable hname) h)

theorem Statement.printTree (h : Expression tree) : Statement globals (printTree tree) := .print h

theorem Element.declarationTree (hname : name ∉ fillers) (hparameters : ∀ t ∈ parameters, Parameter t)
    (h : ∀ t ∈ trees, Element globals t) : Element globals (declarationTree name parameters trees) :=
  .function hname (.given hparameters) h

theorem Element.plainDeclarationTree (hname : name ∉ fillers) (h : ∀ t ∈ trees, Element globals t) :
    Element globals (plainDeclarationTree name trees) :=
  .function hname (.missing (by decide)) h

end

end PageScript.Tree
