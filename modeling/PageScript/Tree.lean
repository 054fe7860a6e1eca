/-
Parse trees.

A leaf has a symbol and the text it was read from, a branch a symbol and
children.  `Tree.ofSource` reads the two source texts that need no grammar:
a single variable and a single run of digits, each with or without a
semicolon.
-/
import PageScript.Fault
import PageScript.Text.Blank
import PageScript.Text.Digit
import PageScript.Literal.Variables

namespace PageScript

/-- A parse tree. -/
inductive Tree where
  | leaf (symbol text : String)
  | branch (symbol : String) (children : List Tree)
  deriving Inhabited

namespace Tree

def symbol : Tree → String
  | .leaf symbol _ => symbol
  | .branch symbol _ => symbol

/-- The text of a leaf; a branch has none. -/
def text : Tree → String
  | .leaf _ text => text
  | .branch _ _ => ""

/-- The children of a branch; a leaf has none. -/
def children : Tree → List Tree
  | .leaf _ _ => []
  | .branch _ children => children

def isLeaf : Tree → Bool
  | .leaf _ _ => true
  | .branch _ _ => false

/-- The symbol of leaves that only spell a token. -/
def tokenSymbol : String := "__tok__"

def ofExpression (expression : Tree) : Tree :=
  .branch "main" [.branch "sourceelements" [.branch "expressionstatement" [expression]]]

def dropSemicolon (cs : List Char) : List Char :=
  if cs.getLast? = some ';' then cs.dropLast else cs

/-- Reads a source text: one variable or one run of digits, with white space
around it and a semicolon after it. -/
def ofSource (source : String) : Except Fault Tree :=
  let cs := dropSemicolon (Text.trimBy Text.isBlank source.toList)
  match Literal.variableName? cs with
  | some name => .ok (ofExpression (.leaf "VARIABLENAME" (String.ofList name)))
  | none =>
    if !cs.isEmpty && cs.all Text.isDigit then
      .ok (ofExpression (.branch "numericliteral" [.leaf tokenSymbol (String.ofList cs)]))
    else .error .unreadable

end Tree

end PageScript
