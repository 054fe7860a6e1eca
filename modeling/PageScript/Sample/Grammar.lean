/-
A parse tree with every rule.

The tree uses each rule of the grammar at least once.  Its last statement is
a loop over values alone; before it, further statements can be added to make
the tree longer.
-/
import PageScript.Tree

namespace PageScript.Sample

def token (t : String) : Tree := .leaf Tree.tokenSymbol t

def numeral (t : String) : Tree := .branch "numericliteral" [.leaf "DECIMALLITERAL" t]

def truthLiteral (word : String) : Tree := .branch "booleanliteral" [token word]

def variableTree (name : String) : Tree := .leaf "VARIABLENAME" name

def nameTree (name : String) : Tree := .leaf "IDENTIFIERNAME" name

def doubleText (t : String) : Tree := .leaf "DOUBLESTRING" ("\"" ++ t ++ "\"")

def expressionTree (t : Tree) : Tree := .branch "expressionstatement" [t]

def operatorTree (rule op : String) (left right : Tree) : Tree :=
  .branch rule [left, token op, right]

def elementTree (base index : Tree) : Tree := operatorTree "memberexpression" "[" base index

def printTree (t : Tree) : Tree := .branch "printstatement" [token "print", t]

def assignTree (name : String) (t : Tree) : Tree :=
  expressionTree (operatorTree "assignmentexpression" "=" (variableTree name) t)

def callTree (name : String) (arguments : List Tree) : Tree :=
  .branch "callexpression" [nameTree name, .branch "arguments" (token "(" :: arguments)]

def blockTree (statements : List Tree) : Tree := .branch "block" (token "\x7b" :: statements)

def whileLoopTree (condition body : Tree) : Tree :=
  .branch "iterationstatement" [.branch "whiles" [token "while", condition, body]]

def declarationTree (name : String) (parameters elements : List Tree) : Tree :=
  .branch "functiondeclaration" [nameTree name, token "(", .branch "formalparameterlist" parameters,
    token ")", .branch "sourceelements" elements, token "\x7d"]

def plainDeclarationTree (name : String) (elements : List Tree) : Tree :=
  .branch "functiondeclaration" [nameTree name, token "(", token ")",
    .branch "sourceelements" elements, token "\x7d"]

def parameterTree (name : String) : Tree :=
  .branch "formalparameterlistparam" [variableTree name]

def referenceTree (name : String) : Tree :=
  .branch "formalparameterlistparam" [token "&", variableTree name]

def globalTree (name : String) : Tree :=
  .branch "globalstatement" [token "global", .branch "globallist" [variableTree name]]

def programTree (elements : List Tree) : Tree := .branch "main" [.branch "sourceelements" elements]

def operatorRules : List (String × String) := [
  ("additiveexpression", "+"), ("additiveexpression", "-"),
  ("multiplicativeexpression", "*"), ("multiplicativeexpression", "/"),
  ("multiplicativeexpression", "%"),
  ("relationalexpression", ">"), ("relationalexpression", "<"),
  ("relationalexpression", ">="), ("relationalexpression", "<="),
  ("equalityexpression", "=="),
  ("shiftexpression", ">>"), ("shiftexpression", "<<"), ("shiftexpression", ">>>"),
  ("logicalorexpression", "||"), ("logicalandexpression", "&&"),
  ("stringjoinexpression", "."), ("expression", ",")]

def simpleStatements : List Tree := [
  expressionTree (truthLiteral "true"),
  expressionTree (truthLiteral "false"),
  expressionTree (.branch "nullliteral" [token "null"]),
  expressionTree (numeral "42"),
  expressionTree (numeral "3.14"),
  expressionTree (numeral "1e400"),
  expressionTree (.leaf "SINGLESTRING" "\x27hello\x27"),
  expressionTree (doubleText "plain double"),
  expressionTree (doubleText "val $x end"),
  expressionTree (.branch "constantexpression" [nameTree "PI"]),
  expressionTree (.branch "arrayliteral" [token "[", numeral "1", numeral "2"]),
  expressionTree (operatorTree "assignmentexpression" "=" (variableTree "$x") (numeral "1")),
  expressionTree (operatorTree "assignmentexpression" "="
    (elementTree (variableTree "$arr") (numeral "0")) (numeral "1")),
  expressionTree (.branch "postfixexpression" [variableTree "$x", token "++"]),
  expressionTree (.branch "postfixexpression"
    [elementTree (variableTree "$arr") (numeral "0"), token "--"]),
  expressionTree (.branch "unaryexpression" [token "++", variableTree "$x"]),
  expressionTree (.branch "unaryexpression" [token "!", truthLiteral "true"])]

def operatorStatements : List Tree :=
  operatorRules.map fun (rule, op) =>
    expressionTree (operatorTree rule op (numeral "1") (numeral "2"))

def eachLoop (rule : String) (targets : List Tree) : Tree :=
  .branch "iterationstatement" [.branch rule
    ([token "foreach", variableTree "$arr"] ++ targets ++
      [expressionTree (variableTree "$v")])]

/-- A loop with a condition; it ends and goes on at once. -/
def whileTree : Tree :=
  .branch "iterationstatement" [.branch "whiles" [token "while", truthLiteral "false",
    .branch "block" [token "\x7b",
      .branch "breakstatement" [],
      .branch "continuestatement" []]]]

def countingLoop : Tree :=
  .branch "iterationstatement" [.branch "regularfor" [token "for",
    operatorTree "assignmentexpression" "=" (variableTree "$i") (numeral "0"), token ";",
    operatorTree "relationalexpression" "<" (variableTree "$i") (numeral "3"), token ";",
    .branch "postfixexpression" [variableTree "$i", token "++"], token ")",
    expressionTree (variableTree "$i"), token "\x7d"]]

def endlessLoop : Tree :=
  .branch "iterationstatement" [.branch "regularfor"
    [token "for", token ";", token ";", token ")", token "\x7d"]]

def functionTree : Tree :=
  .branch "functiondeclaration" [nameTree "foo", token "(",
    .branch "formalparameterlist" [
      .branch "parameter" [variableTree "$a"],
      .branch "parameter" [token "&", variableTree "$b"]],
    token ")",
    .branch "sourceelements" [.branch "returnstatement" [variableTree "$a"]], token "\x7d"]

def compoundStatements : List Tree := [
  expressionTree (.branch "callexpression"
    [nameTree "strlen", .branch "arguments" [token "(", doubleText "abc"]]),
  .branch "printstatement" [token "print", doubleText "hi"],
  .branch "ifstatement" [truthLiteral "true", expressionTree (numeral "1")],
  .branch "ifstatement" [truthLiteral "false", expressionTree (numeral "1"),
    expressionTree (numeral "2")],
  expressionTree (.branch "conditionalexpression"
    [truthLiteral "true", token "?", numeral "1", numeral "2"]),
  whileTree, countingLoop, endlessLoop,
  eachLoop "keyforeach" [variableTree "$k", variableTree "$v"],
  functionTree,
  .branch "returnstatement" []]

def statementTrees : List Tree :=
  simpleStatements ++ operatorStatements ++ compoundStatements

def fillerTree : Tree :=
  expressionTree (operatorTree "additiveexpression" "+" (variableTree "$x") (numeral "1"))

def grammar (n : Nat) : Tree :=
  .branch "main" [.branch "sourceelements"
    (statementTrees ++ List.replicate (n - statementTrees.length) fillerTree ++
      [eachLoop "foreach" [variableTree "$v"]])]

end PageScript.Sample
