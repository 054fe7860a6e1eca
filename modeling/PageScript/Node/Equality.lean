/-
Equality of abstract trees.

Two nodes are the same if they are of one kind and their parts are the same.
A program and a function own their scope, so no two of them are the same;
neither are two foreign trees.
-/
import PageScript.Node

namespace PageScript.Node

mutual

def same : Node → Node → Bool
  | .sourceElements [] xs, .sourceElements [] ys => sameAll xs ys
  | .exprStatement x, .exprStatement y => same x y
  | .call f xs, .call g ys => same f g && same xs ys
  | .identifier x, .identifier y => x == y
  | .namedConstant x, .namedConstant y => x == y
  | .argumentList xs, .argumentList ys => sameAll xs ys
  | .array xs, .array ys => sameAll xs ys
  | .global xs, .global ys => sameAll xs ys
  | .member a i, .member b j => same a b && same i j
  | .constantInt x i, .constantInt y j => x == y && i == j
  | .constantFloat x i, .constantFloat y j => x == y && i == j
  | .constantText x i, .constantText y j => x == y && i == j
  | .interpolation x xs i, .interpolation y ys j => x == y && sameAll xs ys && i == j
  | .boolean x, .boolean y => x == y
  | .null, .null => true
  | .variable x i, .variable y j => x == y && i == j
  | .empty, .empty => true
  | .emptyExpression, .emptyExpression => true
  | .assignment x i r o p, .assignment y j s q u =>
    x == y && i == j && same r s && o == q && p == u
  | .memberAssignment a i r o p, .memberAssignment b j s q u =>
    same a b && same i j && same r s && o == q && p == u
  | .breakLoop x, .breakLoop y => same x y
  | .continueLoop x, .continueLoop y => same x y
  | .ifElse c x y, .ifElse d z w => same c d && same x z && same y w
  | .whileLoop c x, .whileLoop d y => same c d && same x y
  | .forLoop a b c d, .forLoop w x y z => same a w && same b x && same c y && same d z
  | .foreachLoop a b c d, .foreachLoop w x y z => same a w && same b x && same c y && same d z
  | .print x, .print y => same x y
  | .returnValue x, .returnValue y => same x y
  | .block xs, .block ys => sameAll xs ys
  | .binary o x y, .binary p z w => o == p && same x z && same y w
  | .not x, .not y => same x y
  | .both x y, .both z w => same x z && same y w
  | .either x y, .either z w => same x z && same y w
  | .absent, .absent => true
  | _, _ => false

def sameAll : List Node → List Node → Bool
  | [], [] => true
  | x :: xs, y :: ys => same x y && sameAll xs ys
  | _, _ => false

end

end PageScript.Node
