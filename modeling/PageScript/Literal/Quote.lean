/-
The quotes around a string literal.

A literal is written in single or in double quotes; only in double quotes
are variables replaced.
-/
import PageScript.Fault

namespace PageScript.Literal

inductive Quoting where
  | single
  | double
  deriving DecidableEq, Repr

def Quoting.mark : Quoting → Char
  | .single => '\x27'
  | .double => '\x22'

/-- The text between the quotes of a literal.  A literal that starts with a
double quote has to end in one; any other has to start with and end in a
single quote.  One quote alone is both its start and its end. -/
def unquote (cs : List Char) : Except Fault (List Char × Quoting) :=
  let q : Quoting := if cs.head? = some Quoting.double.mark then .double else .single
  if cs.head? = some q.mark ∧ cs.getLast? = some q.mark then .ok (cs.dropLast.drop 1, q)
  else .error .checkFailed

end PageScript.Literal
