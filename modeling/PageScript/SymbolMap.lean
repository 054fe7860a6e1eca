/-
Ordered names.

A `SymbolMap` is what is reached from the root by adding names one after
another: each name is numbered by its place, and a map never changes once it
is there.  Adding a name gives a new map that knows one name more; a name is
added once only.
-/
import PageScript.Fault

namespace PageScript

/-- The root, or a map with one more name. A name can be absent, as the
root's is. -/
inductive SymbolMap where
  | root
  | node (back : SymbolMap) (name : Option String)
  deriving DecidableEq, Repr, Inhabited

namespace SymbolMap

/-- The answer for a name that is not there. -/
def notFound : Int := -1

/-- The number of the name added last; the root has none. -/
def index : SymbolMap → Int
  | .root => notFound
  | .node back _ => back.index + 1

def size (m : SymbolMap) : Int := m.index + 1

def lookup (m : SymbolMap) (name : Option String) : Int :=
  match m with
  | .root => notFound
  | .node back last => if last = name then back.index + 1 else back.lookup name

def contains (m : SymbolMap) (name : Option String) : Bool := m.lookup name != notFound

/-- The map with one more name, which must not be there yet. -/
def add (m : SymbolMap) (name : Option String) : Except Fault SymbolMap :=
  if m.lookup name = notFound then .ok (.node m name) else .error .checkFailed

def insert (m : SymbolMap) (name : String) : SymbolMap :=
  if m.lookup (some name) = notFound then .node m (some name) else m

/-- The names in the order in which they were added. -/
def names : SymbolMap → List (Option String)
  | .root => []
  | .node back name => back.names ++ [name]

/-- All the names with their numbers, the root's first. -/
def text : SymbolMap → String
  | .root => "[-1]:None"
  | .node back name =>
    back.text ++ ", [" ++ toString (back.index + 1) ++ "]:" ++ name.getD "None"

theorem index_eq (m : SymbolMap) : m.index = (m.names.length : Int) - 1 := by
  induction m with
  | root => rfl
  | node back name ih =>
    simp only [index, names, ih, List.length_append, List.length_cons, List.length_nil]
    omega

theorem size_eq (m : SymbolMap) : m.size = m.names.length := by
  rw [size, index_eq]
  omega

end SymbolMap

end PageScript
