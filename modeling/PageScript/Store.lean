/-
The store.

Everything that values share or change is kept here, each kind in a pool of
its own: the items of lists, the entries of dictionaries, the cells of
references, the texts under construction, the states of iterations and the
code of functions.  A value holds the number of its entry.  Entries are added
at the end of a pool and never removed, so a number once given out stays
valid.
-/
import PageScript.Code.Bytecode
import PageScript.Entries

namespace PageScript

/-- An iteration: over which dictionary, along which keys, at which of them,
and where it ends. -/
structure Cursor where
  dict : Nat
  keys : List String
  index : Nat
  stop : Nat
  deriving Inhabited

/-- The pools, one for each kind of entry. -/
structure Store where
  lists : Array (Array Value) := #[]
  dicts : Array (Entries Value) := #[]
  /-- The cells of references; the copy of a reference starts without a value. -/
  refs : Array (Option Value) := #[]
  builders : Array String := #[]
  cursors : Array Cursor := #[]
  codes : Array Bytecode := #[]
  deriving Inhabited

namespace Store

def list (s : Store) (id : Nat) : Array Value := s.lists.getD id #[]

def dict (s : Store) (id : Nat) : Entries Value := s.dicts.getD id []

/-- The value in the cell of a reference, if it has one. -/
def ref (s : Store) (id : Nat) : Option Value := s.refs.getD id none

def builder (s : Store) (id : Nat) : String := s.builders.getD id ""

/-- The state of an iteration; one that is not there goes over nothing. -/
def cursor (s : Store) (id : Nat) : Cursor :=
  s.cursors.getD id { dict := s.dicts.size, keys := [], index := 0, stop := 0 }

def code (s : Store) (id : Nat) : Bytecode := s.codes.getD id default

def newList (s : Store) (items : Array Value) : Value × Store :=
  (.list s.lists.size, { s with lists := s.lists.push items })

def newDict (s : Store) (entries : Entries Value) : Value × Store :=
  (.dict s.dicts.size, { s with dicts := s.dicts.push entries })

def newRef (s : Store) (v : Value) : Value × Store :=
  (.ref s.refs.size, { s with refs := s.refs.push (some v) })

/-- A new reference, to a cell without a value. -/
def newEmptyRef (s : Store) : Value × Store :=
  (.ref s.refs.size, { s with refs := s.refs.push none })

def newConcat (s : Store) (text : String) : Value × Store :=
  (.concat s.builders.size text.length, { s with builders := s.builders.push text })

def newCursor (s : Store) (c : Cursor) : Value × Store :=
  (.cursor s.cursors.size, { s with cursors := s.cursors.push c })

def newCode (s : Store) (b : Bytecode) : Value × Store :=
  (.code s.codes.size, { s with codes := s.codes.push b })

def setList (s : Store) (id : Nat) (items : Array Value) : Store :=
  { s with lists := s.lists.setIfInBounds id items }

def setDict (s : Store) (id : Nat) (entries : Entries Value) : Store :=
  { s with dicts := s.dicts.setIfInBounds id entries }

def setRef (s : Store) (id : Nat) (v : Value) : Store :=
  { s with refs := s.refs.setIfInBounds id (some v) }

def appendTo (s : Store) (id : Nat) (text : String) : Store :=
  { s with builders := s.builders.setIfInBounds id (s.builder id ++ text) }

def setCursor (s : Store) (id : Nat) (c : Cursor) : Store :=
  { s with cursors := s.cursors.setIfInBounds id c }

/-- An upper bound for how deep arrays can nest without one of them being
inside itself. -/
def nesting (s : Store) : Nat := s.lists.size + s.dicts.size + 1

end Store

end PageScript
