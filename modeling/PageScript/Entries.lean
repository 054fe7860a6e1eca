/-
Entries of a dictionary.

Entries keep the order in which their keys came.  Putting a value at a key
that is there replaces the value and keeps the place of the key.
-/
namespace PageScript

/-- Values under texts as keys, in order. -/
abbrev Entries (α : Type) := List (String × α)

namespace Entries

variable {α : Type}

def get? (es : Entries α) (key : String) : Option α := es.lookup key

/-- The entries with a value at a key: in its place if the key is there, and
at the end if not. -/
def put (es : Entries α) (key : String) (v : α) : Entries α :=
  match es with
  | [] => [(key, v)]
  | (k, old) :: rest => if k = key then (k, v) :: rest else (k, old) :: put rest key v

def keys (es : Entries α) : List String := es.map Prod.fst

def putAll (es : Entries α) (new : List (String × α)) : Entries α :=
  new.foldl (fun es (key, v) => es.put key v) es

end Entries

end PageScript
