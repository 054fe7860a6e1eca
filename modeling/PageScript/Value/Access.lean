/-
Operations on texts, arrays, references and iterations.

An operation takes the store and gives a result, with the new store if it
changes one.  A place before the start of a sequence counts from its end.
Storing at a text key, or at any key that is no integer, turns a list into a
dictionary: a new array, while the list stays as it was.
-/
import PageScript.Value.Text
import PageScript.Value.Arithmetic

namespace PageScript.Store

/-- The place in a sequence of `size` items that an index means: from the
start if it is not negative, else from the end. -/
def place? (size : Nat) (i : Int) : Option Nat :=
  if 0 ≤ i then if i.toNat < size then some i.toNat else none
  else if -(size : Int) ≤ i then some (size + i).toNat else none

def lengthOf (s : Store) : Value → Except Fault Nat
  | .text t => .ok t.length
  | .concat _ n => .ok n
  | .list id => .ok (s.list id).size
  | .dict id => .ok (s.dict id).length
  | _ => .error .noOperation

def charAt (t : String) (i : Int) : Except Fault Value :=
  match (place? t.length i).bind fun n => t.toList[n]? with
  | some c => .ok (.text (String.ofList [c]))
  | none => .error .outOfRange

def missingKey (s : Store) (key array : Value) : Except Fault Value := do
  let k ← s.mentionOf key
  let a ← s.mentionOf array
  throw (.complaint (.missingKey k a))

/-- An element of an array or a text. -/
def getMember (s : Store) (v key : Value) : Except Fault Value :=
  match v with
  | .text t =>
    match key with
    | .int i => charAt t i
    | _ => .error .checkFailed
  | .concat id _ => do charAt (s.builder id) (← key.getInt)
  | .list id =>
    match key with
    | .int i =>
      match (place? (s.list id).size i).bind fun n => (s.list id)[n]? with
      | some element => .ok element
      | none => .error .outOfRange
    | key => s.missingKey key (.list id)
  | .dict id => do
    let k ← s.textOf key
    match (s.dict id).get? k with
    | some element => return element
    | none => s.missingKey key (.dict id)
  | _ => .error .noOperation

/-- The items of a list with a value at an index: beyond the end, nulls fill
the gap. -/
def putItem (items : Array Value) (i : Int) (v : Value) : Except Fault (Array Value) :=
  match place? items.size i with
  | some n => .ok (items.setIfInBounds n v)
  | none =>
    if i < 0 then .error .outOfRange
    else
      let gap := i - items.size
      if wordLimit - 1 ≤ gap then .error .tooLarge
      else .ok ((items ++ Array.replicate gap.toNat Value.null).push v)

/-- Stores an element into an array; the result is the array, which is a new
one if a list became a dictionary. -/
def putMember (s : Store) (v key element : Value) : Except Fault (Value × Store) :=
  match v with
  | .list id =>
    match key with
    | .int i => do
      let items ← putItem (s.list id) i element
      return (.list id, s.setList id items)
    | key => do
      let k ← s.textOf key
      return s.newDict ((listEntries (s.list id)).put k element)
  | .dict id => do
    let k ← s.textOf key
    return (.dict id, s.setDict id ((s.dict id).put k element))
  | _ => .error .noOperation

/-- An array as a dictionary. -/
def toDict (s : Store) : Value → Except Fault (Value × Store)
  | .list id => .ok (s.newDict (listEntries (s.list id)))
  | _ => .error .noOperation

/-- An iteration over the present keys of a dictionary. -/
def iterateDict (s : Store) (id : Nat) : Value × Store :=
  let keys := (s.dict id).keys
  s.newCursor { dict := id, keys := keys, index := 0, stop := keys.length }

/-- A new iteration over an array; that over a list goes over a copy. -/
def iterate (s : Store) : Value → Except Fault (Value × Store)
  | .list id =>
    let copy := s.newDict (listEntries (s.list id))
    .ok (copy.2.iterateDict s.dicts.size)
  | .dict id => .ok (s.iterateDict id)
  | _ => .error .noOperation

/-- The key an iteration stands at; past its last key it is this one. -/
def pastEndKey : String := "-1"

def currentKey (c : Cursor) : String := c.keys[c.index]?.getD pastEndKey

/-- The element an iteration stands at, as it is now. -/
def currentElement (s : Store) (c : Cursor) : Except Fault Value :=
  match (s.dict c.dict).get? (currentKey c) with
  | some v => .ok v
  | none => .error .missingEntry

/-- Moves an iteration on; answers the element it stood at. -/
def nextElement (s : Store) (id : Nat) : Except Fault (Value × Store) := do
  let c := s.cursor id
  let v ← s.currentElement c
  return (v, s.setCursor id { c with index := c.index + 1 })

/-- The text of one value and then of another, under construction.  A text
under construction grows itself, for all that share it. -/
def concatenate (s : Store) (left right : Value) : Except Fault (Value × Store) :=
  match left with
  | .text t => do
    let u ← s.textOf right
    return s.newConcat (t ++ u)
  | .concat id _ => do
    let u ← s.textOf right
    let s := s.appendTo id u
    return (.concat id (s.builder id).length, s)
  | _ => .error .noOperation

/-- The parts of a template with its gaps filled in turn. -/
def fill (s : Store) : List (Option String) → List Value → Except Fault (List String)
  | [], _ => .ok []
  | some t :: parts, vs => do return t :: (← s.fill parts vs)
  | none :: _, [] => .error .outOfRange
  | none :: parts, v :: vs => do
    let t ← s.textOf v
    return t :: (← s.fill parts vs)

def substitute (s : Store) (v : Value) (fillers : List Value) : Except Fault Value :=
  match v with
  | .template parts => do return .text (String.join (← s.fill parts fillers))
  | _ => .error .noOperation

/-- A copy of a value: an array gets items of its own, which are the same
values.  A text under construction cannot be copied, and of references,
iterations, templates and functions only the kind is: the copy of a reference
has a cell without a value. -/
def copy (s : Store) : Value → Except Fault (Value × Store)
  | .unset => .error .noOperation
  | .datum _ => .error .noOperation
  | .concat _ _ => .error .noOperation
  | .list id => .ok (s.newList (s.list id))
  | .dict id => .ok (s.newDict (s.dict id))
  | .ref _ => .ok s.newEmptyRef
  | .cursor _ => .ok (.hollow .cursor, s)
  | .template _ => .ok (.hollow .template, s)
  | .native _ => .ok (.hollow .native, s)
  | .code _ => .ok (.hollow .code, s)
  | v => .ok (v, s)

/-- What a value stands for: a reference for what is in its cell, any other
value for itself. -/
def valueOf (s : Store) : Value → Except Fault Value
  | .unset => .error .noOperation
  | .datum _ => .error .noOperation
  | .ref id =>
    match s.ref id with
    | some v => .ok v
    | none => .error .noOperation
  | v => .ok v

/-- Plain data as a value of the script; nothing becomes null. -/
def wrap : Value → Except Fault Value
  | .unset => .ok .null
  | .datum (.truth b) => .ok (.bool b)
  | .datum (.int n) => .ok (.int n)
  | .datum (.float x) => .ok (.float x)
  | .datum (.text t) => .ok (.text t)
  | .datum (.items id) => .ok (.list id)
  | .datum .other => .error .wrongArguments
  | v => .ok v

end PageScript.Store
