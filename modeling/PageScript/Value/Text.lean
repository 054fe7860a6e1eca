/-
The text of a value.

* `textOf` is what printing shows: numbers in decimal, a text itself, words
  for truth values and null, `Array` for any array, and nothing at all for
  references, functions and the like.
* `fullTextOf` also writes out the entries of arrays, nested ones indented by
  a tab.  Of a text with line ends it keeps only the first line, or all but
  the last line if there are three or more.
* `displayOf` names the kind of a value along with its content; complaints
  show keys and arrays in this way.
-/
import PageScript.Store
import PageScript.Decimal.Shortest
import PageScript.Text.Split
import PageScript.Text.Quoted

namespace PageScript.Store

/-- What printing a value shows. -/
def textOf (s : Store) : Value → Except Fault String
  | .unset => .error .noOperation
  | .null => .ok "null"
  | .bool b => .ok (if b then "true" else "false")
  | .int n => .ok (toString n)
  | .float x => .ok (Decimal.floatText x)
  | .text t => .ok t
  | .concat id _ => .ok (s.builder id)
  | .list _ => .ok "Array"
  | .dict _ => .ok "Array"
  | .ref _ => .ok ""
  | .cursor _ => .ok ""
  | .template _ => .ok ""
  | .native _ => .ok ""
  | .code _ => .ok ""
  | .hollow _ => .ok ""
  | .datum _ => .error .noOperation

/-- A text inside an array: its first line, and if there are three lines or
more also those up to the last, indented. -/
def nested (t : String) : String :=
  let lines := Text.lines t
  let inner := (lines.drop 1).dropLast
  Text.unlines (lines.headD "" :: inner.map ("\t" ++ ·))

def entryText (key value : String) : String :=
  "\t[" ++ key ++ "] => " ++ nested value ++ "\n"

def arrayText (entries : List (String × String)) : String :=
  "Array\n(\n" ++ String.join (entries.map fun (k, v) => entryText k v) ++ ")\n"

def numberedFrom (n : Nat) : List Value → Entries Value
  | [] => []
  | v :: vs => (toString n, v) :: numberedFrom (n + 1) vs

def listEntries (items : Array Value) : Entries Value := numberedFrom 0 items.toList

/-- The full text of a value, with arrays nested less than `depth` deep. -/
def fullTextWithin (s : Store) : Nat → Value → Except Fault String
  | 0, _ => .error .tooDeep
  | depth + 1, .list id => do
    let entries ← (listEntries (s.list id)).mapM fun (k, v) => do
      return (k, ← fullTextWithin s depth v)
    return arrayText entries
  | depth + 1, .dict id => do
    let entries ← (s.dict id).mapM fun (k, v) => do
      return (k, ← fullTextWithin s depth v)
    return arrayText entries
  | _ + 1, v => s.textOf v

/-- The text of a value with all entries. -/
def fullTextOf (s : Store) (v : Value) : Except Fault String :=
  s.fullTextWithin (s.nesting + 1) v

def datumText : Datum → String
  | .truth b => if b then "True" else "False"
  | .int n => toString n
  | .float x => Decimal.floatText x
  | .text t => Text.quote t
  | .items _ => "[...]"
  | .other => "\x7b\x7d"

def partText : Option String → String
  | some t => Text.quote t
  | none => "None"

/-- How a value without a text of its own is shown. -/
def plainDisplay (kind : String) : String := "<pyhp.datatypes." ++ kind ++ " object>"

/-- A value with its kind, looking through less than `depth` references. -/
def displayWithin (s : Store) : Nat → Value → Except Fault String
  | 0, _ => .error .tooDeep
  | _ + 1, .unset => .ok "None"
  | _ + 1, .null => .ok (plainDisplay "W_Null")
  | _ + 1, .bool _ => .ok (plainDisplay "W_Boolean")
  | _ + 1, .int n => .ok ("W_IntObject(" ++ toString n ++ ")")
  | _ + 1, .float x => .ok ("W_FloatObject(" ++ Decimal.floatText x ++ ")")
  | _ + 1, .text t => .ok ("W_StringObject(" ++ t ++ ")")
  | _ + 1, .concat id _ => .ok ("W_ConcatStringObject(" ++ s.builder id ++ ")")
  | _ + 1, .list id => do
    return "W_ListArray(" ++ (← s.fullTextOf (.list id)) ++ ")"
  | _ + 1, .dict id => do
    return "W_DictArray(" ++ (← s.fullTextOf (.dict id)) ++ ")"
  | depth + 1, .ref id => do
    let inner ← match s.ref id with
      | none => throw .noOperation
      | some (.datum (.text t)) => pure t
      | some v => displayWithin s depth v
    return "W_Reference(" ++ inner ++ ")"
  | _ + 1, .cursor _ => .ok (plainDisplay "W_Iterator")
  | _ + 1, .template parts =>
    .ok ("W_StringSubstitution([" ++ ", ".intercalate (parts.map partText) ++ "])")
  | _ + 1, .native f => .ok ("W_NativeFunction(" ++ f.name ++ ")")
  | _ + 1, .code id => .ok ("W_CodeFunction(" ++ (s.code id).name ++ ")")
  | _ + 1, .hollow .cursor => .ok (plainDisplay "W_Iterator")
  | _ + 1, .hollow _ => .error .noOperation
  | depth + 1, .datum (.items id) => do
    let items ← (s.list id).toList.mapM fun v => displayWithin s depth v
    return "[" ++ ", ".intercalate items ++ "]"
  | _ + 1, .datum d => .ok (datumText d)

/-- A value with the name of its kind. -/
def displayOf (s : Store) (v : Value) : Except Fault String :=
  s.displayWithin (s.refs.size + s.lists.size + 2) v

/-- A value with its kind where it stands in a sentence: plain text is not
quoted there. -/
def mentionOf (s : Store) : Value → Except Fault String
  | .datum (.text t) => .ok t
  | v => s.displayOf v

end PageScript.Store
