/-
Requests.

A request is a line of words: a method, then a path that may carry a query
after a question mark.  The path `/` means the index page.  Of a query only
what stands before a second question mark counts; of equal names in it the
last value counts, at the place of the first.
-/
import PageScript.Entries
import PageScript.Fault
import PageScript.Text.Split

namespace PageScript

/-- A page that is asked for. -/
structure Request where
  filename : String
  query : Entries String
  deriving Repr

namespace Request

/-- The page that stands for the whole site. -/
def indexPage : String := "/index.php"

/-- A name and its value in a query; a missing value is empty. -/
def parameter (cs : List Char) : String × String :=
  let (name, v) := Text.cutFirst '=' cs
  (String.ofList name, String.ofList (v.getD []))

def unpackQuery (query : List Char) : Entries String :=
  Entries.putAll [] ((Text.splitAt '&' query).map parameter)

def ofPath (path : List Char) : Request :=
  let pieces := Text.splitAt '?' path
  let filename := String.ofList (pieces.headD [])
  { filename := if filename = "/" then indexPage else filename
    query := match pieces[1]? with
      | none => []
      | some query => unpackQuery query }

/-- Reads the first line of a request. -/
def parse (line : String) : Except Fault Request :=
  let words := Text.splitAt ' ' line.toList
  let method := String.ofList (words.headD [])
  if method = "GET" ∨ method = "HEAD" then
    match words[1]? with
    | none => .error .outOfRange
    | some path => .ok (ofPath path)
  else .error (.complaint (.unknownMethod method))

def dropLineEnds (cs : List Char) : List Char :=
  (cs.reverse.dropWhile (· = '\n')).reverse

def read (size : Nat) (message : String) : Except Fault Request :=
  match dropLineEnds (message.toList.take size) with
  | [] => .error (.complaint .emptyRequest)
  | line => parse (String.ofList line)

end Request

end PageScript
