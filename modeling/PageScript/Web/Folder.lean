/-
Files by path.

A `Folder` is given by its own path and the files in it.  A path is followed
step by step: every step but the last must lead to a folder, and the last to
a file.  So, other than in the normal form of paths, a step into a folder
that is not there leads nowhere, even if the next step goes up again.
-/
import PageScript.Fault
import PageScript.Web.Path

namespace PageScript

/-- Files by path: the content of a file, nothing if there is no such file, or
what goes wrong if there is no telling or the content is no text. -/
abbrev Files := String → Except Fault (Option String)

/-- A folder and the files in it. -/
structure Folder where
  /-- Where the folder is. -/
  path : String
  /-- The files by their paths within the folder, with their contents. -/
  files : List (String × String)

namespace Folder

/-- The steps of a path that lead somewhere. -/
def steps (path : String) : List (List Char) :=
  (Text.splitAt '/' path.toList).filter fun step => step ≠ [] ∧ step ≠ ['.']

/-- The files by the steps that lead to them from the top. -/
def places (f : Folder) : List (List (List Char) × String) :=
  f.files.map fun (name, content) => (steps f.path ++ steps name, content)

/-- Whether steps from the top lead to a folder. -/
def hasFolder (f : Folder) (place : List (List Char)) : Bool :=
  place.isPrefixOf (steps f.path) ||
    f.places.any fun (p, _) => place.isPrefixOf p && place.length < p.length

/-- Where further steps lead from a place, if they lead through folders. -/
def follow (f : Folder) (place : List (List Char)) :
    List (List Char) → Option (List (List Char))
  | [] => some place
  | step :: rest =>
    if f.hasFolder place then
      if step = [] ∨ step = ['.'] then f.follow place rest
      else if step = ['.', '.'] then f.follow place.dropLast rest
      else f.follow (place ++ [step]) rest
    else none

/-- The content of the file that a path leads to, as seen from the folder. -/
def read (f : Folder) : Files := fun path =>
  if Path.isBroken path then .error .malformedPath
  else
    let start := if path.startsWith "/" then [] else steps f.path
    match f.follow start (Text.splitAt '/' path.toList) with
    | none => .ok none
    | some place => .ok (f.places.lookup place)

end Folder

end PageScript
