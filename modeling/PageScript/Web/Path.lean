/-
Paths of files.

`normalize` works on the text alone: it leaves out empty steps and steps to
the folder itself, and lets a step up cancel the step before it.  Two slashes
at the start stay two, any other number of them becomes one.
-/
import PageScript.Text.Split

namespace PageScript.Path

/-- The steps of a path, from the last to the first, after `done`. -/
def walk (rooted : Bool) (done : List (List Char)) : List (List Char) → List (List Char)
  | [] => done
  | step :: steps =>
    if step = [] ∨ step = ['.'] then walk rooted done steps
    else if step = ['.', '.'] then
      match done with
      | [] => if rooted then walk rooted [] steps else walk rooted [step] steps
      | last :: before =>
        if last = ['.', '.'] then walk rooted (step :: last :: before) steps
        else walk rooted before steps
    else walk rooted (step :: done) steps

/-- The slashes that a normal path keeps of those at its start. -/
def leadingSlashes : List Char → List Char
  | '/' :: '/' :: '/' :: _ => ['/']
  | '/' :: '/' :: _ => ['/', '/']
  | '/' :: _ => ['/']
  | _ => []

/-- The normal form of a path. -/
def normalize (path : String) : String :=
  let cs := path.toList
  let slashes := leadingSlashes cs
  let steps := (walk (!slashes.isEmpty) [] (Text.splitAt '/' cs)).reverse
  match slashes ++ Text.joinWith ['/'] steps with
  | [] => "."
  | cs => String.ofList cs

/-- A path as seen from a folder. -/
def join (folder path : String) : String :=
  if path.startsWith "/" ∨ folder.isEmpty then path
  else if folder.endsWith "/" then folder ++ path
  else folder ++ "/" ++ path

/-- The normal form of a path as seen from a folder. -/
def absolute (folder path : String) : String := normalize (join folder path)

/-- Whether a path has a zero character, and so cannot be asked for at all. -/
def isBroken (path : String) : Bool := path.toList.contains (Char.ofNat 0)

end PageScript.Path
