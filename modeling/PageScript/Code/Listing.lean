/-
Listings of code.

The functions that code declares come first, each with an empty line after
it; then a heading, and the instructions numbered from zero.  The heading of
a page is its name; any other code shows its parameters, those passed by
reference with an `&`.
-/
import PageScript.Code.Bytecode
import PageScript.Text.Quoted
import PageScript.Text.Split

namespace PageScript.Bytecode

def occursIn (needle : List Char) : List Char → Bool
  | [] => needle.isEmpty
  | c :: cs => needle.isPrefixOf (c :: cs) || occursIn needle cs

/-- A page is code whose name says so. -/
def isPageName (name : String) : Bool := occursIn ".php".toList name.toList

def heading (name : String) (parameters : List (String × Bool)) : String :=
  if isPageName name then name ++ ":"
  else
    let shown := parameters.map fun (p, byValue) => if byValue then p else "&" ++ p
    name ++ "(" ++ ", ".intercalate shown ++ "):"

def numbered (n : Nat) : List (Instr Nat Bytecode) → List String
  | [] => []
  | i :: is => (toString n ++ ": " ++ i.text) :: numbered (n + 1) is

theorem sizeOf_lt_of_mem_listing {name : String} {f b : Bytecode}
    (h : Instr.declareFunction name f ∈ b.listing.toList) : sizeOf f < sizeOf b := by
  have h₁ := List.sizeOf_lt_of_mem h
  have h₂ : sizeOf (Instr.declareFunction (L := Nat) name f) = 1 + sizeOf name + sizeOf f := rfl
  have h₃ : sizeOf b.listing = 1 + sizeOf b.listing.toList := rfl
  have h₄ : sizeOf b.listing < sizeOf b := by
    cases b
    simp only [Bytecode.mk.sizeOf_spec]
    omega
  omega

def lines (b : Bytecode) : List String :=
  (b.listing.toList.attach.flatMap fun
    | ⟨.declareFunction name f, h⟩ =>
      have : sizeOf f < sizeOf b := sizeOf_lt_of_mem_listing h
      ["Function " ++ Text.unlines f.lines, ""]
    | _ => []) ++
    heading b.name b.parameters :: numbered 0 b.listing.toList
termination_by sizeOf b

def text (b : Bytecode) : String := Text.unlines b.lines

/-- An instruction that is run, with its position, as a place in the
code. -/
def placeText (pos : Nat) (i : Instr Nat Bytecode) : String :=
  toString pos ++ ": " ++ Text.quoteBytes i.text

end PageScript.Bytecode
