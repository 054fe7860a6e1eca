/-
Scopes.

A scope is what one program or one function declares: its symbols with
their slots, which of them are variables, globals and parameters, the slots
of the superglobals it names, and its pool of constants.  A constant enters
the pool once: equal integers, equal reals and equal texts share an entry,
templates never do.
-/
import PageScript.SymbolMap
import PageScript.Value

namespace PageScript

/-- The variables that exist in every scope that names them. -/
def superglobalNames : List String := ["$_GET", "$_POST"]

/-- What one program or function declares. -/
structure Scope where
  /-- Every symbol, with its slot. -/
  symbols : SymbolMap := .root
  /-- The variables, in order of appearance. -/
  varNames : List String := []
  /-- The names declared global, with their slots. -/
  globals : List (String × Int) := []
  /-- The parameters, each with whether it is passed by value. -/
  parameters : List (String × Bool) := []
  /-- The slot of each superglobal, or -1 where it is not named. -/
  superglobals : List Int := superglobalNames.map fun _ => SymbolMap.notFound
  constants : List Value := []
  deriving Inhabited

namespace Scope

/-- A list with an item at its end unless it is in it. -/
def appendNew {α : Type} [BEq α] (xs : List α) (x : α) : List α :=
  if xs.contains x then xs else xs ++ [x]

/-- Declares a symbol; answers its slot. -/
def addSymbol (s : Scope) (name : String) : Int × Scope :=
  let symbols := s.symbols.insert name
  (symbols.lookup (some name), { s with symbols := symbols })

/-- Notes the slot of a superglobal. -/
def noteSuperglobal (slots : List Int) (name : String) (slot : Int) : List Int :=
  (superglobalNames.zip slots).map fun (n, old) => if n = name then slot else old

def addVariable (s : Scope) (name : String) : Int × Scope :=
  let (slot, s) := s.addSymbol name
  (slot, { s with
    varNames := appendNew s.varNames name
    superglobals := noteSuperglobal s.superglobals name slot })

def addGlobal (s : Scope) (name : String) : Int × Scope :=
  let (slot, s) := s.addSymbol name
  (slot, { s with globals := appendNew s.globals (name, slot) })

def addParameter (s : Scope) (name : String) (byValue : Bool) : Int × Scope :=
  let (slot, s) := s.addSymbol name
  (slot, { s with parameters := appendNew s.parameters (name, byValue) })

/-- The scope of code with these parameters, variables, globals and
constants. -/
def ofNames (parameters : List (String × Bool)) (varNames globals : List String)
    (constants : List Value) : Scope :=
  let s := parameters.foldl (fun s (name, byValue) => (s.addParameter name byValue).2)
    ({ constants := constants } : Scope)
  let s := varNames.foldl (fun s name => (s.addVariable name).2) s
  globals.foldl (fun s name => (s.addGlobal name).2) s

/-- Puts a constant into the pool unless one for which `same` holds is there;
answers its place. -/
def addConstant (s : Scope) (same : Value → Bool) (v : Value) : Nat × Scope :=
  match s.constants.findIdx? same with
  | some i => (i, s)
  | none => (s.constants.length, { s with constants := s.constants ++ [v] })

def addInt (s : Scope) (n : Int) : Nat × Scope :=
  s.addConstant (fun | .int m => m == n | _ => false) (.int n)

/-- Puts a real number into the pool; zeros of both signs are equal, and what
is no number equals nothing. -/
def addFloat (s : Scope) (x : Float) : Nat × Scope :=
  s.addConstant (fun | .float y => y == x | _ => false) (.float x)

def addText (s : Scope) (t : String) : Nat × Scope :=
  s.addConstant (fun | .text u => u == t | _ => false) (.text t)

def addTemplate (s : Scope) (parts : List (Option String)) : Nat × Scope :=
  s.addConstant (fun _ => false) (.template parts)

end Scope

end PageScript
