/-
Functions before statements.

The code of a program is put together from its statements and its functions
apart.  The statements are read one after the other in the scope of the program
(`survey`), and each function is read on its own (`Tree.function?`); where it
stands among the statements has an effect on the numbers of scopes only.
-/
import PageScript.Proofs.Placement
import PageScript.Proofs.Heading

namespace PageScript

open List EStateM Part Reading Tree Declarations Environs

variable {e : Declarations} {f : Nat → Nat} {name : String}

/-! ### The code of a node with other scopes -/

namespace Node

variable {scopes : Nat → Scope} {f : Nat → Nat}

theorem length_rescopedAll (nodes : List Node) : (rescopedAll f nodes).length = nodes.length := by
  rw [rescopedAll_eq_map, length_map]

theorem argumentCount_rescoped (arguments : Node) :
    argumentCount (arguments.rescoped f) = argumentCount arguments := by
  cases arguments <;> simp only [argumentCount, rescoped, nodes?, length_rescopedAll]

theorem emitTarget_rescoped (target : Node) :
    emitTarget (target.rescoped f) = emitTarget target := by
  cases target <;> rfl

theorem emitKey_rescoped (key : Node) : emitKey (key.rescoped f) = emitKey key := by
  cases key <;> rfl

theorem checkNoCount_rescoped (count : Node) :
    checkNoCount (count.rescoped f) = checkNoCount count := by
  cases count <;> rfl

theorem emitElement_rescoped (direct : Int → String → Instr Int Bytecode)
    (other : Instr Int Bytecode) (base : Node) (code : Emit Unit) :
    emitElement direct other (base.rescoped f) code = emitElement direct other base code := by
  cases base <;> rfl

theorem emitOrNull_rescoped (node : Node) (code : Emit Unit) :
    emitOrNull (node.rescoped f) code = emitOrNull node code := by
  cases node <;> rfl

theorem emitArgument_rescoped (node : Node) (code : Emit Unit) :
    emitArgument (node.rescoped f) code = emitArgument node code := by
  cases node <;> rfl

theorem codes_rescoped : (∀ n, compile scopes (rescoped f n) = compile (scopes ∘ f) n) ∧
    ∀ nodes, compileAll scopes (rescopedAll f nodes) = compileAll (scopes ∘ f) nodes ∧
      compileArguments scopes (rescopedAll f nodes) = compileArguments (scopes ∘ f) nodes ∧
      compileBody scopes (rescopedAll f nodes) = compileBody (scopes ∘ f) nodes ∧
      compileBlock scopes (rescopedAll f nodes) = compileBlock (scopes ∘ f) nodes := by
  apply rescoped.mutual_induct
  case case11 =>
    intro name slot right operator post ih
    rw [rescoped, compile_assignment, compile_assignment, ih]
  case case38 => exact ⟨rfl, rfl, rfl, rfl⟩
  case case39 =>
    -- Bodies and blocks end with their last node.
    intro node nodes hnode hnodes
    cases nodes <;>
      simp_all only [rescopedAll, compileAll, compileArguments_cons, emitArgument_rescoped,
        compileBody, compileBlock, isReturn_rescoped, and_self]
  all_goals
    intros
    simp_all only [rescoped, compile, compile_member, compile_memberAssignment, compile_ifElse,
      compile_returnValue, argumentCount_rescoped, length_rescopedAll, emitElement_rescoped,
      emitOrNull_rescoped, emitKey_rescoped, emitTarget_rescoped, checkNoCount_rescoped,
      Function.comp_apply]

theorem compile_rescoped (n : Node) : compile scopes (n.rescoped f) = compile (scopes ∘ f) n :=
  codes_rescoped.1 n

theorem emission_rescoped (node : Node) :
    emission scopes (node.rescoped f) = emission (scopes ∘ f) node := by
  rw [emission, emission, compile_rescoped, isReturn_rescoped]

end Node

/-! ### Scopes that are there already -/

namespace Environs

variable {r : Environs} {n far i : Nat}

theorem number_lt (h : i < n) : r.number i < r.number n := by
  have hhome := r.home_lt
  obtain ⟨k, rfl⟩ : ∃ k, n = k + 1 := ⟨n - 1, by omega⟩
  cases i with
  | zero =>
    rw [number, number]
    omega
  | succ i =>
    rw [number, number]
    omega

/-- The numbers of the first `n` scopes among others; all further ones get the
same number. -/
def numberUpTo (r : Environs) (n far i : Nat) : Nat := if i < n then r.number i else far

theorem fits_number (n : Nat) : r.Fits r.number n := fun _ _ => rfl

theorem fits_numberUpTo : r.Fits (r.numberUpTo n far) n := fun _ hi => if_pos hi

end Environs

namespace Declarations

variable {d e : Declarations} {fs : List Node} {scopes : Nat → Scope}

def alone (s : Scope) : Declarations := { scopes := #[s], opened := [0] }

/-- The scopes that were opened in a scope, and this one as it is in the end. -/
def seenFrom (d : Declarations) (s : Scope) (i : Nat) : Scope := if i = 0 then s else d.scope i

/-- The statements of the program are read, which has declared these
functions. -/
structure InMain (d : Declarations) (fs : List Node) : Prop where
  pos : 0 < d.scopes.size
  opened : d.opened = [0]
  functions : d.functions = [fs]

/-- Scopes are added, and those of functions stay as they are. -/
structure Grows (d e : Declarations) : Prop where
  size : d.scopes.size ≤ e.scopes.size
  scope : ∀ i, 0 < i → i < d.scopes.size → e.scope i = d.scope i

/-- Scopes by number at the end of a program: those of functions stay as they
are, and there is a number that no scope has. -/
structure SeenBy (d : Declarations) (scopes : Nat → Scope) : Prop where
  scope : ∀ i, 0 < i → i < d.scopes.size → scopes i = d.scope i
  spare : ∃ far, d.scopes.size ≤ far ∧ scopes far = {}

theorem entered_alone (s : Scope) : (alone s).Entered where
  opened := cons_ne_nil _ _
  lt id hid := by
    cases mem_singleton.1 hid
    exact Nat.zero_lt_one

theorem scope_of_size_le {i : Nat} (h : d.scopes.size ≤ i) : d.scope i = {} := by
  rw [scope, Array.getD_eq_getD_getElem?, Array.getElem?_eq_none h]
  rfl

theorem Grows.refl (d : Declarations) : d.Grows d := ⟨Nat.le_refl _, fun _ _ _ => rfl⟩

theorem Grows.trans {e' : Declarations} (h : d.Grows e) (h' : e.Grows e') : d.Grows e' :=
  ⟨Nat.le_trans h.size h'.size, fun i hpos hi =>
    (h'.scope i hpos (Nat.lt_of_lt_of_le hi h.size)).trans (h.scope i hpos hi)⟩

theorem SeenBy.of_grows (h : d.Grows e) (he : e.SeenBy scopes) : d.SeenBy scopes where
  scope i hpos hi := (he.scope i hpos (Nat.lt_of_lt_of_le hi h.size)).trans (h.scope i hpos hi)
  spare := by
    obtain ⟨far, hfar, hnone⟩ := he.spare
    exact ⟨far, Nat.le_trans h.size hfar, hnone⟩

theorem seenBy_scope (d : Declarations) : d.SeenBy d.scope :=
  ⟨fun _ _ _ => rfl, d.scopes.size, Nat.le_refl _, scope_of_size_le (Nat.le_refl _)⟩

theorem SeenBy.number {r : Environs} (h : (r.place f d).SeenBy scopes) {i : Nat}
    (hi : i < d.scopes.size) (hpos : 0 < r.number i) : scopes (r.number i) = d.scope i := by
  have hlt : r.number i < (r.place f d).scopes.size := by
    rw [size_place (Nat.zero_lt_of_lt hi)]
    exact number_lt hi
  rw [h.scope _ hpos hlt, scope_place hi]

def around (d : Declarations) (hpos : 0 < d.scopes.size) : Environs where
  scopes := d.scopes
  home := 0
  home_lt := hpos
  opened := []
  functions := d.functions

def beside (d : Declarations) : Environs where
  scopes := d.scopes.push {}
  home := d.scopes.size
  home_lt := by rw [Array.size_push]; exact Nat.lt_succ_self _
  opened := d.opened
  functions := d.functions

theorem place_around (h : d.InMain fs) (hf : f 0 = 0) :
    (d.around h.pos).place f (alone (d.scope 0)) = d := by
  have hscopes : d.scopes.set 0 (d.scope 0) h.pos ++ #[] = d.scopes := by
    rw [Array.append_empty, scope, Array.getD, dif_pos h.pos]
    exact Array.set_getElem_self _
  obtain ⟨scopes, opened, functions⟩ := d
  cases h.opened
  rw [place]
  exact congrArg₂ (fun scopes opened => mk scopes opened functions) hscopes
    (congrArg (· :: []) hf)

theorem place_beside (d : Declarations) (hf : f 0 = d.scopes.size) :
    d.beside.place f (alone {}) = entered d := by
  have hlt : d.scopes.size < (d.scopes.push {}).size := d.beside.home_lt
  have hscopes : (d.scopes.push {}).set d.scopes.size {} hlt ++ #[] = d.scopes.push {} := by
    apply Array.ext'
    rw [Array.append_empty, Array.toList_set, Array.toList_push, set_append_right _ _ (by simp)]
    simp
  obtain ⟨scopes, opened, functions⟩ := d
  rw [place]
  exact congrArg₂ (fun scopes opened => mk scopes opened functions) hscopes
    (congrArg (· :: opened) hf)

theorem opened_place_beside (d : Declarations) (h : (alone {}).Keeps e) :
    (d.beside.place d.beside.number e).opened = d.scopes.size :: d.opened := by
  rw [place, h.opened]
  rfl

theorem functions_place_beside (d : Declarations) (h : (alone {}).Keeps e) :
    (d.beside.place d.beside.number e).functions = d.functions := by
  rw [place, length_eq_zero_iff.1 h.functions]
  rfl

end Declarations

/-! ### One element of a list -/

namespace Reading

variable {r : Environs} {f : Nat → Nat} {inside : Prop} {d : Declarations} {fs : List Node}
  {p : Part} {parts : List Part}

open Declarations (alone)

def readStatement (p : Part) : Reading (Option Node) := do
  match ← p.read with
  | .absent => return none
  | .global nodes => do
    declareGlobals nodes
    return none
  | node => return some node

theorem readStatements_cons (p : Part) (parts : List Part) :
    readStatements (p :: parts) = (do
      match ← readStatement p with
      | none => readStatements parts
      | some node => return node :: (← readStatements parts)) := by
  rw [readStatements, readStatement, bind_assoc]
  congr 1
  funext node
  cases node <;> simp

theorem places_statement (hp : (placing r f inside).Obeys p.read) :
    Places r f inside (Option.map (Node.rescoped f)) (readStatement p) (readStatement p) := by
  refine .bind hp fun node => ?_
  cases node with
  | absent => exact .pure none
  | global nodes =>
    have hdeclare := Discipline.does_declareGlobals (D := placing r f inside) nodes
    exact .bind hdeclare fun _ => .pure none
  | _ => exact .pure (some _)

variable (hp : ∀ r f, (placing r f False).Obeys p.read) (hd : d.InMain fs)

include hp hd

/-- A statement of the program declares in the scope of the program what it
declares in such a scope on its own, and what it emits in the end is the
same. -/
theorem run_statement {node : Option Node}
    (hrun : (readStatement p).run (alone (d.scope 0)) = .ok node e) :
    ∃ node' d', (readStatement p).run d = .ok node' d' ∧ d'.InMain fs ∧ d.Grows d' ∧
      d'.scope 0 = e.scope 0 ∧ ∀ scopes, d'.SeenBy scopes →
        node'.map (Node.emission scopes) = node.map (Node.emission (e.seenFrom (scopes 0))) := by
  have hplaces : ∀ f, (d.around hd.pos).Fits f e.scopes.size →
      (alone (d.scope 0)).Keeps e ∧ (readStatement p).run d
        = .ok (node.map (Node.rescoped f)) ((d.around hd.pos).place f e) := by
    intro f hfits
    obtain ⟨hok, -⟩ := places_statement (hp (d.around hd.pos) f) _
      (entered_alone (d.scope 0)) nofun
    obtain ⟨hkeeps, hplaced⟩ := hok node e hrun
    have hzero : f 0 = 0 := hfits 0 (Nat.lt_of_lt_of_le Nat.zero_lt_one hkeeps.scopes)
    rw [place_around hd hzero] at hplaced
    exact ⟨hkeeps, hplaced hfits⟩
  obtain ⟨hkeeps, hplaced⟩ := hplaces _ (fits_number _)
  have hpos : 0 < e.scopes.size := Nat.lt_of_lt_of_le Nat.zero_lt_one hkeeps.scopes
  have hsize := size_place (r := d.around hd.pos)
    (f := (d.around hd.pos).number) hpos
  have hnone : e.functions = [] := length_eq_zero_iff.1 hkeeps.functions
  refine ⟨_, _, hplaced, ⟨?_, ?_, ?_⟩, ⟨?_, fun i hi hlt => ?_⟩, scope_place hpos,
    fun scopes hscopes => ?_⟩
  · rw [hsize]
    exact Nat.lt_of_le_of_lt (Nat.zero_le _) (number_lt hpos)
  · rw [place, hkeeps.opened]
    rfl
  · rw [place, hnone]
    exact hd.functions
  · rw [hsize]
    obtain ⟨k, hk⟩ : ∃ k, e.scopes.size = k + 1 := ⟨e.scopes.size - 1, by omega⟩
    rw [hk]
    exact Nat.le_add_right _ _
  · exact scope_place_of_ne hlt (Nat.ne_of_gt hi)
  · -- Where no scope is, there is none on its own either.
    obtain ⟨far, hfar, hempty⟩ := hscopes.spare
    obtain ⟨-, hplaced'⟩ := hplaces ((d.around hd.pos).numberUpTo e.scopes.size far)
      fits_numberUpTo
    rw [hplaced] at hplaced'
    injection hplaced' with hnode _
    have hview : scopes ∘ (d.around hd.pos).numberUpTo e.scopes.size far
        = e.seenFrom (scopes 0) := by
      funext i
      rw [Function.comp_apply, numberUpTo, seenFrom]
      by_cases hi : i < e.scopes.size
      · rw [if_pos hi]
        cases i with
        | zero => rfl
        | succ i =>
          rw [if_neg (Nat.succ_ne_zero i)]
          exact hscopes.number hi (Nat.lt_of_lt_of_le hd.pos (Nat.le_add_right _ _))
      · rw [if_neg hi, if_neg (by omega), hempty,
          scope_of_size_le (Nat.le_of_not_lt hi)]
    rw [hnode, Option.map_map]
    congr 1
    funext n
    rw [Function.comp_apply, Node.emission_rescoped, hview]

theorem run_statement_error {fault : Fault}
    (hrun : (readStatement p).run (alone (d.scope 0)) = .error fault e) :
    ∃ e', (readStatement p).run d = .error fault e' := by
  obtain ⟨-, herror⟩ := places_statement (hp (d.around hd.pos) (d.around hd.pos).number) _
    (entered_alone (d.scope 0)) nofun
  have hplaced := herror fault e hrun fits_number
  rwa [place_around hd rfl] at hplaced

end Reading

/-- A function that was read on its own, with its scope and those of the
functions in it. -/
structure Definition where
  name : String
  body : Node
  scopes : Nat → Scope

namespace Definition

def code (d : Definition) : Except Fault Bytecode :=
  Node.assembleBody d.name (d.scopes 0) (d.body.compile d.scopes)

def emit (d : Definition) : Emit Unit := do
  .instr (Instr.declaration (d.name, ← ofExcept d.code))

end Definition

namespace Reading

variable {d : Declarations} {fs : List Node} {parts : List Part}

open Declarations (alone)

def readAlone (parts : List Part) : Option Definition :=
  match (readDefinition parts).run (alone {}) with
  | .ok (identifier, body) e =>
    identifier.literal?.map fun name => ⟨name, orReturn body, e.scope⟩
  | .error _ _ => none

variable (hparts : ∀ r f, ∀ p ∈ parts, (placing r f False).Obeys p.read) (hd : d.InMain fs)

include hparts hd

theorem run_function {definition : Definition} (hread : readAlone parts = some definition) :
    ∃ body scope d', (readFunction parts).run d = .ok .absent d' ∧
      d'.InMain (insertFunction definition.name (.function definition.name body scope) fs) ∧
      d.Grows d' ∧ d'.scope 0 = d.scope 0 ∧ ∀ scopes, d'.SeenBy scopes →
        (Node.function definition.name body scope).compile scopes = definition.emit := by
  unfold readAlone at hread
  split at hread
  case h_2 => cases hread
  case h_1 identifier body e hrun =>
  obtain ⟨name, hname, rfl⟩ := Option.map_eq_some_iff.1 hread
  have hplaces : ∀ f, d.beside.Fits f e.scopes.size → (alone {}).Keeps e ∧
      (readDefinition parts).run (entered d)
        = .ok (identifier.rescoped f, body.rescoped f) (d.beside.place f e) := by
    intro f hfits
    obtain ⟨hok, -⟩ := places_definition (hparts d.beside f) _ (entered_alone {}) nofun
    obtain ⟨hkeeps, hplaced⟩ := hok _ e hrun
    have hzero : f 0 = d.scopes.size := hfits 0 (Nat.lt_of_lt_of_le Nat.zero_lt_one hkeeps.scopes)
    rw [place_beside d hzero] at hplaced
    exact ⟨hkeeps, hplaced hfits⟩
  obtain ⟨hkeeps, hplaced⟩ := hplaces _ (fits_number _)
  have hpos : 0 < e.scopes.size := Nat.lt_of_lt_of_le Nat.zero_lt_one hkeeps.scopes
  have hopened := opened_place_beside d hkeeps
  have hfunctions := (functions_place_beside d hkeeps).trans hd.functions
  have hsize : d.scopes.size < (d.beside.place d.beside.number e).scopes.size := by
    rw [size_place hpos]
    exact number_lt (r := d.beside) hpos
  have hscope : ∀ i < d.scopes.size,
      (d.beside.place d.beside.number e).scope i = d.scope i := by
    intro i hi
    rw [scope_place_of_ne _ (Nat.ne_of_lt hi)]
    · exact d.scope_push [] i
    · exact Nat.lt_trans hi d.beside.home_lt
  have hclose : (readFunction parts).run d = .ok .absent { d.beside.place d.beside.number e with
      opened := d.opened
      functions := insertFunction name
        (.function name (orReturn (body.rescoped d.beside.number)) d.scopes.size) fs :: [] } := by
    rw [run_readFunction, run_bind, hplaced]
    dsimp only
    rw [run_closeFunction hopened hfunctions, Node.literal?_rescoped, hname]
  refine ⟨_, _, _, hclose, ⟨Nat.zero_lt_of_lt hsize, hd.opened, rfl⟩,
    ⟨Nat.le_of_lt hsize, fun i _ hi => hscope i hi⟩, hscope 0 hd.pos, fun scopes hscopes => ?_⟩
  -- Where no scope is, there is none on its own either.
  obtain ⟨far, hfar, hempty⟩ := hscopes.spare
  obtain ⟨-, hplaced'⟩ := hplaces (d.beside.numberUpTo e.scopes.size far)
    fits_numberUpTo
  rw [hplaced] at hplaced'
  injection hplaced' with hresult _
  have hbody : body.rescoped d.beside.number
      = body.rescoped (d.beside.numberUpTo e.scopes.size far) := congrArg Prod.snd hresult
  have hseen : (d.beside.place d.beside.number e).SeenBy scopes := ⟨hscopes.scope, hscopes.spare⟩
  have hview : scopes ∘ d.beside.numberUpTo e.scopes.size far = e.scope := by
    funext i
    rw [Function.comp_apply, numberUpTo]
    by_cases hi : i < e.scopes.size
    · have hnumber : 0 < d.beside.number i := by
        cases i with
        | zero => exact hd.pos
        | succ i => exact Nat.lt_of_lt_of_le (Nat.zero_lt_of_lt d.beside.home_lt) (Nat.le_add_right _ _)
      rw [if_pos hi]
      exact hseen.number hi hnumber
    · rw [if_neg hi, hempty, scope_of_size_le (Nat.le_of_not_lt hi)]
  have hown : scopes d.scopes.size = e.scope 0 := by
    rw [← hview, Function.comp_apply, numberUpTo, if_pos hpos]
    rfl
  rw [Node.compile, hown, hbody, orReturn_rescoped, Node.compile_rescoped, hview]
  rfl

theorem run_function_error (hread : readAlone parts = none) :
    ∃ fault e, (readFunction parts).run d = .error fault e := by
  obtain ⟨hok, herror⟩ := places_definition (hparts d.beside d.beside.number) _
    (entered_alone {}) nofun
  rw [place_beside d rfl] at hok herror
  unfold readAlone at hread
  rw [run_readFunction, run_bind]
  split at hread
  case h_1 identifier body e hrun =>
    obtain ⟨hkeeps, hplaced⟩ := hok _ e hrun
    have hopened := opened_place_beside d hkeeps
    have hfunctions := (functions_place_beside d hkeeps).trans hd.functions
    rw [hplaced (fits_number _)]
    dsimp only
    rw [run_closeFunction hopened hfunctions, Node.literal?_rescoped,
      Option.map_eq_none_iff.1 hread]
    exact ⟨_, _, rfl⟩
  case h_2 fault e hrun =>
    obtain ⟨e', he'⟩ := herror fault e hrun fits_number
    rw [he']
    exact ⟨_, _, rfl⟩

end Reading

/-! ### All elements of a list -/

theorem Part.children_ofTree (tree : Tree) : (ofTree tree).children = ofTrees tree.children := by
  cases tree <;> rfl

def Tree.isDeclaration (tree : Tree) : Bool := tree.symbol == "functiondeclaration"

def Tree.definition? (tree : Tree) : Option Definition :=
  if tree.isDeclaration then readAlone (ofTrees tree.children) else none

namespace Reading

variable {d : Declarations} {fs : List Node} {tree : Tree} {elements : List Tree}

open Declarations (alone)

/-- Reads statements one after another, each in the scope that the one before
has left.  Each comes with the scopes that were opened in it. -/
def survey (s : Scope) : List Tree → Option (List (Node × Declarations) × Scope)
  | [] => some ([], s)
  | tree :: trees =>
    match (readStatement (ofTree tree)).run (alone s) with
    | .ok node e =>
      (survey (e.scope 0) trees).map fun (rest, last) => ((node.map (·, e)).toList ++ rest, last)
    | .error _ _ => none

theorem statement_places (horderly : tree.orderly) (htree : tree.isDeclaration = false)
    (r : Environs) (f : Nat → Nat) :
    (placing r f False).Obeys (ofTree tree).read := by
  refine (tree.portable r f horderly).places.imp fun hfunction => ?_
  rw [tree_ofTree] at hfunction
  rw [isDeclaration, hfunction] at htree
  cases htree

theorem declaration_places (horderly : tree.orderly) (htree : tree.isDeclaration = true) :
    (ofTree tree).read = readFunction (ofTrees tree.children) ∧
      ∀ r f, ∀ p ∈ ofTrees tree.children, (placing r f False).Obeys p.read := by
  have hsymbol : tree.symbol = "functiondeclaration" := eq_of_beq htree
  constructor
  · rw [read_ofTree, rule, hsymbol]
    rfl
  · intro r f
    rw [← children_ofTree]
    refine (tree.portable r f horderly).children_places ?_
    rw [tree_ofTree, hsymbol]
    decide

theorem run_declaration (horderly : tree.orderly) (htree : tree.isDeclaration = true)
    (hd : d.InMain fs) {definition : Definition} (hread : tree.definition? = some definition) :
    ∃ body scope d', (readStatement (ofTree tree)).run d = .ok none d' ∧
      d'.InMain (insertFunction definition.name (.function definition.name body scope) fs) ∧
      d.Grows d' ∧ d'.scope 0 = d.scope 0 ∧ ∀ scopes, d'.SeenBy scopes →
        (Node.function definition.name body scope).compile scopes = definition.emit := by
  obtain ⟨hfunction, hparts⟩ := declaration_places horderly htree
  rw [definition?, if_pos htree] at hread
  obtain ⟨body, scope, d', hrun, hd'⟩ := run_function hparts hd hread
  refine ⟨body, scope, d', ?_, hd'⟩
  rw [readStatement, hfunction, run_bind, hrun]
  rfl

theorem run_declaration_error (horderly : tree.orderly) (htree : tree.isDeclaration = true)
    (hd : d.InMain fs) (hread : tree.definition? = none) :
    ∃ fault e, (readStatement (ofTree tree)).run d = .error fault e := by
  obtain ⟨hfunction, hparts⟩ := declaration_places horderly htree
  rw [definition?, if_pos htree] at hread
  obtain ⟨fault, e, hrun⟩ := run_function_error hparts hd hread
  exact ⟨fault, e, by rw [readStatement, hfunction, run_bind, hrun]⟩

/-- Functions that have different names, none of which is taken. -/
structure Fresh (fs : List Node) (definitions : List Definition) : Prop where
  nodup : (definitions.map Definition.name).Nodup
  free : ∀ definition ∈ definitions, ∀ body scope, .function definition.name body scope ∉ fs

theorem insertFunction_of_free {node : Node} (h : ∀ body scope, .function name body scope ∉ fs) :
    insertFunction name node fs = fs ++ [node] := by
  induction fs with
  | nil => rfl
  | cons other fs ih =>
    have hrest := ih fun body scope hmem => h body scope (mem_cons_of_mem _ hmem)
    cases other with
    | function name' body scope =>
      have hne : name' ≠ name := by
        rintro rfl
        exact h body scope mem_cons_self
      rw [insertFunction, if_neg hne, hrest]
      rfl
    | _ =>
      rw [insertFunction, hrest]
      · rfl
      · rintro _ _ _ ⟨⟩

theorem Fresh.insert {definition : Definition} {rest : List Definition}
    (h : Fresh fs (definition :: rest)) (body : Node) (scope : Nat) :
    insertFunction definition.name (.function definition.name body scope) fs
      = fs ++ [.function definition.name body scope] ∧
      Fresh (fs ++ [.function definition.name body scope]) rest := by
  have hnodup := nodup_cons.1 h.nodup
  refine ⟨insertFunction_of_free (h.free definition mem_cons_self), hnodup.2,
    fun other hother body' scope' hmem => ?_⟩
  rcases mem_append.1 hmem with hmem | hmem
  · exact h.free other (mem_cons_of_mem _ hother) body' scope' hmem
  · injection mem_singleton.1 hmem with hname
    exact hnodup.1 (hname ▸ mem_map_of_mem hother)

/-- Every function can be read on its own, and the statements in turn: then the elements of a
program are read as these, and otherwise they are refused. -/
theorem run_elements (horderly : allOrderly "sourceelements" elements) (hd : d.InMain fs)
    (hfresh : Fresh fs (elements.filterMap definition?)) :
    (∃ statements nodes own d', (∀ tree ∈ elements, tree.isDeclaration → tree.definition?.isSome) ∧
      survey (d.scope 0) (elements.filter (!·.isDeclaration)) = some (statements, d'.scope 0) ∧
      (readStatements (ofTrees elements)).run d = .ok nodes d' ∧
      d'.InMain (fs ++ own) ∧ d.Grows d' ∧ ∀ scopes, d'.SeenBy scopes →
        nodes.map (Node.emission scopes)
          = statements.map (fun (node, e) => node.emission (e.seenFrom (scopes 0))) ∧
        own.map (Node.compile scopes)
          = (elements.filterMap definition?).map Definition.emit) ∨
    ((∃ tree ∈ elements, tree.isDeclaration ∧ tree.definition? = none) ∨
      survey (d.scope 0) (elements.filter (!·.isDeclaration)) = none) ∧
      ∃ fault e, (readStatements (ofTrees elements)).run d = .error fault e := by
  induction elements generalizing d fs with
  | nil =>
    exact .inl ⟨[], [], [], d, by simp, rfl, rfl, by rwa [append_nil], .refl d,
      fun _ _ => ⟨rfl, rfl⟩⟩
  | cons tree elements ih =>
    rw [allOrderly, Bool.and_eq_true, Bool.and_eq_true] at horderly
    obtain ⟨⟨-, htree⟩, horderly⟩ := horderly
    have hunread : (∃ other ∈ elements, other.isDeclaration ∧ other.definition? = none) →
        ∃ other ∈ tree :: elements, other.isDeclaration ∧ other.definition? = none :=
      fun ⟨other, hmem, hother⟩ => ⟨other, mem_cons_of_mem _ hmem, hother⟩
    rw [ofTrees, readStatements_cons, run_bind]
    cases hkind : tree.isDeclaration with
    | true =>
      rw [filter_cons_of_neg (by simp [hkind])]
      cases hdefinition : tree.definition? with
      | none =>
        obtain ⟨fault, e, hrun⟩ := run_declaration_error htree hkind hd hdefinition
        exact .inr ⟨.inl ⟨tree, mem_cons_self, hkind, hdefinition⟩, fault, e, by rw [hrun]⟩
      | some definition =>
        rw [filterMap_cons_some hdefinition] at hfresh ⊢
        obtain ⟨body, scope, d₁, hrun, hd₁, hgrows, hscope, hcompile⟩ :=
          run_declaration htree hkind hd hdefinition
        obtain ⟨hinsert, hfresh₁⟩ := hfresh.insert body scope
        rw [hinsert] at hd₁
        rw [hrun, ← hscope]
        rcases ih horderly hd₁ hfresh₁ with ⟨statements, nodes, own, d', hread, hsurvey, hrest, hd',
          hgrows', hemits⟩ | ⟨hbad, hfails⟩
        · refine .inl ⟨statements, nodes, .function definition.name body scope :: own, d',
            forall_mem_cons.2 ⟨fun _ => by rw [hdefinition]; rfl, hread⟩, hsurvey, hrest, ?_,
            hgrows.trans hgrows', fun scopes hscopes => ⟨(hemits scopes hscopes).1, ?_⟩⟩
          · rwa [append_assoc] at hd'
          · rw [map_cons, map_cons, (hemits scopes hscopes).2,
              hcompile scopes (hscopes.of_grows hgrows')]
        · exact .inr ⟨hbad.imp_left hunread, hfails⟩
    | false =>
      have hnone : tree.definition? = none := by rw [definition?, hkind]; rfl
      rw [filterMap_cons_none hnone] at hfresh ⊢
      rw [filter_cons_of_pos (by simp [hkind]), survey]
      cases halone : (readStatement (ofTree tree)).run (alone (d.scope 0)) with
      | error fault e =>
        obtain ⟨e', hrun⟩ := run_statement_error (statement_places htree hkind) hd halone
        exact .inr ⟨.inr rfl, fault, e', by rw [hrun]⟩
      | ok node e =>
        obtain ⟨node', d₁, hrun, hd₁, hgrows, hscope, hemit⟩ :=
          run_statement (statement_places htree hkind) hd halone
        dsimp only
        rw [hrun, ← hscope]
        rcases ih horderly hd₁ hfresh with ⟨statements, nodes, own, d', hread, hsurvey, hnodes, hd',
          hgrows', hemits⟩ | ⟨hbad, fault, e', hfails⟩
        · refine .inl ⟨(node.map (·, e)).toList ++ statements, node'.toList ++ nodes, own, d',
            forall_mem_cons.2 ⟨fun h => absurd (hkind.symm.trans h) Bool.false_ne_true, hread⟩,
            by rw [hsurvey]; rfl, ?_, hd', hgrows.trans hgrows',
            fun scopes hscopes => ⟨?_, (hemits scopes hscopes).2⟩⟩
          · cases node' with
            | none => exact hnodes
            | some node' =>
              show (readStatements (ofTrees elements) >>= _).run d₁ = _
              rw [run_bind, hnodes]
              rfl
          · have hfirst := hemit scopes (hscopes.of_grows hgrows')
            rw [map_append, map_append, (hemits scopes hscopes).1]
            congr 1
            rw [← Option.toList_map, hfirst, ← Option.toList_map, Option.map_map]
            rfl
        · refine .inr ⟨hbad.imp hunread fun hsurvey => by rw [hsurvey]; rfl, fault, e', ?_⟩
          cases node' with
          | none => exact hfails
          | some node' =>
            show (readStatements (ofTrees elements) >>= _).run d₁ = _
            rw [run_bind, hfails]

end Reading

/-! ### Programs -/

def Tree.main (elements : List Tree) : Tree := .branch "main" [.branch "sourceelements" elements]

def Tree.compile (tree : Tree) (name : String) : Except Fault Bytecode := do
  (← Script.ofTree tree).compile name

namespace Definition

variable {definitions : List Definition}

def coded? (d : Definition) : Option (String × Bytecode) := d.code.toOption.map (d.name, ·)

theorem emit_of_coded? {d : Definition} {f : String × Bytecode} (h : d.coded? = some f) :
    d.emit = .instr (Instr.declaration f) := by
  unfold coded? at h
  unfold emit
  cases hcode : d.code with
  | error fault =>
    rw [hcode] at h
    cases h
  | ok code =>
    rw [hcode] at h
    cases h
    rfl

theorem emit_of_not_coded {d : Definition} (h : d.coded? = none) : ∃ fault, d.emit = throw fault := by
  unfold coded? at h
  unfold emit
  cases hcode : d.code with
  | error fault => exact ⟨fault, rfl⟩
  | ok code =>
    rw [hcode] at h
    cases h

theorem emitAll_eq (h : ∀ d ∈ definitions, d.coded?.isSome) :
    Node.emitAll (definitions.map emit)
      = Node.emitAll ((definitions.filterMap coded?).map fun f => .instr (Instr.declaration f)) := by
  induction definitions with
  | nil => rfl
  | cons d definitions ih =>
    obtain ⟨f, hf⟩ := Option.isSome_iff_exists.1 (h d mem_cons_self)
    rw [filterMap_cons_some hf, map_cons, map_cons, Node.emitAll, Node.emitAll,
      emit_of_coded? hf, ih fun d hd => h d (mem_cons_of_mem _ hd)]

theorem emitAll_error (h : ∃ d ∈ definitions, d.coded? = none) (a : Assembler) :
    ∃ fault a', (Node.emitAll (definitions.map emit)).run a = .error fault a' := by
  induction definitions generalizing a with
  | nil =>
    obtain ⟨d, hd, -⟩ := h
    cases hd
  | cons d definitions ih =>
    rw [map_cons, Node.emitAll]
    cases hd : d.coded? with
    | none =>
      obtain ⟨fault, hemit⟩ := emit_of_not_coded hd
      rw [hemit]
      exact ⟨fault, a, rfl⟩
    | some f =>
      obtain ⟨other, hmem, hnone⟩ := h
      rcases mem_cons.1 hmem with rfl | hmem
      · rw [hd] at hnone
        cases hnone
      · rw [emit_of_coded? hd, run_bind]
        exact ih ⟨other, hmem, hnone⟩ _

end Definition

def Tree.function? (tree : Tree) : Option (String × Bytecode) :=
  tree.definition?.bind Definition.coded?

/-- Emits statements that were read one after another, in the scope that the
last one has left. -/
def emitStatements (statements : List (Node × Declarations)) (s : Scope) : Emit Unit :=
  Node.emitBody (statements.map fun (node, e) => node.emission (e.seenFrom s))

theorem emitStatements_planned (statements : List (Node × Declarations)) (s : Scope) :
    Emit.Planned (emitStatements statements s) := by
  refine Node.emitBody_planned _ fun statement hmem => ?_
  obtain ⟨⟨node, e⟩, -, rfl⟩ := mem_map.1 hmem
  exact node.compile_planned

section

variable {elements : List Tree}

open Reading (Fresh survey)

/-- What is declared before the first element of a program. -/
def Declarations.start : Declarations := { scopes := #[{}], opened := [0], functions := [[]] }

theorem Declarations.inMain_start : start.InMain [] := ⟨Nat.zero_lt_one, rfl, rfl⟩

theorem run_main (elements : List Tree) :
    (ofTree (.main elements)).read.run {}
      = (do
          let body ← readSourceElements (ofTrees elements)
          return .program body (← currentScope) : Reading Node).run
        { scopes := #[{}], opened := [0] } := rfl

theorem ofTree_main {nodes own : List Node} {d : Declarations}
    (hrun : (readStatements (ofTrees elements)).run .start = .ok nodes d)
    (hd : d.InMain own) :
    Script.ofTree (.main elements) = .ok ⟨.program (.sourceElements own nodes) 0, d.scopes⟩ := by
  have hbody : (readSourceElements (ofTrees elements)).run
      { scopes := #[{}], opened := [0] }
      = .ok (.sourceElements own nodes) { d with functions := [] } := by
    rw [run_sourceElements]
    rw [start] at hrun
    rw [hrun]
    dsimp only
    rw [hd.functions]
    rfl
  have hscope : currentScope.run { d with functions := [] } = _ :=
    run_currentScope_of_opened (d := { d with functions := [] }) hd.opened
  rw [Script.ofTree, run_main, run_bind, hbody]
  dsimp only
  rw [run_bind, hscope]
  rfl

theorem ofTree_main_error {fault : Fault}
    (hrun : (readStatements (ofTrees elements)).run .start = .error fault e) :
    Script.ofTree (.main elements) = .error fault := by
  rw [start] at hrun
  rw [Script.ofTree, run_main, run_bind, run_sourceElements, hrun]

theorem compile_main (horderly : allOrderly "sourceelements" elements)
    (hfresh : Fresh [] (elements.filterMap definition?)) (name : String) :
    (∃ statements s, (∀ tree ∈ elements, tree.isDeclaration → tree.definition?.isSome) ∧
      survey {} (elements.filter (!·.isDeclaration)) = some (statements, s) ∧
      (main elements).compile name = Node.assembleBody name s (do
        Node.emitAll ((elements.filterMap definition?).map Definition.emit)
        emitStatements statements s)) ∨
    ((∃ tree ∈ elements, tree.isDeclaration ∧ tree.definition? = none) ∨
      survey {} (elements.filter (!·.isDeclaration)) = none) ∧
      ∃ fault, (main elements).compile name = .error fault := by
  refine (run_elements horderly inMain_start hfresh).imp ?_ fun ⟨hbad, fault, e, hrun⟩ =>
    ⟨hbad, fault, by rw [compile, ofTree_main_error hrun]; rfl⟩
  rintro ⟨statements, nodes, own, d, hread, hsurvey, hrun, hd, -, hemits⟩
  obtain ⟨hnodes, hown⟩ := hemits d.scope d.seenBy_scope
  have hcode : (Node.sourceElements own nodes).compile d.scope = (do
      Node.emitAll ((elements.filterMap definition?).map Definition.emit)
      emitStatements statements (d.scope 0)) := by
    rw [Node.compile, Node.compileAll_eq, Node.compileBody_eq, hown, hnodes]
    rfl
  refine ⟨statements, d.scope 0, hread, hsurvey, ?_⟩
  rw [compile, ofTree_main hrun hd, ← hcode]
  rfl

/-- The code of a program: its statements behind the declarations of its
functions, each of which is what it is on its own. -/
theorem compile_main_iff (horderly : allOrderly "sourceelements" elements)
    (hfresh : Fresh [] (elements.filterMap definition?)) {b : Bytecode} :
    (main elements).compile name = .ok b ↔
      (∀ tree ∈ elements, tree.isDeclaration → tree.function?.isSome) ∧
      ∃ statements s tail,
        survey {} (elements.filter (!·.isDeclaration)) = some (statements, s) ∧
        Node.assembleBodyAt (elements.filterMap function?).length name s
          (emitStatements statements s) = .ok tail ∧
        b = tail.headed (elements.filterMap function?) := by
  have hfunctions : elements.filterMap function?
      = (elements.filterMap definition?).filterMap Definition.coded? :=
    (filterMap_filterMap).symm
  rcases compile_main horderly hfresh name with ⟨statements, s, hread, hsurvey, hmain⟩ |
    ⟨hbad, fault, hmain⟩ <;> rw [hmain]
  · constructor
    · intro hcompile
      have hcoded : ∀ d ∈ elements.filterMap definition?, d.coded?.isSome := by
        intro d hd
        refine Option.isSome_iff_ne_none.2 fun hnone => ?_
        obtain ⟨fault, a, hrun⟩ := Definition.emitAll_error ⟨d, hd, hnone⟩ {}
        rw [Node.assembleBody, run_bind, hrun] at hcompile
        cases hcompile
      rw [Definition.emitAll_eq hcoded, ← hfunctions,
        Node.assembleBody_headed _ name s (emitStatements_planned statements s)] at hcompile
      refine ⟨fun tree htree hkind => ?_, statements, s, ?_⟩
      · obtain ⟨d, hd⟩ := Option.isSome_iff_exists.1 (hread tree htree hkind)
        rw [function?, hd]
        exact hcoded d (mem_filterMap.2 ⟨tree, htree, hd⟩)
      · cases htail : Node.assembleBodyAt (elements.filterMap function?).length name s
          (emitStatements statements s) with
        | error fault =>
          rw [htail] at hcompile
          cases hcompile
        | ok tail =>
          rw [htail] at hcompile
          cases hcompile
          exact ⟨tail, hsurvey, rfl, rfl⟩
    · rintro ⟨hread, _, _, tail, hsurvey', htail, rfl⟩
      cases hsurvey.symm.trans hsurvey'
      have hcoded : ∀ d ∈ elements.filterMap definition?, d.coded?.isSome := by
        intro d hd
        obtain ⟨tree, htree, hdefinition⟩ := mem_filterMap.1 hd
        have hkind : tree.isDeclaration := by
          by_contra hkind
          rw [definition?, if_neg hkind] at hdefinition
          cases hdefinition
        have hsome := hread tree htree hkind
        rwa [function?, hdefinition] at hsome
      rw [Definition.emitAll_eq hcoded, ← hfunctions,
        Node.assembleBody_headed _ name s (emitStatements_planned statements s), htail]
      rfl
  · refine iff_of_false (by rintro ⟨⟩) ?_
    rintro ⟨hread, statements, s, tail, hsurvey, -⟩
    rcases hbad with ⟨tree, htree, hkind, hnone⟩ | hnone
    · have hsome := hread tree htree hkind
      rw [function?, hnone] at hsome
      cases hsome
    · cases hnone.symm.trans hsurvey

theorem Tree.mainAtRoot_main (h : allOrderly "sourceelements" elements) :
    (main elements).MainAtRoot := by
  have hnot : ("sourceelements" != "main") = true := by decide
  show (("sourceelements" != "main") && allAvoid "main" elements && true) = true
  rw [hnot, allAvoid_main _ elements h]
  rfl

theorem Tree.isResolved_of_compile (h : allOrderly "sourceelements" elements) {b : Bytecode}
    (hcompile : (main elements).compile name = .ok b) : b.IsResolved := by
  obtain ⟨script, hread, hcode⟩ := ok_of_bind hcompile
  obtain ⟨hresolved, hsound⟩ := Script.resolved (mainAtRoot_main h) hread
  exact Script.isResolved_of_compile hresolved hsound hcode

end

end PageScript
