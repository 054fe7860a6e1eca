/-
Code behind declarations.

The code of a program starts with the declarations of its functions, and the rest does not
depend on them: what emits code follows a plan whatever was emitted before, and when the
labels are taken out, only the number of the declarations counts
(`assembleBody_headed`).  No jump goes back to a declaration (`le_of_assembleAt`).
-/
import PageScript.Proofs.Places
import PageScript.Proofs.Plan

open EStateM (Result)

namespace PageScript

open Instr Item

/-- What an action emits does not depend on what was emitted before. -/
def Emit.Planned (x : Emit Unit) : Prop := ∃ p, Emit.Follows {} {} x p

namespace Node

open Emit (Planned)

variable {scopes : Nat → Scope}

/-! ### Bodies as lists of actions -/

/-- What a statement emits, and whether it is a `return`. -/
def emission (scopes : Nat → Scope) (node : Node) : Emit Unit × Bool :=
  (compile scopes node, node.isReturn)

def emitBody : List (Emit Unit × Bool) → Emit Unit
  | [] => .instr .loadNull
  | [(code, isReturn)] => do
    code
    emitIf (!isReturn) .returnTop
  | (code, isReturn) :: rest => do
    code
    emitIf (!isReturn) .discardTop
    emitBody rest

def emitAll : List (Emit Unit) → Emit Unit
  | [] => return ()
  | code :: rest => do
    code
    emitAll rest

theorem compileBody_eq (nodes : List Node) :
    compileBody scopes nodes = emitBody (nodes.map (emission scopes)) := by
  induction nodes with
  | nil => rfl
  | cons node nodes ih =>
    cases nodes with
    | nil => rfl
    | cons next nodes =>
      rw [compileBody, ih]
      · rfl
      · exact List.cons_ne_nil _ _

theorem compileAll_eq (nodes : List Node) :
    compileAll scopes nodes = emitAll (nodes.map (compile scopes)) := by
  induction nodes with
  | nil => rfl
  | cons node nodes ih =>
    rw [compileAll, ih]
    rfl

theorem compile_planned (node : Node) : Planned (compile scopes node) :=
  ⟨_, compile_follows scopes .start node⟩

theorem emitBody_planned (statements : List (Emit Unit × Bool))
    (h : ∀ statement ∈ statements, Planned statement.1) : Planned (emitBody statements) := by
  induction statements with
  | nil => exact ⟨_, .instr _⟩
  | cons statement rest ih =>
    obtain ⟨p, hfirst⟩ := h statement (.head _)
    obtain ⟨q, hrest⟩ := ih fun next hnext => h next (.tail _ hnext)
    cases rest with
    | nil => exact ⟨_, hfirst.bind fun _ => follows_emitIf _ _⟩
    | cons next rest =>
      exact ⟨_, hfirst.bind fun _ => .bind (follows_emitIf _ _) fun _ => hrest⟩

end Node

/-! ### Declarations in front -/

def Instr.declaration {L : Type} (f : String × Bytecode) : Instr L Bytecode := .declareFunction f.1 f.2

def Item.declarations (fs : List (String × Bytecode)) : List Item :=
  fs.map (.instr ∘ Instr.declaration)

variable (fs : List (String × Bytecode))

namespace Item

theorem labels_declarations (pos : Nat) (items : List Item) :
    labels pos (declarations fs ++ items) = labels (pos + fs.length) items := by
  induction fs generalizing pos with
  | nil => rfl
  | cons f fs ih =>
    have hcons : labels pos (declarations (f :: fs) ++ items)
        = labels (pos + 1) (declarations fs ++ items) := rfl
    rw [hcons, ih, List.length_cons, Nat.add_right_comm, Nat.add_assoc]

theorem relocate_declarations (table : List (Int × Nat)) (items : List Item) :
    relocate table (declarations fs ++ items)
      = (relocate table items).map (fs.map Instr.declaration ++ ·) := by
  induction fs with
  | nil =>
    show relocate table items = _
    cases relocate table items <;> rfl
  | cons f fs ih =>
    show (do return Instr.declaration f :: (← relocate table (declarations fs ++ items))) = _
    rw [ih]
    cases relocate table items <;> rfl

theorem le_of_mem_labels {pos p : Nat} {n : Int} {items : List Item}
    (h : (n, p) ∈ labels pos items) : pos ≤ p := by
  induction items generalizing pos with
  | nil => cases h
  | cons item items ih =>
    cases item with
    | label m =>
      rcases List.mem_append.1 h with h | h
      · exact ih h
      · cases List.mem_singleton.1 h
        exact Nat.le_refl p
    | instr i => exact Nat.le_of_succ_le (ih h)

theorem mem_table_of_relocate {table : List (Int × Nat)} {items : List Item}
    {is : List (Instr Nat Bytecode)} (h : relocate table items = .ok is) {kind : Jump} {target : Nat}
    (hjump : .jump kind target ∈ is) : ∃ n, (n, target) ∈ table := by
  induction items generalizing is with
  | nil =>
    cases h
    cases hjump
  | cons item items ih =>
    cases item with
    | label n => exact ih h hjump
    | instr i =>
      obtain ⟨j, hi, h⟩ := ok_of_bind h
      obtain ⟨rest, hrest, h⟩ := ok_of_bind h
      cases h
      rcases List.mem_cons.1 hjump with hj | hjump
      · subst hj
        cases i with
        | jump kind' n =>
          obtain ⟨p, hp, hi⟩ := ok_of_bind hi
          cases hi
          unfold position at hp
          split at hp
          case h_1 hlookup =>
            cases hp
            obtain ⟨before, after, htable, -⟩ := List.lookup_eq_some_iff.1 hlookup
            exact ⟨n, by rw [htable]; simp⟩
          case h_2 => cases hp
        | _ => cases hi
      · exact ih hrest hjump

end Item

namespace Bytecode

/-- Code with declarations of functions in front. -/
def headed (fs : List (String × Bytecode)) (b : Bytecode) : Bytecode :=
  { b with
    listing := (fs.map Instr.declaration).toArray ++ b.listing
    code := (fs.map Instr.declaration).toArray ++ b.code }

/-- Code from a name, a scope and a list of items, whose positions start at
`pos`. -/
def assembleAt (pos : Nat) (name : String) (scope : Scope) (items : List Item) :
    Except Fault Bytecode := do
  let listing ← relocate (labels pos items) items
  let code := dropReturns false listing
  let size ← stackEstimate 0 0 code
  return {
    name := name
    symbols := scope.symbols
    varNames := scope.varNames
    globals := scope.globals
    parameters := scope.parameters
    superglobals := scope.superglobals
    constants := scope.constants.toArray
    listing := listing.toArray
    code := code.toArray
    stackSize := size.toNat }

theorem dropReturns_declarations (is : List (Instr Nat Bytecode)) :
    dropReturns false (fs.map Instr.declaration ++ is)
      = fs.map Instr.declaration ++ dropReturns false is := by
  induction fs with
  | nil => rfl
  | cons f fs ih =>
    show Instr.declaration f :: dropReturns false (fs.map Instr.declaration ++ is) = _
    rw [ih]
    rfl

theorem stackEstimate_declarations (is : List (Instr Nat Bytecode)) :
    stackEstimate 0 0 (fs.map Instr.declaration ++ is) = stackEstimate 0 0 is := by
  induction fs with
  | nil => rfl
  | cons f fs ih => exact ih

theorem assemble_declarations (name : String) (scope : Scope) (items : List Item) :
    assemble name scope (declarations fs ++ items)
      = (assembleAt fs.length name scope items).map (headed fs) := by
  have hresolve : resolve (declarations fs ++ items)
      = (relocate (labels fs.length items) items).map (fs.map Instr.declaration ++ ·) := by
    rw [resolve, relocate_declarations, labels_declarations, Nat.zero_add]
  rw [assemble, assembleAt, hresolve]
  cases relocate (labels fs.length items) items with
  | error fault => rfl
  | ok listing =>
    simp only [Except.map, bind, Except.bind, dropReturns_declarations, stackEstimate_declarations]
    cases stackEstimate 0 0 (dropReturns false listing) with
    | error fault => rfl
    | ok size => simp [headed, pure, Except.pure]

theorem le_of_assembleAt {pos : Nat} {name : String} {scope : Scope} {items : List Item}
    {b : Bytecode} (h : assembleAt pos name scope items = .ok b) {kind : Jump} {target : Nat}
    (hjump : .jump kind target ∈ b.code) : pos ≤ target := by
  obtain ⟨listing, hlisting, h⟩ := ok_of_bind h
  obtain ⟨size, -, h⟩ := ok_of_bind h
  cases h
  have hmem := mem_of_mem_dropReturns (List.mem_toArray.1 hjump)
  obtain ⟨n, hn⟩ := mem_table_of_relocate hlisting hmem
  exact le_of_mem_labels hn

end Bytecode

namespace Node

/-- Code from a scope and the action that emits it, whose positions start at
`pos`. -/
def assembleBodyAt (pos : Nat) (name : String) (scope : Scope) (body : Emit Unit) :
    Except Fault Bytecode :=
  match body.run {} with
  | .ok _ a => Bytecode.assembleAt pos name scope a.items.toList
  | .error fault _ => .error fault

theorem assembleBodyAt_outcome (pos : Nat) (name : String) (scope : Scope) (body : Emit Unit) :
    assembleBodyAt pos name scope body
      = body.outcome {} >>= fun a => Bytecode.assembleAt pos name scope a.items.toList := by
  rw [assembleBodyAt, Emit.outcome]
  cases body.run {} <;> rfl

theorem run_emitAll_declarations (a : Assembler) :
    (emitAll (fs.map fun f => .instr (Instr.declaration f))).run a
      = .ok () { a with items := a.items ++ (declarations fs).toArray } := by
  induction fs generalizing a with
  | nil =>
    show Result.ok () a = _
    simp [declarations]
  | cons f fs ih =>
    show (emitAll (fs.map fun f => .instr (Instr.declaration f))).run
      { a with items := a.items.push (.instr (Instr.declaration f)) } = _
    rw [ih]
    simp [declarations]

theorem assembleBody_headed (name : String) (scope : Scope) {body : Emit Unit}
    (hbody : Emit.Planned body) :
    assembleBody name scope (do
      emitAll (fs.map fun f => .instr (Instr.declaration f))
      body) = (assembleBodyAt fs.length name scope body).map (Bytecode.headed fs) := by
  obtain ⟨p, hbody⟩ := hbody
  have hitems := hbody (#[] ++ (declarations fs).toArray) ({} : Assembler).nextLabel
  rw [assembleBody_outcome, assembleBodyAt_outcome, Emit.outcome_bind, run_emitAll_declarations,
    hbody.run_eq]
  show body.outcome _ >>= _ = _
  rw [hitems]
  cases emitted (p ({} : Assembler).nextLabel).1 with
  | error fault => rfl
  | ok items =>
    simpa [bind, Except.bind, Except.map] using Bytecode.assemble_declarations fs name scope items

end Node

end PageScript
