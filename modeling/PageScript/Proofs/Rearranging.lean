/-
Functions with other numbers.

Two programs that declare two functions one after the other, in either order, have the same
functions afterwards, under other numbers (`Exchange`, `Transport.exchanging`).  As no jump
leads back to the declarations, they then run side by side (`Follows.run_exchanged`).  Any
other order comes from such exchanges, so the same shows of all runs (`Declares.sameShown`)
in a world that is `Furnished`: no value stands for a function that is not there yet.
-/
import PageScript.Proofs.Isolation
import PageScript.Proofs.Returns
import PageScript.Proofs.Heading

open EStateM (Result)

namespace PageScript

open Instr Frame List Store Entries Value

variable {i n : Nat} {cs : Array Bytecode} {α : Type} {fs : List (String × Bytecode)}
  {name : String}

/-! ### Other numbers for code alone -/

/-- Other numbers for code alone. -/
def Renumbering.ofCode (code : Nat → Nat) : Renumbering := { code := code }

def Store.recoded (code : Nat → Nat) (codes : Array Bytecode → Array Bytecode) (s : Store) :
    Store where
  lists := s.lists.map (·.map (·.renumbered (.ofCode code)))
  dicts := s.dicts.map (·.renumbered (.ofCode code))
  refs := s.refs.map (·.map (·.renumbered (.ofCode code)))
  builders := s.builders
  cursors := s.cursors
  codes := codes s.codes

/-- Other numbers for code, where code is found under its other number. -/
def Transfer.recoding (code : Nat → Nat) (codes : Array Bytecode → Array Bytecode)
    (h : ∀ cs id, (codes cs).getD (code id) default = cs.getD id default) :
    Transfer (.ofCode code) where
  store := recoded code codes
  list s id := by
    rw [Store.list, recoded, Store.list, ← getD_map (Array.map _), Array.map_empty]
    rfl
  dict s id := getD_map (Entries.renumbered (.ofCode code)) _ _ []
  ref s id := getD_map (Option.map (Value.renumbered (.ofCode code))) _ _ none
  builder s id := rfl
  cursor s id := by
    have hsize : (recoded code codes s).dicts.size = s.dicts.size := Array.size_map
    rw [Store.cursor, hsize]
    rfl
  code s id := h s.codes id
  newList s items := by simp [Store.newList, Store.recoded, Value.renumbered, Renumbering.ofCode]
  newDict s entries := by simp [Store.newDict, Store.recoded, Value.renumbered, Renumbering.ofCode]
  newRef s v := by simp [Store.newRef, Store.recoded, Value.renumbered, Renumbering.ofCode]
  newEmptyRef s := by simp [Store.newEmptyRef, Store.recoded, Value.renumbered, Renumbering.ofCode]
  newConcat s t := by simp [Store.newConcat, Store.recoded, Value.renumbered, Renumbering.ofCode]
  newCursor s c := rfl
  setList s id items := by simp [Store.setList, Store.recoded, Renumbering.ofCode]
  setDict s id entries := by simp [Store.setDict, Store.recoded, Renumbering.ofCode]
  setRef s id v := by simp [Store.setRef, Store.recoded, Renumbering.ofCode]
  appendTo s id t := rfl
  setCursor s id c := rfl
  lists_le s := by simp [recoded]
  dicts_le s := by simp [recoded]
  refs_le s := by simp [recoded]

/-- If the value stands for a function, this is one of the first `n`. -/
def Value.CodeBelow (n : Nat) : Value → Prop
  | .code id => id < n
  | _ => True

/-- All values in the store that stand for functions stand for one of the first
`n`. -/
structure Store.CodeBelow (n : Nat) (s : Store) : Prop where
  items : ∀ items ∈ s.lists, ∀ v ∈ items, v.CodeBelow n
  entries : ∀ entries ∈ s.dicts, ∀ e ∈ entries, e.2.CodeBelow n
  cells : ∀ cell ∈ s.refs, ∀ v ∈ cell, v.CodeBelow n

theorem Value.codeBelow_succ {v : Value} (h : v.CodeBelow n) : v.CodeBelow (n + 1) := by
  cases v with
  | code id => exact Nat.lt_succ_of_lt h
  | _ => trivial

theorem map_eq_self {f : α → α} {xs : Array α} (h : ∀ x ∈ xs, f x = x) : xs.map f = xs :=
  (Array.map_congr_left h).trans (Array.map_id xs)

section

variable {code : Nat → Nat} {n : Nat} (hcode : ∀ id < n, code id = id)

include hcode

theorem Value.recoded_of_codeBelow {v : Value} (h : v.CodeBelow n) :
    v.renumbered (.ofCode code) = v := by
  cases v with
  | code id => exact congrArg Value.code (hcode id h)
  | datum d => cases d <;> rfl
  | _ => rfl

theorem Entries.recoded_of_codeBelow {es : Entries Value} (h : ∀ e ∈ es, e.2.CodeBelow n) :
    es.renumbered (.ofCode code) = es := by
  refine (map_congr_left fun e he => ?_).trans (map_id es)
  exact congrArg (Prod.mk e.1) (Value.recoded_of_codeBelow hcode (h e he))

theorem Store.recoded_of_codeBelow {s : Store} (h : s.CodeBelow n)
    (codes : Array Bytecode → Array Bytecode) :
    s.recoded code codes = { s with codes := codes s.codes } := by
  have hlists : s.lists.map (·.map (·.renumbered (.ofCode code))) = s.lists :=
    map_eq_self fun items hitems => map_eq_self fun v hv =>
      Value.recoded_of_codeBelow hcode (h.items items hitems v hv)
  have hdicts : s.dicts.map (·.renumbered (.ofCode code)) = s.dicts :=
    map_eq_self fun entries hentries =>
      Entries.recoded_of_codeBelow hcode (h.entries entries hentries)
  have hrefs : s.refs.map (·.map (·.renumbered (.ofCode code))) = s.refs := by
    refine map_eq_self fun cell hcell => ?_
    cases cell with
    | none => rfl
    | some v => exact congrArg some (Value.recoded_of_codeBelow hcode (h.cells _ hcell v rfl))
  rw [recoded, hlists, hdicts, hrefs]

end

/-! ### Two functions that change places -/

def namesOf (fs : List (String × Bytecode)) : List String := fs.map Prod.fst

/-- Two functions that a program declares one after the other, the second of which would get
the number `base + 1`, where the table of functions is `table`. -/
structure Exchange where
  base : Nat
  first : String × Bytecode
  second : String × Bytecode
  before : List (String × Bytecode)
  after : List (String × Bytecode)
  table : Entries Value
  ne : first.1 ≠ second.1
  below : ∀ e ∈ table, e.2.CodeBelow base

namespace Exchange

variable (X : Exchange) {id : Nat}

def old : List (String × Bytecode) := X.before ++ X.first :: X.second :: X.after

def new : List (String × Bytecode) := X.before ++ X.second :: X.first :: X.after

/-- The number that a function has in the other order. -/
def code (id : Nat) : Nat :=
  if id = X.base then X.base + 1 else if id = X.base + 1 then X.base else id

theorem code_code (id : Nat) : X.code (X.code id) = id := by grind [code]

theorem code_of_lt (h : id < X.base) : X.code id = id := by grind [code]

theorem code_of_ge (h : X.base + 2 ≤ id) : X.code id = id := by grind [code]

def codes (cs : Array Bytecode) : Array Bytecode :=
  Array.ofFn fun i : Fin (max (X.base + 2) cs.size) => cs.getD (X.code i) default

theorem getElem?_codes (id : Nat) : (X.codes cs)[id]?
    = if id < max (X.base + 2) cs.size then some (cs[X.code id]?.getD default) else none := by
  simp only [codes, Array.getElem?_ofFn, Array.getD_eq_getD_getElem?, dite_eq_ite]

theorem getD_codes (cs : Array Bytecode) (id : Nat) :
    (X.codes cs).getD (X.code id) default = cs.getD id default := by
  simp only [Array.getD_eq_getD_getElem?, X.getElem?_codes, X.code_code]
  grind [code]

theorem size_codes (h : X.base + 2 ≤ cs.size) : (X.codes cs).size = cs.size := by
  simp [codes, h]

theorem codes_push (h : X.base + 2 ≤ cs.size) (b : Bytecode) :
    X.codes (cs.push b) = (X.codes cs).push b := by
  refine Array.ext_getElem? fun id => ?_
  grind [getElem?_codes, size_codes, code]

theorem codes_push_push (h : X.base = cs.size) (a b : Bytecode) :
    X.codes ((cs.push a).push b) = (cs.push b).push a := by
  refine Array.ext_getElem? fun id => ?_
  grind [getElem?_codes, code]

def oldTable : Entries Value :=
  (X.second.1, .code (X.base + 1)) :: (X.first.1, .code X.base) :: X.table

def newTable : Entries Value :=
  (X.first.1, .code (X.base + 1)) :: (X.second.1, .code X.base) :: X.table

theorem get?_newTable (name : String) :
    X.newTable.get? name = (X.oldTable.get? name).map (·.renumbered (.ofCode X.code)) := by
  have htable := recoded_of_codeBelow (fun _ => X.code_of_lt) X.below
  have holdTable : X.oldTable.renumbered (.ofCode X.code)
      = (X.second.1, .code X.base) :: (X.first.1, .code (X.base + 1)) :: X.table := by
    have hswap : X.code X.base = X.base + 1 ∧ X.code (X.base + 1) = X.base := by grind [code]
    rw [← htable, oldTable]
    simp [Entries.renumbered, Value.renumbered, Renumbering.ofCode, hswap]
  have hne := X.ne
  rw [← get?_renumbered, holdTable, newTable, get?, get?]
  grind

open Classical in
/-- A table of functions in the other order: those that were declared since stay
in front. -/
noncomputable def functions (es : Entries Value) : Entries Value :=
  if X.oldTable <:+ es then
    Entries.renumbered (.ofCode X.code) (es.take (es.length - X.oldTable.length)) ++ X.newTable
  else es.renumbered (.ofCode X.code)

theorem functions_append (es : Entries Value) :
    X.functions (es ++ X.oldTable) = es.renumbered (.ofCode X.code) ++ X.newTable := by
  rw [functions, if_pos (suffix_append _ _), length_append, Nat.add_sub_cancel,
    take_left]

theorem get?_functions (es : Entries Value) (name : String) :
    (X.functions es).get? name = (es.get? name).map (·.renumbered (.ofCode X.code)) := by
  by_cases h : X.oldTable <:+ es
  · obtain ⟨since, rfl⟩ := h
    rw [functions_append, get?_append, get?_append, get?_renumbered,
      get?_newTable]
    cases get? since name <;> rfl
  · rw [functions, if_neg h]
    exact get?_renumbered

end Exchange

noncomputable def Transport.exchanging (X : Exchange) : Transport (.ofCode X.code) where
  toTransfer := .recoding X.code X.codes X.getD_codes
  constants es := es.renumbered (.ofCode X.code)
  written := id
  written_append _ _ := rfl
  functions := X.functions
  functions_get? := X.get?_functions
  Ready s es := X.base + 2 ≤ s.codes.size ∧ X.oldTable <:+ es
  newCode s es b hready := by
    have hcode : Value.code (X.codes s.codes).size
        = (Value.code s.codes.size).renumbered (.ofCode X.code) := by
      rw [X.size_codes hready.1]
      exact congrArg Value.code (X.code_of_ge hready.1).symm
    have hpush : ({ recoded X.code X.codes s with codes := (X.codes s.codes).push b } : Store)
        = recoded X.code X.codes { s with codes := s.codes.push b } := by
      rw [recoded, recoded, X.codes_push hready.1]
    exact congrArg₂ Prod.mk hcode hpush
  functions_cons s es name v hready := by
    obtain ⟨since, rfl⟩ := hready.2
    rw [X.functions_append]
    exact X.functions_append ((name, v) :: since)

theorem Transport.knows_exchanging (X : Exchange) (es : Entries Value) (name : String) :
    (Transport.exchanging X).Knows es name :=
  ⟨get?_renumbered, fun _ _ => put_renumbered⟩

/-! ### Declarations that are run -/

namespace Machine

variable {m m' : Machine} {f : String × Bytecode}

/-- The machine after it has declared a function. -/
def declaring (f : String × Bytecode) (m : Machine) : Machine :=
  { m with
    world := { m.world with store := (m.world.store.newCode f.2).2 }
    interpreter := { m.interpreter with
      functions := (f.1, (m.world.store.newCode f.2).1) :: m.interpreter.functions }
    current := { m.current with pos := m.current.pos + 1 }
    steps := m.steps + 1 }

theorem step_declaration (hi : m.next? = some (Instr.declaration f))
    (hfree : m.interpreter.functions.get? f.1 = none) :
    step.run m = .ok .running (m.declaring f) := by
  have hfunctions : m.tick.interpreter.functions.get? f.1 = none := hfree
  have hexec : (Instr.declaration f : Instr Nat Bytecode).exec.run m.tick = .ok .next { m.tick with
      world := { m.world with store := (m.world.store.newCode f.2).2 }
      interpreter := { m.interpreter with
        functions := (f.1, (m.world.store.newCode f.2).1) :: m.interpreter.functions } } := by
    simp only [Instr.declaration, exec, Exec.declareFunction, EStateM.run_bind,
      Exec.run_onStore, EStateM.run_get, pure, Except.pure, hfunctions]
    rfl
  rw [step_of_some hi, hexec]
  rfl

end Machine

/-! ### Runs side by side -/

def Ending.result? {α : Type} (read : Value → α) : Ending → Option α
  | .finished v => some (read v)
  | _ => none

/-- Two runs of which the same shows: what is printed, how they end, how many
steps are made, and what is read off the variables and the result, numbers
apart. -/
structure SameShown (x y : Ending × Machine) : Prop where
  written : x.2.world.written = y.2.world.written
  buffers : x.2.interpreter.buffers = y.2.interpreter.buffers
  steps : x.2.steps = y.2.steps
  fault? : x.1.fault? = y.1.fault?
  result? : ∀ {α : Type} {read : Store → Value → Except Fault α}, Numberless read →
    x.1.result? (read x.2.world.store) = y.1.result? (read y.2.world.store)
  contents : ∀ {α : Type} {read : Store → Value → Except Fault α}, Numberless read →
    x.2.contents read = y.2.contents read

theorem SameShown.refl (x : Ending × Machine) : SameShown x x :=
  ⟨rfl, rfl, rfl, rfl, fun _ => rfl, fun _ => rfl⟩

theorem SameShown.trans {x y z : Ending × Machine} (h : SameShown x y) (h' : SameShown y z) :
    SameShown x z where
  written := h.written.trans h'.written
  buffers := h.buffers.trans h'.buffers
  steps := h.steps.trans h'.steps
  fault? := h.fault?.trans h'.fault?
  result? hread := (h.result? hread).trans (h'.result? hread)
  contents hread := (h.contents hread).trans (h'.contents hread)

theorem Bytecode.mem_code_headed {tail : Bytecode} {i : Instr Nat Bytecode} :
    i ∈ (tail.headed fs).code ↔ (∃ f ∈ fs, Instr.declaration f = i) ∨ i ∈ tail.code := by
  simp [headed]

/-- Code with the constants of resolved code, and with instructions from there only. -/
def Bytecode.DrawsOnResolved (b : Bytecode) : Prop :=
  ∃ c : Bytecode, c.IsResolved ∧ b.constants = c.constants ∧ ∀ i ∈ b.code, i ∈ c.code

theorem Bytecode.IsResolved.drawsOnResolved {b : Bytecode} (h : b.IsResolved) :
    b.DrawsOnResolved := ⟨b, h, rfl, fun _ => id⟩

theorem Bytecode.DrawsOnResolved.declared {b code : Bytecode} (h : b.DrawsOnResolved)
    (hmem : .declareFunction name code ∈ b.code) : code.IsResolved := by
  obtain ⟨c, hc, -, hcode⟩ := h
  exact hereditary_isResolved.declared hc (hcode _ hmem)

theorem Bytecode.hereditary_drawsOnResolved : Hereditary DrawsOnResolved :=
  ⟨isResolved_default.drawsOnResolved, fun h hi => (h.declared hi).drawsOnResolved⟩

theorem Bytecode.DrawsOnResolved.literal {b : Bytecode} (h : b.DrawsOnResolved) :
    ∀ v ∈ b.constants, v.isLiteral := by
  obtain ⟨c, hc, hconstants, -⟩ := h
  rw [hconstants]
  exact fun _ => hc.literal

namespace Machine

variable {X : Exchange} {tail : Bytecode} {m m' : Machine}

/-- The machine whose program is `tail` with declarations in front. -/
def headed (fs : List (String × Bytecode)) (tail : Bytecode) (m : Machine) : Machine :=
  m.relined (tail.headed fs).code fun _ => (tail.headed fs).listing

/-- The machine that has declared its functions in the other order. -/
noncomputable def exchanged (X : Exchange) (tail : Bytecode) (m : Machine) : Machine :=
  ((Transport.exchanging X).machine m).headed X.new tail

/-- The machine has declared the two functions of its program, and runs the rest. -/
structure Follows (X : Exchange) (tail : Bytecode) (m : Machine) : Prop where
  runs : m.RunsOnly Bytecode.DrawsOnResolved
  codes : X.base + 2 ≤ m.world.store.codes.size
  functions : X.oldTable <:+ m.interpreter.functions
  base : m.outermost.frame.code.code = (tail.headed X.old).code ∧
    X.before.length + 2 ≤ m.outermost.pos

theorem Follows.step
    (hjump : ∀ kind target, .jump kind target ∈ tail.code → X.old.length ≤ target)
    (h : m.Follows X tail) (hstep : Machine.step.run m = .ok .running m') : m'.Follows X tail := by
  obtain ⟨i, flow, m₁, hi, hexec, hgoes⟩ := step_goes hstep
  have hsettles : m.tick.Settles (fun _ => True) (fun _ => True) m₁ :=
    i.exec_settles (fun _ _ _ => trivial) (.inr fun _ => trivial) m.tick flow m₁ hexec
  have hworld : m'.world = m₁.world := hgoes.world_eq
  have hinterpreter : m'.interpreter = m₁.interpreter := by cases hgoes <;> rfl
  refine ⟨h.runs.step Bytecode.hereditary_drawsOnResolved hstep, ?_, ?_, ?_⟩
  · rw [hworld]
    exact Nat.le_trans h.codes hsettles.added
  · rw [hinterpreter]
    exact h.functions.trans hsettles.functions
  · refine outermost_related
      (R := fun a b => a.frame.code.code = _ ∧ _ ≤ a.pos → b.frame.code.code = _ ∧ _ ≤ b.pos)
      (fun _ => id) (fun a _ ha => ⟨ha.1, Nat.le_succ_of_le ha.2⟩) ?_ hstep h.base
    rintro i flow m₁ pos hi hrun hpos ⟨hcode, hle⟩
    refine ⟨(keeps_of_exec hrun).1.trans hcode, ?_⟩
    rcases hpos with rfl | rfl | rfl
    · exact hle
    · exact Nat.le_succ_of_le hle
    · -- No jump leads back to a declaration.
      obtain ⟨kind, rfl⟩ := jump_of_exec hrun
      have hmem := Array.mem_of_getElem? hi
      rw [hcode] at hmem
      rcases Bytecode.mem_code_headed.1 hmem with ⟨f, -, hf⟩ | hmem
      · cases hf
      · have hlength := hjump kind pos hmem
        rw [Exchange.old, length_append] at hlength
        exact Nat.le_trans (Nat.add_le_add_left (Nat.le_add_left _ _) _) hlength

theorem Follows.fetch (h : m.Follows X tail) (hcallers : m.callers = []) :
    (tail.headed X.new).code[m.current.pos]? = m.next? := by
  obtain ⟨hcode, hpos⟩ := h.base
  rw [outermost, hcallers] at hcode hpos
  replace hpos : X.before.length + 2 ≤ m.current.pos := hpos
  replace hcode : m.current.frame.code.code = (tail.headed X.old).code := hcode
  have hfetch : ∀ a b, (tail.headed (X.before ++ a :: b :: X.after)).code[m.current.pos]?
      = (X.after.map Instr.declaration ++ tail.code.toList)[m.current.pos
        - (X.before.length + 2)]? := by
    intro a b
    have hsplit : (tail.headed (X.before ++ a :: b :: X.after)).code.toList
        = (X.before ++ [a, b]).map Instr.declaration
          ++ (X.after.map Instr.declaration ++ tail.code.toList) := by
      simp [Bytecode.headed]
    rw [← Array.getElem?_toList, hsplit, getElem?_append_right (by simpa using hpos)]
    simp
  rw [next?, hcode, Exchange.old, Exchange.new, hfetch, hfetch]

theorem Follows.step_exchanged (h : m.Follows X tail) :
    Machine.step.run (m.exchanged X tail)
      = mapState (headed X.new tail)
        (Exec.carried (Transport.exchanging X) (Progress.renumbered (.ofCode X.code))
          (Machine.step.run m)) := by
  have hready : (Transport.exchanging X).Ready m.world.store m.interpreter.functions :=
    ⟨h.codes, h.functions⟩
  have hliteral := (h.runs.activations m.current mem_cons_self).code.literal
  have hstep := Transport.step hliteral hready fun name _ => Transport.knows_exchanging X _ name
  rw [exchanged, headed, step_relined, hstep]
  · rfl
  intro hcallers
  exact h.fetch (map_eq_nil_iff.1 hcallers)

theorem Follows.run_exchanged
    (hjump : ∀ kind target, .jump kind target ∈ tail.code → X.old.length ≤ target)
    (h : m.Follows X tail) (fuel : Nat) :
    (m.exchanged X tail).run fuel = ((m.run fuel).1.renumbered (.ofCode X.code),
      (m.run fuel).2.exchanged X tail) := by
  induction fuel generalizing m with
  | zero => rfl
  | succ fuel ih =>
    rw [run, run, h.step_exchanged]
    cases hstep : Machine.step.run m with
    | error fault last => rfl
    | ok progress next =>
      cases progress with
      | done v => rfl
      | running => exact ih (h.step hjump hstep)

section

variable {α : Type} {read : Store → Value → Except Fault α}

theorem contents_headed : (m.headed fs tail).contents read = m.contents read := by
  rw [headed, contents, contents, mainFrame_relined, relined_world]
  rfl

theorem contents_exchanged (hread : Numberless read) :
    (m.exchanged X tail).contents read = m.contents read := by
  rw [exchanged, contents_headed, Transport.contents_machine hread]

end

theorem exchanged_world :
    (m.exchanged X tail).world = (Transport.exchanging X).world m.world := relined_world

theorem exchanged_interpreter : (m.exchanged X tail).interpreter
    = (Transport.exchanging X).interpreter m.interpreter := relined_interpreter

theorem exchanged_steps : (m.exchanged X tail).steps = m.steps := relined_steps

theorem sameShown_exchanged (ending : Ending) (m : Machine) :
    SameShown (ending, m) (ending.renumbered (.ofCode X.code), m.exchanged X tail) where
  written := by
    dsimp only
    rw [exchanged_world]
    rfl
  buffers := by
    dsimp only
    rw [exchanged_interpreter]
    rfl
  steps := exchanged_steps.symm
  fault? := by cases ending <;> rfl
  result? hread := by
    dsimp only
    rw [exchanged_world]
    cases ending with
    | finished v => exact congrArg some (hread (Transport.exchanging X).toTransfer _ v).symm
    | failed fault => rfl
    | outOfFuel => rfl
  contents hread := (contents_exchanged hread).symm

end Machine

/-! ### Code that is added -/

namespace Store

/-- The number of code when a piece is put in at `base`. -/
def codeBeside (base id : Nat) : Nat := if id < base then id else id + 1

theorem getD_insertIdx (base : Nat) (b : Bytecode) (cs : Array Bytecode) (id : Nat) :
    (cs.insertIdxIfInBounds base b).getD (codeBeside base id) default = cs.getD id default := by
  rw [Array.getD_eq_getD_getElem?, Array.getD_eq_getD_getElem?]
  grind [codeBeside]

theorem Numberless.newCode {read : Store → Value → Except Fault α} (hread : Numberless read)
    {s : Store} (hs : s.CodeBelow s.codes.size) (b : Bytecode) {v : Value}
    (hv : v.renumbered (.ofCode (codeBeside s.codes.size)) = v) :
    read (s.newCode b).2 v = read s v := by
  have hstore := recoded_of_codeBelow (fun _ hid => if_pos hid :
    ∀ id < s.codes.size, codeBeside s.codes.size id = id) hs (·.insertIdxIfInBounds s.codes.size b)
  have hsame := hread (.recoding _ _ (getD_insertIdx s.codes.size b)) s v
  rw [hv] at hsame
  have hpush : s.codes.insertIdxIfInBounds s.codes.size b = s.codes.push b := by
    simp [Array.insertIdxIfInBounds]
  rw [hpush] at hstore
  exact (congrArg (read · v) hstore.symm).trans hsame

end Store

/-! ### Worlds to start in -/

/-- In the world and the superglobals, what stands for a function stands for one
that is there, and its code has its jumps and names resolved. -/
structure World.Furnished (w : World) (superglobals : List Value) : Prop where
  resolved : ∀ code ∈ w.store.codes, code.IsResolved
  store : w.store.CodeBelow w.store.codes.size
  constants : ∀ e ∈ w.constants, e.2.CodeBelow w.store.codes.size
  superglobals : ∀ v ∈ superglobals, v.CodeBelow w.store.codes.size

namespace World.Furnished

variable {w : World} {superglobals : List Value} {c : Nat → Nat}

theorem superglobals_recoded (h : w.Furnished superglobals)
    (hc : ∀ id < w.store.codes.size, c id = id) :
    superglobals.map (·.renumbered (.ofCode c)) = superglobals :=
  (map_congr_left fun v hv => recoded_of_codeBelow hc (h.superglobals v hv)).trans
    (map_id superglobals)

theorem frame_recoded (h : w.Furnished superglobals) (hc : ∀ id < w.store.codes.size, c id = id)
    {b : Bytecode} {frame : Frame} (hnew : new superglobals b = .ok frame) :
    frame.renumbered (.ofCode c) = frame := by
  have hframe := new_renumbered (ρ := .ofCode c) superglobals b
  rw [h.superglobals_recoded hc, hnew] at hframe
  exact (Except.ok.inj hframe).symm

theorem new : ({} : World).Furnished [] where
  resolved := fun _ hcode => absurd hcode (Array.not_mem_empty _)
  store := ⟨fun _ h => absurd h (Array.not_mem_empty _), fun _ h => absurd h (Array.not_mem_empty _),
    fun _ h => absurd h (Array.not_mem_empty _)⟩
  constants := nofun
  superglobals := nofun

theorem setup (h : w.Furnished superglobals) (i : Interpreter) (query : List (String × String)) :
    (i.setup w query).1.Furnished (i.setup w query).2.superglobals where
  resolved := h.resolved
  constants := h.constants
  superglobals v hv := by
    rcases mem_cons.1 hv with rfl | hv
    · exact trivial
    · rw [mem_singleton.1 hv]
      exact trivial
  store := by
    refine ⟨h.store.items, fun entries hentries e he => ?_, fun cell hcell v hv => ?_⟩
    · rcases Array.mem_push.1 hentries with hentries | rfl
      · exact h.store.entries entries hentries e he
      · rcases of_mem_putAll he with he | ⟨e', he', heq⟩
        · cases he
        · obtain ⟨entry, -, rfl⟩ := mem_map.1 he'
          rw [heq]
          exact trivial
    · rcases Array.mem_push.1 hcell with hcell | rfl
      · exact h.store.cells cell hcell v hv
      · cases hv
        exact trivial

theorem newCode (h : w.Furnished superglobals) {b : Bytecode} (hb : b.IsResolved) :
    { w with store := (w.store.newCode b).2 : World }.Furnished superglobals := by
  have hsize : (w.store.newCode b).2.codes.size = w.store.codes.size + 1 := Array.size_push _
  constructor
  case resolved =>
    intro code hcode
    rcases Array.mem_push.1 hcode with hcode | rfl
    · exact h.resolved code hcode
    · exact hb
  all_goals rw [hsize]
  case store =>
    exact ⟨fun items hitems v hv => codeBelow_succ (h.store.items items hitems v hv),
      fun entries hentries e he => codeBelow_succ (h.store.entries entries hentries e he),
      fun cell hcell v hv => codeBelow_succ (h.store.cells cell hcell v hv)⟩
  case constants => exact fun e he => codeBelow_succ (h.constants e he)
  case superglobals => exact fun v hv => codeBelow_succ (h.superglobals v hv)

end World.Furnished

namespace Machine

variable {w : World} {i : Interpreter} {tail : Bytecode} {fs : List (String × Bytecode)}
  {m start : Machine}

theorem launch_headed : launch w i (tail.headed fs) = (launch w i tail).map (·.headed fs tail) := by
  have hnew : new i.superglobals (tail.headed fs)
      = (new i.superglobals tail).map fun frame => { frame with code := tail.headed fs } := by
    show (fillSuperglobals i.superglobals (Array.replicate tail.symbolSize .unset)
      tail.superglobals >>= _) = Except.map _ (fillSuperglobals i.superglobals
        (Array.replicate tail.symbolSize .unset) tail.superglobals >>= _)
    cases fillSuperglobals i.superglobals (Array.replicate tail.symbolSize .unset)
      tail.superglobals <;> rfl
  rw [launch, launch, hnew]
  cases hframe : new i.superglobals tail with
  | error fault => rfl
  | ok frame =>
    obtain ⟨slots, -, h⟩ := ok_of_bind hframe
    cases h
    rfl

/-- The machine is about to declare the last functions of its program, and nothing in it
stands for one of them. -/
structure Declares (tail : Bytecode) (before fs : List (String × Bytecode)) (m : Machine) :
    Prop where
  callers : m.callers = []
  pos : m.current.pos = before.length
  code : m.current.frame.code = tail
  size : m.current.frame.slots.size = tail.symbolSize
  furnished : m.world.Furnished m.interpreter.superglobals
  functions : ∀ e ∈ m.interpreter.functions, e.2.CodeBelow m.world.store.codes.size
  frame : ∀ c : Nat → Nat, (∀ id < m.world.store.codes.size, c id = id) →
    m.current.frame.renumbered (.ofCode c) = m.current.frame
  free : ∀ f ∈ fs, m.interpreter.functions.get? f.1 = none
  nodup : (namesOf fs).Nodup
  draws : (tail.headed (before ++ fs)).DrawsOnResolved
  jumps : ∀ kind target, .jump kind target ∈ tail.code → (before ++ fs).length ≤ target

namespace Declares

variable {before fs gs : List (String × Bytecode)} {f g : String × Bytecode}

theorem perm (h : m.Declares tail before fs) (hperm : fs.Perm gs) : m.Declares tail before gs := {
  h with
  free f hf := h.free f (hperm.mem_iff.2 hf)
  nodup := (hperm.map Prod.fst).nodup_iff.1 h.nodup
  draws := by
    obtain ⟨c, hc, hconstants, hcode⟩ := h.draws
    refine ⟨c, hc, hconstants, fun i hi => hcode i ?_⟩
    rw [Bytecode.mem_code_headed] at hi ⊢
    exact hi.imp_left fun ⟨f, hf, hi⟩ => ⟨f, (hperm.append_left before).mem_iff.2 hf, hi⟩
  jumps kind target hmem := by
    rw [length_append, ← hperm.length_eq, ← length_append]
    exact h.jumps kind target hmem }

theorem resolved (h : m.Declares tail before (f :: fs)) : f.2.IsResolved := by
  have hmem : Instr.declaration f ∈ (tail.headed (before ++ f :: fs)).code :=
    Bytecode.mem_code_headed.2 (.inl ⟨f, by simp, rfl⟩)
  exact h.draws.declared hmem

theorem declaring (h : m.Declares tail before (f :: fs)) :
    (m.declaring f).Declares tail (before ++ [f]) fs := by
  have hsize : (m.declaring f).world.store.codes.size = m.world.store.codes.size + 1 :=
    Array.size_push _
  obtain ⟨hnew, hnodup⟩ := nodup_cons.1 h.nodup
  constructor
  case callers => exact h.callers
  case pos => simp [Machine.declaring, h.pos]
  case code => exact h.code
  case size => exact h.size
  case furnished => exact h.furnished.newCode h.resolved
  case functions =>
    rw [hsize]
    exact forall_mem_cons.2 ⟨Nat.lt_succ_self _, fun e he => codeBelow_succ (h.functions e he)⟩
  case frame =>
    rw [hsize]
    exact fun c hc => h.frame c fun id hid => hc id (Nat.lt_succ_of_lt hid)
  case free =>
    intro g hg
    have hne : g.1 ≠ f.1 := fun heq => hnew (heq ▸ mem_map_of_mem hg)
    show get? ((f.1, _) :: m.interpreter.functions) g.1 = none
    rw [get?, lookup_cons, beq_eq_false_iff_ne.2 hne]
    exact h.free g (mem_cons_of_mem _ hg)
  case nodup => exact hnodup
  case draws => simpa using h.draws
  case jumps => simpa using h.jumps

theorem run_succ (h : m.Declares tail before (f :: fs)) (fuel : Nat) :
    (m.headed (before ++ f :: fs) tail).run (fuel + 1)
      = ((m.declaring f).headed (before ++ [f] ++ fs) tail).run fuel := by
  have hheaded : ∀ {m : Machine} {fs}, m.callers = [] → m.headed fs tail = { m with
      current := m.current.relined (tail.headed fs).code fun _ => (tail.headed fs).listing } :=
    relined_of_nil
  have hi : (tail.headed (before ++ f :: fs)).code[m.current.pos]? = some (Instr.declaration f) := by
    rw [h.pos, Bytecode.headed, Array.getElem?_append_left (by simp)]
    simp
  have hstep : step.run (m.headed (before ++ f :: fs) tail)
      = .ok .running ((m.headed (before ++ f :: fs) tail).declaring f) := by
    rw [hheaded h.callers]
    exact step_declaration hi (h.free f mem_cons_self)
  rw [run, hstep, append_assoc, hheaded h.callers, hheaded h.declaring.callers]
  rfl

theorem contents_declaring (h : m.Declares tail before (f :: fs))
    {read : Store → Value → Except Fault α} (hread : Numberless read) :
    (m.declaring f).contents read = m.contents read := by
  have hmain : (m.declaring f).mainFrame = m.mainFrame := by
    rw [mainFrame_of_nil h.callers, mainFrame_of_nil h.declaring.callers]
    rfl
  rw [contents, contents, hmain, mainFrame_of_nil h.callers]
  refine map_congr_left fun name _ => congrArg (Prod.mk name) ?_
  have hload := load_renumbered (f := m.current.frame)
    (ρ := .ofCode (codeBeside m.world.store.codes.size)) (m.current.frame.code.slotOf name)
  rw [h.frame (codeBeside _) fun _ hid => if_pos hid] at hload
  cases hv : m.current.frame.load (m.current.frame.code.slotOf name) with
  | error fault => rfl
  | ok v =>
    rw [hv] at hload
    exact hread.newCode h.furnished.store f.2 (Except.ok.inj hload).symm

theorem sameShown_outOfFuel {m' : Machine} (hwritten : m.world.written = m'.world.written)
    (hbuffers : m.interpreter.buffers = m'.interpreter.buffers) (hsteps : m.steps = m'.steps)
    (hcontents : ∀ {α : Type} {read : Store → Value → Except Fault α}, Numberless read →
      m.contents read = m'.contents read) :
    SameShown (.outOfFuel, m.headed fs tail) (.outOfFuel, m'.headed gs tail) where
  written := by simpa [headed] using hwritten
  buffers := by simpa [headed] using hbuffers
  steps := by simpa [headed] using hsteps
  fault? := rfl
  result? _ := rfl
  contents hread := by
    dsimp only
    rw [contents_headed, contents_headed, hcontents hread]

/-- The next two functions change places. -/
def exchange (h : m.Declares tail before (f :: g :: fs)) : Exchange where
  base := m.world.store.codes.size
  first := f
  second := g
  before := before
  after := fs
  table := m.interpreter.functions
  ne heq := (nodup_cons.1 h.nodup).1 (heq ▸ mem_cons_self)
  below := h.functions

theorem exchanged_declaring (h : m.Declares tail before (f :: g :: fs)) :
    (((m.declaring f).declaring g).headed h.exchange.old tail).exchanged h.exchange tail
      = ((m.declaring g).declaring f).headed h.exchange.new tail := by
  have hcode : ∀ id < m.world.store.codes.size, h.exchange.code id = id :=
    fun id => h.exchange.code_of_lt
  -- Before the declarations nothing stands for one of the functions.
  have hframe := h.frame _ hcode
  have hsuperglobals := h.furnished.superglobals_recoded hcode
  have hconstants := recoded_of_codeBelow hcode h.furnished.constants
  have hstore : recoded h.exchange.code h.exchange.codes
      ((m.world.store.newCode f.2).2.newCode g.2).2 = ((m.world.store.newCode g.2).2.newCode f.2).2 := by
    have hbelow : CodeBelow m.world.store.codes.size
        ((m.world.store.newCode f.2).2.newCode g.2).2 :=
      ⟨h.furnished.store.items, h.furnished.store.entries, h.furnished.store.cells⟩
    rw [recoded_of_codeBelow hcode hbelow]
    exact congrArg (fun codes => { m.world.store with codes := codes })
      (h.exchange.codes_push_push rfl f.2 g.2)
  have hfunctions : h.exchange.functions ((g.1, .code (m.world.store.codes.push f.2).size)
      :: (f.1, .code m.world.store.codes.size) :: m.interpreter.functions)
      = (f.1, .code (m.world.store.codes.push g.2).size)
        :: (g.1, .code m.world.store.codes.size) :: m.interpreter.functions := by
    rw [Array.size_push, Array.size_push]
    exact h.exchange.functions_append []
  have hcallers := h.callers
  obtain ⟨world, interpreter, ⟨frame, pos⟩, callers, steps, fault⟩ := m
  subst hcallers
  show ({
      world :=
        { store := recoded h.exchange.code h.exchange.codes
            ((world.store.newCode f.2).2.newCode g.2).2
          constants := world.constants.renumbered (.ofCode h.exchange.code)
          written := world.written
          clock := world.clock }
      interpreter :=
        { functions := h.exchange.functions ((g.1, .code (world.store.codes.push f.2).size)
            :: (f.1, .code world.store.codes.size) :: interpreter.functions)
          buffers := interpreter.buffers
          superglobals := interpreter.superglobals.map (·.renumbered (.ofCode h.exchange.code)) }
      current :=
        { frame := { frame.renumbered (.ofCode h.exchange.code) with
            code := { frame.code with
              code := (tail.headed h.exchange.new).code
              listing := (tail.headed h.exchange.new).listing } }
          pos := pos + 1 + 1 }
      steps := steps + 1 + 1
      stackFault := fault } : Machine) = _
  rw [hstore, hconstants, hfunctions, hsuperglobals, hframe]
  rfl

theorem runs (h : m.Declares tail before fs) :
    (m.headed (before ++ fs) tail).RunsOnly Bytecode.DrawsOnResolved := by
  rw [headed, relined_of_nil h.callers]
  refine ⟨fun b hb => (h.furnished.resolved b hb).drawsOnResolved, ?_⟩
  rw [h.callers]
  obtain rfl := h.code
  exact forall_mem_singleton.2 ⟨h.draws, h.size⟩

theorem follows (h : m.Declares tail before (f :: g :: fs)) :
    (((m.declaring f).declaring g).headed h.exchange.old tail).Follows h.exchange tail := by
  have hold : before ++ [f] ++ [g] ++ fs = h.exchange.old := by simp [Exchange.old, exchange]
  have hcallers := h.declaring.declaring.callers
  have hruns := h.declaring.declaring.runs
  rw [hold] at hruns
  refine ⟨hruns, ?_, ?_, ?_⟩
  · rw [headed, relined_world]
    simp [exchange, Machine.declaring, newCode]
  · rw [headed, relined_interpreter]
    show _ <:+ (g.1, Value.code (m.world.store.codes.push f.2).size) :: _
    rw [Array.size_push]
    exact suffix_refl _
  · rw [headed, relined_of_nil hcallers, outermost]
    dsimp only
    rw [hcallers]
    refine ⟨rfl, ?_⟩
    show before.length + 2 ≤ m.current.pos + 1 + 1
    rw [h.pos]

theorem sameShown_swap (h : m.Declares tail before (f :: g :: fs)) (fuel : Nat) :
    SameShown ((m.headed (before ++ f :: g :: fs) tail).run fuel)
      ((m.headed (before ++ g :: f :: fs) tail).run fuel) := by
  have h' := h.perm (.swap g f fs)
  cases fuel with
  | zero => exact sameShown_outOfFuel rfl rfl rfl fun _ => rfl
  | succ fuel =>
    rw [h.run_succ, h'.run_succ]
    cases fuel with
    | zero =>
      exact sameShown_outOfFuel rfl rfl rfl fun hread =>
        (h.contents_declaring hread).trans (h'.contents_declaring hread).symm
    | succ fuel =>
      have hold : before ++ [f] ++ [g] ++ fs = h.exchange.old := by simp [Exchange.old, exchange]
      have hnew : before ++ [g] ++ [f] ++ fs = h.exchange.new := by simp [Exchange.new, exchange]
      rw [h.declaring.run_succ, h'.declaring.run_succ, hold, hnew, ← h.exchanged_declaring,
        h.follows.run_exchanged h.jumps]
      exact sameShown_exchanged _ _

theorem sameShown (h : m.Declares tail before fs) (hperm : fs.Perm gs) (fuel : Nat) :
    SameShown ((m.headed (before ++ fs) tail).run fuel)
      ((m.headed (before ++ gs) tail).run fuel) := by
  induction hperm generalizing m before fuel with
  | nil => exact .refl _
  | cons f hperm ih =>
    cases fuel with
    | zero => exact sameShown_outOfFuel rfl rfl rfl fun _ => rfl
    | succ fuel =>
      rw [h.run_succ, (h.perm (hperm.cons f)).run_succ]
      exact ih h.declaring fuel
  | swap g f fs => exact h.sameShown_swap fuel
  | trans hperm hperm' ih ih' => exact (ih h fuel).trans (ih' (h.perm hperm) fuel)

theorem of_launch (hw : w.Furnished i.superglobals)
    (hi : i.functions = ({} : Interpreter).functions) (hresolved : (tail.headed fs).IsResolved)
    (hnodup : (namesOf fs).Nodup) (hfree : ∀ f ∈ Native.all, f.name ∉ namesOf fs)
    (hjump : ∀ kind target, .jump kind target ∈ tail.code → fs.length ≤ target)
    (hlaunch : launch w i tail = .ok m) : m.Declares tail [] fs := by
  obtain ⟨_, _, hnew, rfl, rfl⟩ := ok_of_launch hlaunch
  have hnative : ∀ e ∈ i.functions, ∃ f ∈ Native.all, e = (f.name, .native f) := by
    rw [hi]
    intro e he
    obtain ⟨f, hf, rfl⟩ := mem_map.1 he
    exact ⟨f, hf, rfl⟩
  constructor
  case callers => rfl
  case pos => rfl
  case code => rfl
  case size => exact size_of_new hnew
  case furnished => exact hw
  case functions =>
    intro e he
    obtain ⟨f, -, rfl⟩ := hnative e he
    trivial
  case frame => exact fun c hc => hw.frame_recoded hc hnew
  case free =>
    refine fun f hf => get?_eq_none_iff.2 fun hmem => ?_
    obtain ⟨e, he, hname⟩ := mem_map.1 hmem
    obtain ⟨native, hnative, rfl⟩ := hnative e he
    have hname : f.1 = native.name := hname.symm
    exact hfree native hnative (hname ▸ mem_map_of_mem hf)
  case nodup => exact hnodup
  case draws => exact hresolved.drawsOnResolved
  case jumps => exact hjump

end Declares

end Machine

end PageScript
