/-
What `global` denotes.

A function that declares a name global is entered with the slot of that name bound to the
cell of the variable of the frame that calls it, and slots that are bound stay bound.  The
variable is the program's if all functions between declare the name, too
(`globals_borrowed`), and another one if one of them has a variable of its own with this
name (`global_of_caller`).
-/
import PageScript.Proofs.Places
import PageScript.Proofs.StackBound

namespace PageScript

open Sample List

/-! ### Variables in cells -/

namespace Frame

variable {f g : Frame} {s t : Store} {slot other : Int} {name : String} {id : Nat} {r : Value}

def cell? (f : Frame) (name : String) : Option Nat :=
  match f.load (f.code.slotOf name) with
  | .ok (.ref id) => some id
  | _ => none

theorem cell?_eq_some_iff :
    f.cell? name = some id ↔ f.load (f.code.slotOf name) = .ok (.ref id) := by
  unfold cell?
  split <;> simp_all

theorem Settles.load (h : f.Settles g) (hload : f.load slot = .ok (.ref id)) :
    g.load slot = .ok (.ref id) := by
  unfold Frame.load at hload ⊢
  split at hload
  · cases hload
  · rw [if_neg ‹_›]
    split at hload <;> cases hload
    rw [h.slots.bound _ _ ‹_›]

theorem Settles.cell? (h : f.Settles g) (hcell : f.cell? name = some id) :
    g.cell? name = some id := by
  rw [cell?_eq_some_iff] at hcell ⊢
  rw [h.code]
  exact h.load hcell

theorem load_of_getReference (h : f.getReference s slot = .ok (r, g, t)) :
    ∃ id, r = .ref id ∧ g.load slot = .ok (.ref id) := by
  cases refers_of_getReference h with
  | found hload => exact ⟨_, rfl, hload⟩
  | made _ _ hstore => exact ⟨_, rfl, load_of_store_self hstore⟩

theorem load_of_setReference (h : f.setReference s slot r = .ok (g, t)) :
    (∀ other ≠ slot, g.load other = f.load other) ∧
      ((∀ v, f.load slot = .ok v → v.isRef = false) → g.load slot = .ok r) := by
  obtain ⟨_, -, hputs⟩ := puts_of_setReference h
  refine ⟨fun _ hne => hputs.load hne, fun hfree => ?_⟩
  cases hputs with
  | cell hload => cases hfree _ hload
  | slot _ _ hstore => exact load_of_store_self hstore

theorem getVariable_of_cell? (h : f.cell? name = some id) (s : Store) :
    f.getVariable s (f.code.slotOf name) = s.valueOf (.ref id) := by
  rw [getVariable, cell?_eq_some_iff.1 h]
  rfl

theorem storeVariable_of_cell? (h : f.cell? name = some id) (s : Store) (v : Value) :
    f.storeVariable s (f.code.slotOf name) v = .ok (f, s.setRef id v) := by
  rw [storeVariable, cell?_eq_some_iff.1 h]
  rfl

/-- The variables with a name in two frames are one: they are in the same cell.
So both frames always read the same, and what one of them writes is what the
other reads from then on. -/
structure SameVariable (name : String) (f g : Frame) : Prop where
  cell : ∃ id, f.cell? name = some id ∧ g.cell? name = some id
  reads : ∀ s : Store,
    f.getVariable s (f.code.slotOf name) = g.getVariable s (g.code.slotOf name)
  writes : ∀ (s : Store) (old v : Value), g.getVariable s (g.code.slotOf name) = .ok old →
    ∃ t, f.storeVariable s (f.code.slotOf name) v = .ok (f, t) ∧
      g.getVariable t (g.code.slotOf name) = .ok v

theorem SameVariable.of_cell (hf : f.cell? name = some id) (hg : g.cell? name = some id) :
    SameVariable name f g where
  cell := ⟨id, hf, hg⟩
  reads s := by rw [getVariable_of_cell? hf, getVariable_of_cell? hg]
  writes s old v hold := by
    refine ⟨_, storeVariable_of_cell? hf s v, ?_⟩
    rw [getVariable_of_cell? hg, Store.valueOf] at hold ⊢
    have hlt : id < s.refs.size := by
      by_contra hge
      rw [Store.ref, Array.getD_eq_getD_getElem?, Array.getElem?_eq_none (by omega)] at hold
      cases hold
    simp [Store.ref, Store.setRef, hlt]

end Frame

/-! ### Entering functions -/

/-- The code declares a name global, and neither a superglobal nor a parameter
has its slot. -/
structure Bytecode.Borrows (b : Bytecode) (name : String) : Prop where
  declared : name ∈ b.globals.map Prod.fst
  superglobal : b.slotOf name ∉ b.superglobals
  parameter : ∀ n < b.parameters.length, b.slotOf name ≠ n

instance (b : Bytecode) (name : String) : Decidable (b.Borrows name) :=
  decidable_of_iff (name ∈ b.globals.map Prod.fst ∧ b.slotOf name ∉ b.superglobals ∧
      ∀ n < b.parameters.length, b.slotOf name ≠ n)
    ⟨fun ⟨hdeclared, hsuperglobal, hparameter⟩ => ⟨hdeclared, hsuperglobal, hparameter⟩,
      fun h => ⟨h.declared, h.superglobal, h.parameter⟩⟩

namespace Exec

variable {frame frame' : Frame} {m m' : Machine} {name : String}

theorem load_of_bindParameters {slot : Int} {i : Nat} {args : List Value}
    {parameters : List (String × Bool)} (hslot : ∀ n < parameters.length, slot ≠ (i + n : Nat))
    (h : (bindParameters frame i args parameters).run m = .ok frame' m') :
    frame'.load slot = frame.load slot := by
  induction parameters generalizing frame i args m with
  | nil =>
    rw [bindParameters] at h
    cases h
    rfl
  | cons parameter rest ih =>
    cases args with
    | nil => cases h
    | cons v args =>
      obtain ⟨w, m₁, -, h⟩ := ok_of_run_bind h
      obtain ⟨frame₁, m₂, hstore, h⟩ := ok_of_run_bind h
      obtain ⟨s, hstore, -⟩ := store_of_run_onStore hstore
      rw [← Frame.load_of_storeVariable hstore (hslot 0 (by simp))]
      refine ih (fun n hn => ?_) h
      have hne := hslot (n + 1) (by simpa using hn)
      rwa [Nat.add_right_comm]

theorem cell?_of_getReferenceByName {r : Value} (h : (getReferenceByName name).run m = .ok r m') :
    ∃ id, r = .ref id ∧ m'.current.frame.cell? name = some id := by
  have hsettles : Settles (fun _ => True) (fun _ => True) (getReferenceByName name) :=
    .getReferenceByName name
  have hcode := (hsettles m r m' h).frame.code
  replace h : (getReference (m.current.frame.code.slotOf name)).run m = .ok r m' := h
  obtain ⟨frame, store, hresult, rfl⟩ := ok_of_run_getReference h
  obtain ⟨id, rfl, hload⟩ := Frame.load_of_getReference hresult
  refine ⟨id, rfl, Frame.cell?_eq_some_iff.2 ?_⟩
  rw [hcode]
  exact hload

theorem cell_of_bindGlobals {slot : Int} {globals : List (String × Int)}
    (hdeclared : (name, slot) ∈ globals) (hnames : ∀ e ∈ globals, e.2 = slot → e.1 = name)
    (hfree : ∀ v, frame.load slot = .ok v → v.isRef = false)
    (h : (bindGlobals frame globals).run m = .ok frame' m') :
    ∃ id, frame'.load slot = .ok (.ref id) ∧ m'.current.frame.cell? name = some id := by
  induction globals generalizing frame m with
  | nil => cases hdeclared
  | cons entry rest ih =>
    obtain ⟨r, m₁, hget, hrest⟩ := ok_of_run_bind h
    obtain ⟨frame₁, m₂, hset, hlast⟩ := ok_of_run_bind hrest
    obtain ⟨s, hframe, -⟩ := store_of_run_onStore hset
    obtain ⟨hother, hself⟩ := Frame.load_of_setReference hframe
    by_cases hslot : entry.2 = slot
    · -- What is bound here stays bound, in both frames.
      have hname := hnames entry mem_cons_self hslot
      obtain ⟨id, rfl, hcell⟩ := cell?_of_getReferenceByName hget
      have hbound : frame₁.load slot = .ok (.ref id) := by
        rw [← hslot]
        exact hself (by rwa [hslot])
      have hcaller : Settles (fun _ => True) (fun _ => True) (do
          let frame ← onStore fun s => frame.setReference s entry.2 (.ref id)
          bindGlobals frame rest) :=
        .bind (.onStore fun _ _ _ => Frame.setReference_codes) fun _ => .bindGlobals _ _
      refine ⟨id, (bindGlobals_settles hlast).load hbound, ?_⟩
      rw [← hname]
      exact (hcaller m₁ frame' m' hrest).frame.cell? hcell
    · have hrest : (name, slot) ∈ rest := by
        rcases mem_cons.1 hdeclared with rfl | hrest
        · exact absurd rfl hslot
        · exact hrest
      refine ih hrest (fun e he => hnames e (mem_cons_of_mem _ he)) (fun v hv => ?_) hlast
      rw [hother slot (Ne.symm hslot)] at hv
      exact hfree v hv

theorem sameVariable_of_enterFunction {code : Bytecode} {args : List Value}
    (hcode : code.IsResolved) (hborrows : code.Borrows name)
    (h : (enterFunction code args).run m = .ok frame m') :
    Frame.SameVariable name frame m'.current.frame := by
  have howns := (enterFunction_frame h).1
  obtain ⟨first, second, m₁, hnew, hparameters, hglobals, -⟩ := ok_of_run_enterFunction h
  obtain ⟨-, -, hunset⟩ := Frame.new_spec hnew
  obtain ⟨⟨declared, slot⟩, hdeclared, hname⟩ := mem_map.1 hborrows.declared
  obtain rfl : name = declared := hname.symm
  obtain ⟨rfl, hslot⟩ := hcode.global hdeclared
  obtain ⟨n, hn⟩ := Int.eq_ofNat_of_zero_le hslot
  have hfree : ∀ v, second.load (code.slotOf name) = .ok v → v.isRef = false := by
    intro v hv
    rw [load_of_bindParameters (by simpa using hborrows.parameter) hparameters, hn] at hv
    rw [hunset (hn ▸ hborrows.superglobal) hv]
    rfl
  have hnames : ∀ e ∈ code.globals, e.2 = code.slotOf name → e.1 = name := by
    intro e he heq
    obtain ⟨own, slot⟩ := e
    obtain ⟨hown, hge⟩ := hcode.global he
    dsimp only at heq
    rw [hown] at heq hge
    exact Option.some.inj (SymbolMap.lookup_inj hge heq)
  obtain ⟨id, hload, hcell⟩ := cell_of_bindGlobals hdeclared hnames hfree hglobals
  exact .of_cell (Frame.cell?_eq_some_iff.2 (howns ▸ hload)) hcell

end Exec

/-! ### Runs -/

/-- The variables that an activation borrows are those of the one that waits
for it. -/
def Activation.BorrowsFrom (callee caller : Activation) : Prop :=
  ∀ name, callee.frame.code.Borrows name → Frame.SameVariable name callee.frame caller.frame

theorem Activation.BorrowsFrom.settle {callee callee' caller : Activation}
    (h : callee.BorrowsFrom caller) (hsettles : callee.frame.Settles callee'.frame) :
    callee'.BorrowsFrom caller := by
  intro name hborrows
  rw [hsettles.code] at hborrows
  obtain ⟨id, hcallee, hcaller⟩ := (h name hborrows).cell
  exact .of_cell (hsettles.cell? hcallee) hcaller

/-- All activations borrow from those that wait for them. -/
def Machine.Borrows (m : Machine) : Prop :=
  (m.current :: m.callers).IsChain Activation.BorrowsFrom

namespace Machine.Borrows

variable {m m' : Machine}

theorem settle {a b : Activation} {rest : List Activation}
    (h : (a :: rest).IsChain Activation.BorrowsFrom) (hsettles : a.frame.Settles b.frame) :
    (b :: rest).IsChain Activation.BorrowsFrom := by
  cases rest with
  | nil => exact .singleton b
  | cons caller rest =>
    obtain ⟨hfirst, hrest⟩ := isChain_cons_cons.1 h
    exact isChain_cons_cons.2 ⟨hfirst.settle hsettles, hrest⟩

theorem step (h : m.Borrows) (hm : m.RunsOnly Bytecode.IsResolved)
    (hstep : Machine.step.run m = .ok .running m') : m'.Borrows := by
  obtain ⟨i, flow, m₁, hi, hexec, hgoes⟩ := step_goes hstep
  have hsettles : Settles (fun _ => True) (fun _ => True) m.tick m₁ :=
    i.exec_settles (fun _ _ _ => trivial) (.inr fun _ => trivial) m.tick flow m₁ hexec
  have hm₁ : m₁.Borrows := by
    unfold Borrows
    rw [(keeps_of_exec hexec).2.2]
    exact settle h hsettles.frame
  cases hgoes with
  | next | jump => exact settle hm₁ (.refl _)
  | enter =>
    obtain ⟨count, id, args, rest, -, -, -, henter⟩ := Instr.enter_of_exec hexec
    refine isChain_cons_cons.2 ⟨fun name hborrows => ?_, hm₁⟩
    rw [(Exec.enterFunction_frame henter).1] at hborrows
    exact Exec.sameVariable_of_enterFunction (hm.code Bytecode.hereditary_isResolved id) hborrows
      henter
  | leave hwaiting =>
    unfold Borrows at hm₁
    rw [hwaiting] at hm₁
    exact settle (isChain_cons_cons.1 hm₁).2 ⟨rfl, .refl _⟩

theorem course (h : m.Borrows) (hm : m.RunsOnly Bytecode.IsResolved) {P : Machine → Prop} {n : Nat}
    (hcourse : Course P n m m') : m'.Borrows := by
  induction hcourse with
  | stay m => exact h
  | next _ hstep _ ih => exact ih (h.step hm hstep) (hm.step Bytecode.hereditary_isResolved hstep)

end Machine.Borrows

theorem Machine.mainFrame_settles {P : Machine → Prop} {n : Nat} {m m' : Machine}
    (h : Course P n m m') : m.mainFrame.Settles m'.mainFrame := by
  induction h with
  | stay m => exact .refl _
  | next _ hstep _ ih =>
    refine .trans (mainFrame_related (fun _ _ => ⟨rfl, .refl _⟩) ?_ hstep) ih
    intro i flow m m' hexec
    have hsettles : Settles (fun _ => True) (fun _ => True) m m' :=
      i.exec_settles (fun _ _ _ => trivial) (.inr fun _ => trivial) m flow m' hexec
    exact hsettles.frame

theorem Frame.cell?_getLastD {callee : Activation} {callers : List Activation} {name : String}
    {id : Nat} (hchain : (callee :: callers).IsChain Activation.BorrowsFrom)
    (hborrows : ∀ a ∈ (callee :: callers).dropLast, a.frame.code.Borrows name)
    (hcell : callee.frame.cell? name = some id) :
    (callers.getLastD callee).frame.cell? name = some id := by
  induction callers generalizing callee with
  | nil => exact hcell
  | cons caller callers ih =>
    obtain ⟨hfirst, hrest⟩ := isChain_cons_cons.1 hchain
    rw [dropLast_cons_cons, forall_mem_cons] at hborrows
    obtain ⟨id', hcallee, hcaller⟩ := (hfirst name hborrows.1).cell
    cases hcell.symm.trans hcallee
    rw [getLastD_cons]
    exact ih hrest hborrows.2 hcaller

/-- In every state of every run, in a world where all code is resolved, the
variable that a function declares global is that of the frame that called it.
If all functions that run or wait declare it, it is from then on, also after
their return, the one of the program. -/
theorem globals_borrowed {tree : Tree} (hmain : tree.MainAtRoot) {s : Script}
    (hread : Script.ofTree tree = .ok s) {own : String} {b : Bytecode}
    (hcompile : s.compile own = .ok b) {world : World} {interpreter : Interpreter}
    (hworld : ∀ code ∈ world.store.codes, code.IsResolved) {start : Machine}
    (hlaunch : Machine.launch world interpreter b = .ok start) {n : Nat} {m : Machine}
    (hcourse : Machine.Course (fun _ => True) n start m) :
    m.Borrows ∧ ∀ name, m.callers ≠ [] →
      (∀ a ∈ (m.current :: m.callers).dropLast, a.frame.code.Borrows name) →
      ∀ k m', Machine.Course (fun _ => True) k m m' →
        Frame.SameVariable name m.current.frame m'.mainFrame := by
  obtain ⟨hresolved, hsound⟩ := Script.resolved hmain hread
  have hb := Script.isResolved_of_compile hresolved hsound hcompile
  have hstart : start.Borrows := by
    obtain ⟨frame, -, hstart⟩ := ok_of_bind hlaunch
    cases hstart
    exact .singleton _
  have hm := hstart.course (.launch hworld hb hlaunch) hcourse
  refine ⟨hm, fun name hcallers hborrows k m' hlater => ?_⟩
  unfold Machine.Borrows at hm
  obtain ⟨caller, rest, hwaiting⟩ := List.exists_cons_of_ne_nil hcallers
  rw [hwaiting] at hm hborrows
  obtain ⟨hfirst, hrest⟩ := List.isChain_cons_cons.1 hm
  rw [List.dropLast_cons_cons, List.forall_mem_cons] at hborrows
  obtain ⟨id, hcallee, hcaller⟩ := (hfirst name hborrows.1).cell
  have hcell : m.mainFrame.cell? name = some id := by
    rw [Machine.mainFrame_of_cons hwaiting]
    exact Frame.cell?_getLastD hrest hborrows.2 hcaller
  exact .of_cell hcallee ((Machine.mainFrame_settles hlater).cell? hcell)

/-- `function g() { global $x; $x = 5; } function f() { global $x; g(); } $x = 1; f();` -/
def borrowingTree : Tree := programTree [
  plainDeclarationTree "g" [globalTree "$x", assignTree "$x" (numeral "5")],
  plainDeclarationTree "f" [globalTree "$x", expressionTree (callTree "g" [])],
  assignTree "$x" (numeral "1"),
  expressionTree (callTree "f" [])]

/-- While `g` runs, its variable is the program's, where 5 is found after both
functions have returned. -/
theorem globals_borrowed_twice :
    ∃ s b start m m', borrowingTree.MainAtRoot ∧ Script.ofTree borrowingTree = .ok s ∧
      s.compile "main" = .ok b ∧ Machine.launch {} {} b = .ok start ∧
      Machine.Course (fun _ => True) 9 start m ∧ m.callers.length = 2 ∧
      m.current.frame.code.Borrows "$x" ∧ Machine.Course (fun _ => True) 4 m m' ∧
      m'.callers = [] ∧ Frame.SameVariable "$x" m.current.frame m'.mainFrame ∧
      m'.mainFrame.getVariable m'.world.store 0 = .ok (.int 5) := by
  have hmain : borrowingTree.MainAtRoot := by decide
  obtain ⟨s, hread, b, hcompile, start, hlaunch, m, hcourse, hcallers, hborrows, m', hlater, hdone,
      hfive⟩ : borrowingTree.ComesTo {} {} 9 fun _ _ m => m.callers.length = 2 ∧
      (∀ a ∈ (m.current :: m.callers).dropLast, a.frame.code.Borrows "$x") ∧
      ∃ m', Machine.Course (fun _ => True) 4 m m' ∧ m'.callers.length = 0 ∧
        m'.mainFrame.getVariable m'.world.store 0 = .ok (.int 5) := by decide +kernel
  have hwaiting : m.callers ≠ [] := List.ne_nil_of_length_pos (by omega)
  have hcurrent : m.current.frame.code.Borrows "$x" := by
    obtain ⟨caller, rest, hwaiting⟩ := List.exists_cons_of_ne_nil hwaiting
    rw [hwaiting] at hborrows
    exact hborrows _ List.mem_cons_self
  have hshared := (globals_borrowed hmain hread hcompile
    (fun code h => absurd h (Array.not_mem_empty code)) hlaunch hcourse).2 "$x" hwaiting hborrows
    4 m' hlater
  exact ⟨s, b, start, m, m', hmain, hread, hcompile, hlaunch, hcourse, hcallers, hcurrent, hlater,
    List.length_eq_zero_iff.1 hdone, hshared, hfive⟩

/-- `function g() { global $x; $x = 5; } function f() { $x = 2; g(); } $x = 1; f(); print $x;` -/
def ownVariableTree : Tree := programTree [
  plainDeclarationTree "g" [globalTree "$x", assignTree "$x" (numeral "5")],
  plainDeclarationTree "f" [assignTree "$x" (numeral "2"), expressionTree (callTree "g" [])],
  assignTree "$x" (numeral "1"),
  expressionTree (callTree "f" []),
  printTree (variableTree "$x")]

/-- While `g` runs, its variable is not that of the program, which is 1, but the
one of `f`, which is 2.  After both functions have returned that of the program
is 1 still. -/
theorem global_of_caller :
    ∃ s b start m m', ownVariableTree.MainAtRoot ∧ Script.ofTree ownVariableTree = .ok s ∧
      s.compile "main" = .ok b ∧ Machine.launch {} {} b = .ok start ∧
      Machine.Course (fun _ => True) 12 start m ∧ m.callers.length = 2 ∧
      m.current.frame.code.Borrows "$x" ∧
      m.current.frame.getVariable m.world.store 0 = .ok (.int 2) ∧
      m.mainFrame.getVariable m.world.store 0 = .ok (.int 1) ∧
      Machine.Course (fun _ => True) 4 m m' ∧ m'.callers = [] ∧
      m'.mainFrame.getVariable m'.world.store 0 = .ok (.int 1) := by
  obtain ⟨s, hread, b, hcompile, start, hlaunch, m, hcourse, hcallers, hborrows, hown, hprogram, m',
      hlater, hdone, hone⟩ : ownVariableTree.ComesTo {} {} 12 fun _ _ m => m.callers.length = 2 ∧
      m.current.frame.code.Borrows "$x" ∧
      m.current.frame.getVariable m.world.store 0 = .ok (.int 2) ∧
      m.mainFrame.getVariable m.world.store 0 = .ok (.int 1) ∧
      ∃ m', Machine.Course (fun _ => True) 4 m m' ∧ m'.callers.length = 0 ∧
        m'.mainFrame.getVariable m'.world.store 0 = .ok (.int 1) := by decide +kernel
  exact ⟨s, b, start, m, m', by decide, hread, hcompile, hlaunch, hcourse, hcallers, hborrows, hown,
    hprogram, hlater, List.length_eq_zero_iff.1 hdone, hone⟩

end PageScript
