/-
What a call can change.

A call hands over the cells that are passed by reference, those of the names that the
function declares global, and those of superglobals.  No others can be reached from
these, so every other cell is as it was when the call returns (`unrelated_kept`),
unless a parameter by reference has the slot of a superglobal: then a reference can
be left where another function finds it (`unrelated_changed`).
-/
import PageScript.Proofs.References

namespace PageScript

open Sample List

/-! ### Cells that are out of reach -/

/-- No references are stored.  Of the cells that there were, those that are not
handed over are out of reach and stay as they are. -/
def Policy.sheltering (handed : Nat → Prop) (cells : Array (Option Value)) : Policy where
  storable v := v.isRef = false
  reachable id := handed id ∨ cells.size ≤ id
  pools now _ := cells.size ≤ now.size ∧ ∀ id < cells.size, ¬handed id → now[id]? = cells[id]?
  codes := Bytecode.Proper true (.grammatical true)

/-- Between statements there are no references on the stack, whatever else is
there. -/
def Kind.Agree (ks ks' : List Kind) : Prop := .reference ∉ ks ∨ ks = ks'

namespace Policy

variable {handed : Nat → Prop} {cells : Array (Option Value)}

theorem lawful_sheltering : (sheltering handed cells).Lawful where
  plain href _ := href
  copy hv hcopy := (Store.isRef_of_copy hcopy).1.trans hv
  refs h := by cases h
  newCell {now _} content h := by
    refine ⟨⟨by rw [Array.size_push]; have := h.1; omega, fun id hid hnot => ?_⟩, .inr h.1⟩
    have hlt : id < now.size := Nat.lt_of_lt_of_le hid h.1
    rw [Array.getElem?_push, if_neg (by omega)]
    exact h.2 id hid hnot
  setCell {now _ id} v h hreach := by
    refine ⟨by rw [Array.size_setIfInBounds]; exact h.1, fun id' hid hnot => ?_⟩
    have hne : id ≠ id' := by
      rintro rfl
      rcases hreach with hreach | hreach
      · exact hnot hreach
      · omega
    rw [Array.getElem?_setIfInBounds_ne hne]
    exact h.2 id' hid hnot
  constants {code v} hcode hv := by
    have hliteral := hcode.literal hv
    cases v with
    | int | float | text | template => rfl
    | _ => cases hliteral
  separate hcode := .inr hcode.separate

theorem isRef_of_allows {k : Kind} {v : Value} (h : (sheltering handed cells).regime.Allows k v)
    (hk : k ≠ .reference) : v.isRef = false := by
  cases k with
  | plain => exact h
  | reference => exact absurd rfl hk
  | iteration =>
    rcases h with h | h
    · exact h
    · by_contra href
      rw [Value.isIteration_of_isRef (Bool.not_eq_false _ ▸ href)] at h
      cases h

theorem governs_sheltering :
    (sheltering handed cells).Governs true (.grammatical true) Kind.Agree where
  lawful := lawful_sheltering
  codes := rfl
  compares := ⟨fun _ => .inr rfl, fun _ _ hks _ => .inl hks⟩
  fits {ks ks' stack} hagree h := by
    rcases hagree with hks | rfl
    · intro n v hv
      refine lawful_sheltering.complete.allows (isRef_of_allows (h n v hv) fun hkind => hks ?_)
      rw [getD_eq_getElem?_getD] at hkind
      cases hk : ks[n]? with
      | none =>
        rw [hk] at hkind
        cases hkind
      | some k =>
        rw [hk] at hkind
        exact mem_of_getElem? (hk.trans (congrArg some hkind))
    · exact h
  texts h := h

/-- What keeps references out of the store does so with any cells out of reach,
as long as superglobals are not among them. -/
theorem Guards.shelter {world : World} {interpreter : Interpreter} {handed' : Nat → Prop}
    {cells' : Array (Option Value)} (h : (sheltering handed' cells').Guards world interpreter)
    (hsuperglobals : ∀ id, .ref id ∈ interpreter.superglobals → handed id) :
    (sheltering handed world.store.refs).Guards world interpreter where
  store := {
    cells := h.store.cells
    items := h.store.items
    entries := h.store.entries
    pools := ⟨Nat.le_refl _, fun _ _ _ => rfl⟩
    codes := h.store.codes }
  named := h.named
  functions := h.functions
  superglobals {v} hv := by
    rcases h.superglobals hv with hplain | ⟨id, rfl, -⟩
    · exact .inl hplain
    · exact .inr ⟨id, rfl, .inl (hsuperglobals id hv)⟩

end Policy

/-! ### Calls -/

namespace Machine

/-- The machine is about to call a declared function with these arguments. -/
def Calls (m : Machine) (id : Nat) (args : List Value) : Prop :=
  ∃ count rest, m.next? = some (.call count) ∧ args.length = count.toNat ∧
    m.current.frame.stack = .code id :: (args.reverse ++ rest)

/-- The cell is handed over to a function that is called with these
arguments. -/
inductive Hands (m : Machine) (code : Bytecode) (args : List Value) (id : Nat) : Prop where
  | passed (n : Nat) (name : String) : code.parameters[n]? = some (name, false) →
      args[n]? = some (.ref id) → Hands m code args id
  /-- It is that of a variable whose name the function declares global. -/
  | global (e : String × Int) : e ∈ code.globals →
      m.current.frame.load (m.current.frame.code.slotOf e.1) = .ok (.ref id) → Hands m code args id
  | superglobal : .ref id ∈ m.interpreter.superglobals → Hands m code args id

/-- The variable in a slot is not related to a call: its name is not declared
global by the function, and its cell, if it has one, is not handed over. -/
structure Unrelated (m : Machine) (code : Bytecode) (args : List Value) (slot : Nat) : Prop where
  global : ∀ e ∈ code.globals, m.current.frame.code.slotOf e.1 ≠ slot
  cell : ∀ id, m.current.frame.slots[slot]? = some (.ref id) → ¬m.Hands code args id

variable {m m' : Machine} {id : Nat} {args : List Value}

theorem Calls.step (h : m.Calls id args) (hstep : Machine.step.run m = .ok .running m') :
    ∃ frame rest m₂, m₂.callers = m.callers ∧
      (Exec.enterFunction (m.world.store.code id) args).run (m.tick.withStack rest) = .ok frame m₂ ∧
      m' = { m₂ with current := { frame := frame }, callers := m₂.current :: m₂.callers } := by
  obtain ⟨count, rest, hnext, hlength, hstack⟩ := h
  obtain ⟨i, flow, m₂, hi, hexec, hgoes⟩ := step_goes hstep
  cases hnext.symm.trans hi
  have hcallers := (keeps_of_exec hexec).2.2
  obtain ⟨f, _, hpop, hexec⟩ := ok_of_run_bind hexec
  obtain ⟨operands, hoperands, rfl⟩ := Exec.ok_of_run_pop hpop
  cases hstack.symm.trans hoperands
  obtain ⟨_, _, hcheck, hexec⟩ := ok_of_run_bind hexec
  obtain ⟨-, rfl⟩ := Exec.ok_of_run_check hcheck
  obtain ⟨taken, _, htaken, hexec⟩ := ok_of_run_bind hexec
  obtain ⟨-, rfl, rfl⟩ := Exec.ok_of_run_popN htaken
  obtain ⟨_, _, hget, hexec⟩ := ok_of_run_bind hexec
  cases hget
  obtain ⟨frame, m₃, henter, hexec⟩ := ok_of_run_bind hexec
  cases hexec
  cases hgoes
  refine ⟨frame, rest, _, hcallers, ?_, rfl⟩
  have hcount : count.toNat = args.reverse.length := by rw [length_reverse, hlength]
  simp only [withStack, hcount, take_left', drop_left', reverse_reverse] at henter
  exact henter

end Machine

/-- Only what a call hands over may be reached. -/
def Machine.handing (m : Machine) (code : Bytecode) (args : List Value) : Policy :=
  .sheltering (m.Hands code args) m.world.store.refs

theorem Machine.handing_withStack (m : Machine) (rest : List Value) (code : Bytecode)
    (args : List Value) : (m.tick.withStack rest).handing code args = m.handing code args := by
  have hhands : (m.tick.withStack rest).Hands code args = m.Hands code args := by
    funext id
    refine propext ⟨fun h => ?_, fun h => ?_⟩
    all_goals
      cases h with
      | passed n name hparameter hv => exact .passed n name hparameter hv
      | global e he hload => exact .global e he hload
      | superglobal h => exact .superglobal h
  rw [handing, handing, hhands]
  rfl

section

variable {handed : Nat → Prop} {cells : Array (Option Value)} {m m' : Machine} {code : Bytecode}
  {args : List Value}

theorem Value.isRef_cases (v : Value) : v.isRef = false ∨ ∃ id, v = .ref id := by
  cases v with
  | ref id => exact .inr ⟨id, rfl⟩
  | _ => exact .inl rfl

theorem Policy.Guards.enter {frame : Frame}
    (h : (Policy.sheltering handed cells).Guards m.world m.interpreter) (hcode : code.Separate)
    (henter : (Exec.enterFunction code args).run m = .ok frame m') :
    (m.handing code args).Guards m'.world m'.interpreter ∧
      (m.handing code args).regime.Binds frame.slots ∧
      (m.handing code args).regime.Rebound m.current.frame.code code.globals m.current.frame.slots
        m'.current.frame.slots := by
  have hguards : (m.handing code args).Guards m.world m.interpreter :=
    h.shelter fun id hid => .superglobal hid
  have hargs : ∀ (n : Nat) name byValue v, code.parameters[n]? = some (name, byValue) →
      args[n]? = some v → (m.handing code args).regime.Passable byValue v := by
    intro n name byValue v hparameter hv
    rcases v.isRef_cases with hplain | ⟨id, rfl⟩
    · exact .inl hplain
    · refine .inr ⟨id, rfl, ?_⟩
      cases byValue with
      | true => exact .inl rfl
      | false => exact .inr (.inl (.passed n name hparameter hv))
  have hglobals : ∀ e ∈ code.globals, ∀ old,
      m.current.frame.load (m.current.frame.code.slotOf e.1) = .ok old →
      (m.handing code args).regime.Bindable old := by
    intro e he old hload
    rcases old.isRef_cases with hplain | ⟨id, rfl⟩
    · exact .inl hplain
    · exact .inr ⟨id, rfl, .inl (.global e he hload)⟩
  obtain ⟨-, hspec⟩ := Exec.enterFunction_spec lawful_sheltering.complete henter trivial
  obtain ⟨hguards', hslots, -, hrebound⟩ :=
    hspec (guards_iff.2 hguards) (.inr hcode) hargs hglobals
  exact ⟨guards_iff.1 hguards', hslots, hrebound⟩

theorem Regime.Rebound.getElem?_eq {g : Regime} {globals : List (String × Int)}
    {slots slots' : Array Value} (h : g.Rebound code globals slots slots') {n : Nat}
    (hn : ∀ e ∈ globals, code.slotOf e.1 ≠ n) : slots'[n]? = slots[n]? := by
  cases hv : slots'[n]? with
  | none =>
    rw [Array.getElem?_eq_none_iff, h.size] at hv
    rw [Array.getElem?_eq_none hv]
  | some v =>
    rcases h.value n v hv with hold | ⟨-, e, he, hslot⟩
    · exact hold.symm
    · exact absurd hslot (hn e he)

end

theorem Frame.load_eq_ok_iff {f : Frame} {slot : Nat} {v : Value} :
    f.load slot = .ok v ↔ f.slots[slot]? = some v := by
  rw [load, if_neg (by omega), Int.toNat_natCast]
  cases f.slots[slot]? <;> simp

theorem Frame.getVariable_of_kept {f g : Frame} {s t : Store} {slot : Nat} {v : Value}
    (hslots : g.slots[slot]? = f.slots[slot]?)
    (hcell : ∀ id, f.slots[slot]? = some (.ref id) → id < s.refs.size → t.refs[id]? = s.refs[id]?)
    (hv : f.getVariable s slot = .ok v) : g.getVariable t slot = .ok v := by
  obtain ⟨old, hload, hv⟩ := ok_of_bind hv
  have hslot := load_eq_ok_iff.1 hload
  have hload' : g.load slot = .ok old := load_eq_ok_iff.2 (hslots.trans hslot)
  rw [getVariable, hload']
  rcases old.isRef_cases with hplain | ⟨id, rfl⟩
  · rw [hplain] at hv
    simp only [bind, Except.bind, hplain]
    exact hv
  · -- The cell is there, as it has a value.
    have href : s.ref id = some v := by
      simp only [Value.isRef, if_true, Store.valueOf] at hv
      split at hv <;> cases hv
      assumption
    rw [Store.ref, Array.getD_eq_getD_getElem?] at href
    have hlt : id < s.refs.size := by
      by_contra hge
      rw [Array.getElem?_eq_none (by omega)] at href
      cases href
    have href' : t.ref id = some v := by
      rw [Store.ref, Array.getD_eq_getD_getElem?, hcell id hslot hlt, href]
    simp [bind, Except.bind, Value.isRef, Store.valueOf, href']

namespace Machine

variable {m m₁ m' : Machine} {id : Nat} {args : List Value}

theorem Calls.abides (h : m.Calls id args)
    (hm : m.Abides (.sheltering (fun _ => True) #[]) true (.grammatical true) [])
    (hstep : Machine.step.run m = .ok .running m₁) :
    ∃ caller,
      (m.handing (m.world.store.code id) args).regime.Rebound m.current.frame.code
        (m.world.store.code id).globals m.current.frame.slots caller.frame.slots ∧
      m₁.Abides (m.handing (m.world.store.code id) args) true (.grammatical true)
        (caller :: m.callers) := by
  obtain ⟨frame, rest, m₂, hcallers, henter, rfl⟩ := h.step hstep
  obtain ⟨hcode, -, hstack, hempty⟩ := Exec.enterFunction_frame henter
  have hproper : (m.world.store.code id).Proper true (.grammatical true) := by
    rcases Policy.lawful_sheltering.complete.code hm.guards.store id with hproper | hdefault
    · exact hproper
    · rw [hdefault]
      exact Bytecode.proper_default
  have hentered :=
    Policy.Guards.enter (m := m.tick.withStack rest) hm.guards hproper.separate henter
  rw [m.handing_withStack] at hentered
  obtain ⟨hguards, hslots, hrebound⟩ := hentered
  refine ⟨m₂.current, hrebound, hguards, ?_, [], by rw [hcallers]; rfl, nofun⟩
  exact .start (hcode ▸ hproper) (hcode ▸ hproper.stems hempty) hslots hstack

end Machine

/-- A call in a run of a grammatical program leaves every variable of the
calling frame as it was that is not related to it, whatever the function and all
that it calls do, if no parameter by reference has the slot of a superglobal. -/
theorem unrelated_kept {tree : Tree} (htree : tree.Program true) {s : Script}
    (hread : Script.ofTree tree = .ok s) (hseparate : ∀ scope ∈ s.scopes, scope.Separate)
    {name : String} {b : Bytecode} (hcompile : s.compile name = .ok b) {world : World}
    {interpreter : Interpreter}
    (hguards : (Policy.sheltering (fun _ => True) #[]).Guards world interpreter) {start : Machine}
    (hlaunch : Machine.launch world interpreter b = .ok start) {n : Nat} {m : Machine}
    (hcourse : Machine.Course (fun _ => True) n start m) {id : Nat} {args : List Value}
    (hcalls : m.Calls id args) {m₁ : Machine} (hstep : Machine.step.run m = .ok .running m₁)
    {k : Nat} {m' : Machine}
    (hcall : Machine.Course (fun m₂ => m.callers.length < m₂.callers.length) k m₁ m')
    (hback : m'.callers.length = m.callers.length) {slot : Nat}
    (hslot : m.Unrelated (m.world.store.code id) args slot) :
    m'.current.frame.slots[slot]? = m.current.frame.slots[slot]? ∧
      ∀ v, m.current.frame.getVariable m.world.store slot = .ok v →
        m'.current.frame.getVariable m'.world.store slot = .ok v := by
  obtain ⟨hproper, hstems⟩ :=
    htree.proper hread (htree.tidyProgram hread hcompile) hseparate hcompile
  have hstart := Machine.Abides.launch Policy.governs_sheltering hguards hproper hstems hlaunch
  have hm := hstart.course Policy.governs_sheltering (hcourse.mono fun _ _ => Nat.zero_le _)
    (Nat.zero_le _)
  obtain ⟨caller, hrebound, hentered⟩ := hcalls.abides hm hstep
  obtain ⟨v, _, _, hbase, -, hreturned, -, hcurrent⟩ :=
    hentered.returns Policy.governs_sheltering hcall (by rw [hback]; exact Nat.lt_succ_self _)
  cases hbase
  have hslots : m'.current.frame.slots[slot]? = m.current.frame.slots[slot]? := by
    rw [hcurrent]
    exact hrebound.getElem?_eq hslot.global
  have hpools := hreturned.store.pools
  exact ⟨hslots, fun v hv => Frame.getVariable_of_kept hslots
    (fun cell hcell hlt => hpools.2 cell hlt (hslot.cell cell hcell)) hv⟩

/-- `function f(&$a, $b) { $a = $b; $b = 7; return $a; } $v = 1; $w = 5; f($v, $w);` -/
def handingTree : Tree := programTree [
  declarationTree "f" [referenceTree "$a", parameterTree "$b"] [
    assignTree "$a" (variableTree "$b"),
    assignTree "$b" (numeral "7"),
    .branch "returnstatement" [variableTree "$a"]],
  assignTree "$v" (numeral "1"),
  assignTree "$w" (numeral "5"),
  expressionTree (callTree "f" [variableTree "$v", variableTree "$w"])]

theorem program_handingTree : handingTree.Program true := by
  refine .main ?_
  simp only [forall_mem_cons]
  refine ⟨.declarationTree (by decide) ?_ ?_, .statement (.assignTree (by decide) .number),
    .statement (.assignTree (by decide) .number), .statement (.expression (.callTree ?_)),
    by simp⟩ <;> simp only [forall_mem_cons]
  · exact ⟨.reference, .value, by simp⟩
  · exact ⟨.statement (.assignTree (by decide) (.variable (by decide))),
      .statement (.assignTree (by decide) .number),
      .statement (.returnValue (by simpa using .variable (by decide))), by simp⟩
  · exact ⟨.variable (by decide), .variable (by decide), by simp⟩

/-- Both variables are in cells when `f` is called, but only that of `$v` is
handed over: `$w` is 5 after the call. -/
theorem unrelated_kept_handing :
    ∃ s b start m m₁ m', Script.ofTree handingTree = .ok s ∧ s.compile "main" = .ok b ∧
      Machine.launch {} {} b = .ok start ∧ Machine.Course (fun _ => True) 10 start m ∧
      m.Calls 0 [.ref 0, .ref 1] ∧ Machine.step.run m = .ok .running m₁ ∧
      Machine.Course (fun m₂ => m.callers.length < m₂.callers.length) 8 m₁ m' ∧
      m.Unrelated (m.world.store.code 0) [.ref 0, .ref 1] 1 ∧
      m'.current.frame.slots[1]? = some (.ref 1) ∧
      m'.current.frame.getVariable m'.world.store 1 = .ok (.int 5) := by
  obtain ⟨s, hread, b, hcompile, start, hlaunch, m, hcourse, hstatic, hglobals, hsuperglobals, hnext,
      hstack, hslot, hvalue, m₁, hstep, m', hcall, hback⟩ :
      handingTree.ComesTo {} {} 10 fun s _ m =>
      decide ((∀ scope ∈ s.scopes, scope.Separate) ∧
        (m.world.store.code 0).parameters = [("$a", false), ("$b", true)]) = true ∧
      (m.world.store.code 0).globals = [] ∧ m.interpreter.superglobals.length = 0 ∧
      m.next? = some (.call 2) ∧ m.current.frame.stack = [.code 0, .ref 1, .ref 0] ∧
      m.current.frame.slots[1]? = some (.ref 1) ∧
      m.current.frame.getVariable m.world.store 1 = .ok (.int 5) ∧
      ∃ m₁, Machine.step.run m = .ok .running m₁ ∧
      ∃ m', Machine.Course (fun m₂ => m.callers.length < m₂.callers.length) 8 m₁ m' ∧
      m'.callers.length = m.callers.length := by decide +kernel
  obtain ⟨hseparate, hparameters⟩ := of_decide_eq_true hstatic
  have hcalls : m.Calls 0 [.ref 0, .ref 1] := ⟨2, [], hnext, rfl, hstack⟩
  have hunrelated : m.Unrelated (m.world.store.code 0) [.ref 0, .ref 1] 1 := by
    refine ⟨by simp [hglobals], fun id hid hhands => ?_⟩
    cases hslot.symm.trans hid
    cases hhands with
    | passed n name hparameter harg =>
      rw [hparameters] at hparameter
      rcases n with _ | _ | n
      · cases harg
      · cases hparameter
      · cases hparameter
    | global e he => rw [hglobals] at he; cases he
    | superglobal h => rw [List.length_eq_zero_iff.1 hsuperglobals] at h; cases h
  have hkept := unrelated_kept program_handingTree hread hseparate hcompile
    (Policy.guards_new Policy.lawful_sheltering ⟨Nat.zero_le _, by simp⟩) hlaunch hcourse hcalls
    hstep hcall hback hunrelated
  exact ⟨s, b, start, m, m₁, m', hread, hcompile, hlaunch, hcourse, hcalls, hstep, hcall,
    hunrelated, hkept.1.trans hslot, hkept.2 _ hvalue⟩

/-- `function f(&$_GET) { return 1; } function g() { $y = $_GET; $y = 5; return 1; } $v = 1; f($v);
g(); print $v;` -/
def leavingTree : Tree := programTree [
  declarationTree "f" [referenceTree "$_GET"] [.branch "returnstatement" [numeral "1"]],
  plainDeclarationTree "g" [
    assignTree "$y" (variableTree "$_GET"),
    assignTree "$y" (numeral "5"),
    .branch "returnstatement" [numeral "1"]],
  assignTree "$v" (numeral "1"),
  expressionTree (callTree "f" [variableTree "$v"]),
  expressionTree (callTree "g" []),
  printTree (variableTree "$v")]

theorem program_leavingTree : leavingTree.Program true := by
  have hreturn : Tree.Statement true (.branch "returnstatement" [numeral "1"]) :=
    .returnValue (by simpa using .number)
  refine .main ?_
  simp only [forall_mem_cons]
  refine ⟨.declarationTree (by decide) ?_ ?_, .plainDeclarationTree (by decide) ?_,
    .statement (.assignTree (by decide) .number), .statement (.expression (.callTree ?_)),
    .statement (.expression (.callTree (by simp))), .statement (.printTree (.variable (by decide))),
    by simp⟩ <;> simp only [forall_mem_cons]
  · exact ⟨.reference, by simp⟩
  · exact ⟨.statement hreturn, by simp⟩
  · exact ⟨.statement (.assignTree (by decide) (.variable (by decide))),
      .statement (.assignTree (by decide) .number), .statement hreturn, by simp⟩
  · exact ⟨.variable (by decide), by simp⟩

/-- The call of `f` has left the reference to `$v` in the cell of `$_GET`.  Then
`$v` is not related to the call of `g`, which has no parameters and declares
nothing global, but it is 1 before and 5 after that call. -/
theorem unrelated_changed :
    ∃ s b start m m₁ m', leavingTree.Program true ∧ Script.ofTree leavingTree = .ok s ∧
      s.compile "main" = .ok b ∧
      Machine.launch (Interpreter.setup {} {} []).1 (Interpreter.setup {} {} []).2 b = .ok start ∧
      Machine.Course (fun _ => True) 12 start m ∧ m.Calls 1 [] ∧
      Machine.step.run m = .ok .running m₁ ∧
      Machine.Course (fun m₂ => m.callers.length < m₂.callers.length) 8 m₁ m' ∧
      m'.callers.length = m.callers.length ∧ m.Unrelated (m.world.store.code 1) [] 0 ∧
      m.current.frame.getVariable m.world.store 0 = .ok (.int 1) ∧
      m'.current.frame.getVariable m'.world.store 0 = .ok (.int 5) := by
  obtain ⟨s, hread, b, hcompile, start, hlaunch, m, hcourse, hparameters, hglobals, hnext, hstack,
      hslot, hsuperglobals, hbefore, m₁, hstep, m', hcall, hback, hafter⟩ :
      leavingTree.ComesTo (Interpreter.setup {} {} []).1 (Interpreter.setup {} {} []).2 12 fun _ _ m =>
      (m.world.store.code 1).parameters = [] ∧ (m.world.store.code 1).globals = [] ∧
      m.next? = some (.call 0) ∧ m.current.frame.stack = [.code 1] ∧
      m.current.frame.slots[0]? = some (.ref 1) ∧ m.interpreter.superglobals = [.ref 0, .unset] ∧
      m.current.frame.getVariable m.world.store 0 = .ok (.int 1) ∧
      ∃ m₁, Machine.step.run m = .ok .running m₁ ∧
      ∃ m', Machine.Course (fun m₂ => m.callers.length < m₂.callers.length) 8 m₁ m' ∧
      m'.callers.length = m.callers.length ∧
      m'.current.frame.getVariable m'.world.store 0 = .ok (.int 5) := by decide +kernel
  have hunrelated : m.Unrelated (m.world.store.code 1) [] 0 := by
    refine ⟨by simp [hglobals], fun id hid hhands => ?_⟩
    cases hslot.symm.trans hid
    cases hhands with
    | passed n name hparameter => rw [hparameters] at hparameter; cases hparameter
    | global e he => rw [hglobals] at he; cases he
    | superglobal h => rw [hsuperglobals] at h; simp at h
  exact ⟨s, b, start, m, m₁, m', program_leavingTree, hread, hcompile, hlaunch, hcourse,
    ⟨0, [], hnext, rfl, hstack⟩, hstep, hcall, hback, hunrelated, hbefore, hafter⟩

end PageScript
