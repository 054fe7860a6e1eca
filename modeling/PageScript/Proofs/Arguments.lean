/-
Arguments by value.

A parameter by value gets a copy of the value.  The variable is safe from what is
done with the copy just if its value is flat: a function that gets it and works on
it changes nothing then (`argument_isolated_iff`).  An array inside the array is
not copied, and a change in it is seen by the caller (`nested_element_changed`).
-/
import PageScript.Proofs.Calls
import PageScript.Proofs.Copies

namespace PageScript

open Exec Sample

/-! ### Instructions of a function -/

/-- All of a store is as it was, and the values lead to nothing in it. -/
def Store.sparing (s : Store) : Regime where
  Stores := s.Spares
  within _ := True
  storable := (·.Beyond s)
  iterable := (·.Beyond s)
  reachable _ := False
  codes _ := True
  tables := False

theorem Store.lawful_sparing (s : Store) : s.sparing.Lawful where
  inert {v} hv := by
    cases v with
    | list | dict | concat | ref | cursor => cases hv
    | _ => trivial
  iterable h := h
  refs h := h
  cell _ h _ := h.elim
  element hs hv he := hs.element hv _ he
  setCell _ := ⟨trivial, fun _ h => h.1.elim⟩
  newList _ := ⟨trivial, fun hs h => ⟨hs.newList h, hs.lists_le⟩⟩
  setList _ := ⟨trivial, fun hs h => ⟨hs.setList h.1 h.2, trivial⟩⟩
  newDict _ := ⟨trivial, fun hs h => ⟨hs.newDict h, hs.dicts_le⟩⟩
  setDict _ _ := ⟨trivial, fun hs h => ⟨hs.setDict h.1 h.2, trivial⟩⟩

theorem Store.beyond_of_allows {s : Store} {k : Kind} {v : Value} (h : s.sparing.Allows k v) :
    v.Beyond s := by
  cases k with
  | plain | iteration => exact h
  | reference => exact h.elim id fun ⟨_, _, h⟩ => h.elim

/-- All of a store is as it was, and what the running frame has leads to nothing
in it. -/
def Machine.Spares (s : Store) (m : Machine) : Prop := s.sparing.Meets [] m

namespace Machine.Spares

variable {s : Store} {m m' : Machine}

theorem store (h : m.Spares s) : s.Spares m.world.store := h.holds.guards.store

theorem step (h : m.Spares s) (hlocal : m.next?.any Instr.isLocal)
    (hstep : Machine.step.run m = .ok .running m') : m'.Spares s := by
  obtain ⟨i, flow, m₁, hi, hexec, hgoes⟩ := step_goes hstep
  have hi : i.isLocal := by
    rw [hi] at hlocal
    exact hlocal
  obtain ⟨ks, hafter⟩ := i.exists_after
  have hobeys : Obeys s.sparing [] True (i.leaving []) (s.sparing.Flows i) i.exec :=
    Instr.obeys_local s.lawful_sparing hi hafter fun _ _ _ _ _ _ hjoin _ =>
      ⟨trivial, fun hs hleft => hs.concatenate hleft hjoin⟩
  obtain ⟨hm₁, hflows⟩ := (hobeys m.tick flow m₁ hexec trivial).2
    ⟨⟨h.holds.guards, h.holds.constants, h.holds.slots⟩, h.fits⟩ trivial
  have hfits : s.sparing.Fits [] m₁.current.frame.stack := fun n v hv =>
    Store.beyond_of_allows (hm₁.fits n v hv)
  cases hgoes with
  | next | jump =>
    exact ⟨⟨hm₁.holds.guards, hm₁.holds.constants, hm₁.holds.slots⟩, hfits⟩
  | enter =>
    obtain ⟨⟨count, rfl⟩, -⟩ := hflows
    cases hi
  | leave =>
    obtain ⟨rfl, -⟩ := hflows
    cases hi

theorem course (h : m.Spares s) {n : Nat}
    (hcourse : Course (fun m => m.next?.any Instr.isLocal = true) n m m') : m'.Spares s := by
  induction hcourse with
  | stay m => exact h
  | next hlocal hstep _ ih => exact ih (h.step hlocal hstep)

end Machine.Spares

/-! ### Passing an argument -/

/-- A function with one parameter, which is by value, that does not use other
variables than its own. -/
structure Bytecode.Takes (b : Bytecode) (name : String) : Prop where
  parameters : b.parameters = [(name, true)]
  globals : b.globals = []
  superglobals : ∀ slot ∈ b.superglobals, slot < 0
  constants : ∀ v ∈ b.constants, v.isMutable = false

instance (b : Bytecode) (name : String) : Decidable (b.Takes name) :=
  decidable_of_iff (b.parameters = [(name, true)] ∧ b.globals = [] ∧
      (∀ slot ∈ b.superglobals, slot < 0) ∧ ∀ v ∈ b.constants.toList, v.isMutable = false)
    ⟨fun ⟨hparameters, hglobals, hsuperglobals, hconstants⟩ =>
        ⟨hparameters, hglobals, hsuperglobals,
          fun v hv => hconstants v (Array.mem_toList_iff.2 hv)⟩,
      fun h => ⟨h.parameters, h.globals, h.superglobals,
        fun v hv => h.constants v (Array.mem_toList_iff.1 hv)⟩⟩

section

variable {m m' : Machine} {id : Nat} {v : Value}

section

variable (hcell : m.world.store.ref id = some v)

include hcell

theorem Exec.run_bindArgument :
    (bindArgument true (.ref id)).run m = (onStore (·.copy v)).run m := by
  have hvalue : (fromStore (·.valueOf (.ref id))).run m = .ok v m := by
    simp [fromStore, EStateM.run_bind, EStateM.run_get, run_ofExcept, Store.valueOf, hcell]
  show ((fromStore (·.valueOf (.ref id))) >>= fun v => onStore (·.copy v)).run m = _
  rw [EStateM.run_bind, hvalue]

variable (hv : m.world.store.Data v)

include hv

theorem Exec.copied_of_bindArgument {p : Value}
    (h : (bindArgument true (.ref id)).run m = .ok p m') :
    m.world.store.Copied v p m'.world.store := by
  rw [run_bindArgument hcell] at h
  obtain ⟨t, hcopy, rfl⟩ := store_of_run_onStore h
  rcases hv.copy with ⟨_, _, -, hfails⟩ | ⟨p', t', hcopy', hcopied⟩
  · cases hfails.symm.trans hcopy
  · cases hcopy'.symm.trans hcopy
    exact hcopied

theorem Exec.exists_bindArgument_iff :
    (∃ p m', (bindArgument true (.ref id)).run m = .ok p m') ↔ ∀ b n, v ≠ .concat b n := by
  rw [run_bindArgument hcell, run_onStore]
  rcases hv.copy with ⟨b, n, rfl, hcopy⟩ | ⟨p, t, hcopy, hcopied⟩
  · rw [hcopy]
    refine ⟨fun ⟨_, _, h⟩ => ?_, fun h => absurd rfl (h b n)⟩
    cases h
  · rw [hcopy]
    refine ⟨fun _ b n => ?_, fun _ => ⟨_, _, rfl⟩⟩
    rintro rfl
    cases hcopied with
    | scalar hscalar => cases hscalar

end

theorem Bytecode.Takes.enter {code : Bytecode} {name : String} (hcode : code.Takes name)
    {argument : Value} {frame : Frame}
    (h : (enterFunction code [argument]).run m = .ok frame m') :
    ∃ p, (bindArgument true argument).run m = .ok p m' ∧ ∀ w ∈ frame.slots, w = .unset ∨ w = p := by
  obtain ⟨first, second, m₁, hnew, hparameters, hglobals, -⟩ := ok_of_run_enterFunction h
  rw [hcode.globals] at hglobals
  cases hglobals
  have hempty : ∀ w ∈ first.slots, w = .unset := by
    intro w hw
    obtain ⟨n, hn⟩ := Array.mem_iff_getElem?.1 hw
    refine (Frame.new_spec hnew).2.2 (n := n) (fun hslot => ?_) (Frame.load_eq_ok_iff.2 hn)
    have := hcode.superglobals _ hslot
    omega
  rw [hcode.parameters] at hparameters
  obtain ⟨p, m₁, hargument, hrest⟩ := ok_of_run_bind hparameters
  obtain ⟨third, m₂, hstore, hlast⟩ := ok_of_run_bind hrest
  clear hparameters hrest
  rw [bindParameters] at hlast
  cases hlast
  -- The slot is empty, so the argument goes there and not into a cell.
  obtain ⟨t, ht, rfl⟩ := store_of_run_onStore hstore
  obtain ⟨old, hload, ht⟩ := ok_of_bind ht
  rw [hempty old (Frame.mem_of_load hload)] at ht
  obtain ⟨g, hslot, ht⟩ := ok_of_bind ht
  cases ht
  refine ⟨p, hargument, fun w hw => ?_⟩
  exact (Frame.mem_of_store hslot hw).imp_left (hempty w)

theorem Machine.Calls.spares {f : Nat} {name : String} (h : m.Calls f [.ref id])
    (hcode : (m.world.store.code f).Takes name) (hcell : m.world.store.ref id = some v)
    (hv : m.world.store.Data v) (hflat : m.world.store.IsFlat v)
    (hstep : Machine.step.run m = .ok .running m') : m'.Spares m.world.store := by
  obtain ⟨frame, rest, m₂, -, henter, rfl⟩ := h.step hstep
  obtain ⟨hown, -, hstack, -⟩ := enterFunction_frame henter
  obtain ⟨p, hargument, hslots⟩ := hcode.enter henter
  have hcopied : m.world.store.Copied v p m₂.world.store :=
    copied_of_bindArgument (m := m.tick.withStack rest) hcell hv hargument
  obtain ⟨hspares, hbeyond⟩ := hcopied.spares hflat
  refine ⟨⟨⟨hspares, nofun, nofun, nofun⟩, fun hw => .of_isMutable (hcode.constants _ (hown ▸ hw)),
    fun w hw => .inl ?_⟩, by rw [hstack]; exact .nil⟩
  rcases hslots w hw with rfl | rfl
  · trivial
  · exact hbeyond

end

/-- The value of a variable can be passed for a parameter by value just if it is
no text under construction, and then the parameter has the same full text.  What
is done with the parameter does not change the variable's full text, whatever it
is, just if the value is flat: in particular nothing is changed while a function
that gets the argument makes local instructions. -/
theorem argument_isolated_iff {m : Machine} {id : Nat} {v : Value}
    (hcell : m.world.store.ref id = some v) (hv : m.world.store.Data v) :
    ∃ y, m.world.store.fullTextOf v = .ok y ∧
      ((∃ p m', (bindArgument true (.ref id)).run m = .ok p m') ↔ ∀ b n, v ≠ .concat b n) ∧
      (∀ p m', (bindArgument true (.ref id)).run m = .ok p m' →
        m'.world.store.fullTextOf p = .ok y ∧
        (∀ own u, m'.world.store.Reworks p own u → u.ref id = some v) ∧
        ((∀ own u, m'.world.store.Reworks p own u → u.fullTextOf v = .ok y) ↔
          m.world.store.IsFlat v)) ∧
      (m.world.store.IsFlat v → ∀ f name m₁ n m₂, m.Calls f [.ref id] →
        (m.world.store.code f).Takes name → Machine.step.run m = .ok .running m₁ →
        Machine.Course (fun m => m.next?.any Instr.isLocal = true) n m₁ m₂ →
        m₂.world.store.ref id = some v ∧ m₂.world.store.fullTextOf v = .ok y) := by
  obtain ⟨y, hy⟩ := hv.exists_fullTextOf
  refine ⟨y, hy, exists_bindArgument_iff hcell hv, fun p m' hargument => ?_,
    fun hflat f name m₁ n m₂ hcalls hcode hstep hcourse => ?_⟩
  · have hcopied := copied_of_bindArgument hcell hv hargument
    refine ⟨(hcopied.fullTextOf hv).trans hy, fun own u hworks => ?_,
      hy ▸ hcopied.fullTextOf_kept_iff hv⟩
    rw [Store.ref, hworks.refs, hcopied.refs]
    exact hcell
  · have hspares := (hcalls.spares hcode hcell hv hflat hstep).course hcourse
    refine ⟨?_, (hspares.store.toExtends.fullTextOf hv).trans hy⟩
    rw [Store.ref, hspares.store.refs]
    exact hcell

/-- `function f($p) { $p[0] = 3; } $v = [1, 2]; f($v);` -/
def flatArgumentTree : Tree := programTree [
  declarationTree "f" [parameterTree "$p"] [
    expressionTree (operatorTree "assignmentexpression" "="
      (elementTree (variableTree "$p") (numeral "0")) (numeral "3"))],
  assignTree "$v" (.branch "arrayliteral" [token "[", numeral "1", numeral "2"]),
  expressionTree (callTree "f" [variableTree "$v"])]

/-- The function has stored 3 into its array, and that of the caller is as it
was. -/
theorem argument_isolated_iff_stored :
    ∃ s b start m m₁ m₂, Script.ofTree flatArgumentTree = .ok s ∧ s.compile "main" = .ok b ∧
      Machine.launch {} {} b = .ok start ∧ Machine.Course (fun _ => True) 8 start m ∧
      m.world.store.ref 0 = some (.list 0) ∧ m.world.store.Data (.list 0) ∧
      m.world.store.IsFlat (.list 0) ∧ m.Calls 0 [.ref 0] ∧ (m.world.store.code 0).Takes "$p" ∧
      Machine.step.run m = .ok .running m₁ ∧
      Machine.Course (fun m => m.next?.any Instr.isLocal = true) 3 m₁ m₂ ∧
      m₂.current.frame.slots[0]? = some (.list 1) ∧
      m₂.world.store.fullTextOf (.list 1) = .ok "Array\n(\n\t[0] => 3\n\t[1] => 2\n)\n" ∧
      m.world.store.fullTextOf (.list 0) = .ok "Array\n(\n\t[0] => 1\n\t[1] => 2\n)\n" ∧
      m₂.world.store.fullTextOf (.list 0) = .ok "Array\n(\n\t[0] => 1\n\t[1] => 2\n)\n" := by
  obtain ⟨s, hread, b, hcompile, start, hlaunch, m, hcourse, hsize, hflat, hcode, hnext, hstack, hcell,
      hitems, htext, m₁, hstep, m₂, hlocal, hslot, htext₂⟩ :
      flatArgumentTree.ComesTo {} {} 8 fun _ _ m => m.world.store.lists.size = 1 ∧
      m.world.store.IsFlat (.list 0) ∧ (m.world.store.code 0).Takes "$p" ∧
      m.next? = some (.call 1) ∧ m.current.frame.stack = [.code 0, .ref 0] ∧
      m.world.store.ref 0 = some (.list 0) ∧ m.world.store.list 0 = #[.int 1, .int 2] ∧
      m.world.store.fullTextOf (.list 0) = .ok "Array\n(\n\t[0] => 1\n\t[1] => 2\n)\n" ∧
      ∃ m₁, Machine.step.run m = .ok .running m₁ ∧
      ∃ m₂, Machine.Course (fun m => m.next?.any Instr.isLocal = true) 3 m₁ m₂ ∧
      m₂.current.frame.slots[0]? = some (.list 1) ∧
      m₂.world.store.fullTextOf (.list 1) = .ok "Array\n(\n\t[0] => 3\n\t[1] => 2\n)\n" := by
    decide +kernel
  have hcalls : m.Calls 0 [.ref 0] := ⟨1, [], hnext, rfl, hstack⟩
  have hdata : m.world.store.Data (.list 0) := by
    refine .list (by omega) fun v hv => .scalar ?_
    rw [hitems] at hv
    simp only [List.mem_toArray, List.mem_cons, List.not_mem_nil, or_false] at hv
    rcases hv with rfl | rfl <;> rfl
  obtain ⟨y, hy, -, -, hsafe⟩ := argument_isolated_iff hcell hdata
  cases hy.symm.trans htext
  exact ⟨s, b, start, m, m₁, m₂, hread, hcompile, hlaunch, hcourse, hcell, hdata, hflat, hcalls,
    hcode, hstep, hlocal, hslot, htext₂, htext,
    (hsafe hflat 0 "$p" m₁ 3 m₂ hcalls hcode hstep hlocal).2⟩

/-- `function f($p) { $p[0][0] = 3; } $v = [[5]]; f($v); print_r($v);` -/
def nestedArgumentTree : Tree := programTree [
  declarationTree "f" [parameterTree "$p"] [
    expressionTree (operatorTree "assignmentexpression" "="
      (.branch "memberexpression"
        [variableTree "$p", token "[", numeral "0", token "[", numeral "0"])
      (numeral "3"))],
  assignTree "$v" (.branch "arrayliteral"
    [token "[", .branch "arrayliteral" [token "[", numeral "5"]]),
  expressionTree (callTree "f" [variableTree "$v"]),
  expressionTree (callTree "print_r" [variableTree "$v"])]

/-- The array inside the array is not copied: 5 is in it before and 3 after the
call. -/
theorem nested_element_changed :
    ∃ s b start m m₁ m', Script.ofTree nestedArgumentTree = .ok s ∧ s.compile "main" = .ok b ∧
      Machine.launch {} {} b = .ok start ∧ Machine.Course (fun _ => True) 8 start m ∧
      m.world.store.ref 0 = some (.list 1) ∧ m.world.store.Data (.list 1) ∧
      m.Calls 0 [.ref 0] ∧ (m.world.store.code 0).Takes "$p" ∧
      Machine.step.run m = .ok .running m₁ ∧
      Machine.Course (fun m₂ => m.callers.length < m₂.callers.length) 6 m₁ m' ∧
      m'.callers.length = m.callers.length ∧ m'.world.store.ref 0 = some (.list 1) ∧
      m.world.store.fullTextOf (.list 1)
        = .ok "Array\n(\n\t[0] => Array\n\t(\n\t\t[0] => 5\n\t)\n)\n" ∧
      m'.world.store.fullTextOf (.list 1)
        = .ok "Array\n(\n\t[0] => Array\n\t(\n\t\t[0] => 3\n\t)\n)\n" := by
  obtain ⟨s, hread, b, hcompile, start, hlaunch, m, hcourse, hsize, hcode, hnext, hstack, hcell, hinner,
      houter, htext, m₁, hstep, m', hcall, hback, hcell', htext'⟩ :
      nestedArgumentTree.ComesTo {} {} 8 fun _ _ m => m.world.store.lists.size = 2 ∧
      (m.world.store.code 0).Takes "$p" ∧ m.next? = some (.call 1) ∧
      m.current.frame.stack = [.code 0, .ref 0] ∧ m.world.store.ref 0 = some (.list 1) ∧
      m.world.store.list 0 = #[.int 5] ∧ m.world.store.list 1 = #[.list 0] ∧
      m.world.store.fullTextOf (.list 1)
        = .ok "Array\n(\n\t[0] => Array\n\t(\n\t\t[0] => 5\n\t)\n)\n" ∧
      ∃ m₁, Machine.step.run m = .ok .running m₁ ∧
      ∃ m', Machine.Course (fun m₂ => m.callers.length < m₂.callers.length) 6 m₁ m' ∧
      m'.callers.length = m.callers.length ∧ m'.world.store.ref 0 = some (.list 1) ∧
      m'.world.store.fullTextOf (.list 1)
        = .ok "Array\n(\n\t[0] => Array\n\t(\n\t\t[0] => 3\n\t)\n)\n" := by decide +kernel
  have hdata : m.world.store.Data (.list 1) := by
    refine .list (by omega) fun v hv => ?_
    rw [houter, List.mem_toArray, List.mem_singleton] at hv
    subst hv
    refine .list (by omega) fun v hv => .scalar ?_
    rw [hinner, List.mem_toArray, List.mem_singleton] at hv
    subst hv
    rfl
  exact ⟨s, b, start, m, m₁, m', hread, hcompile, hlaunch, hcourse, hcell, hdata,
    ⟨1, [], hnext, rfl, hstack⟩, hcode, hstep, hcall, hback, hcell', htext, htext'⟩

end PageScript
