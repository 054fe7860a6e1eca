/-
Machines that leave alone what is set aside.

`Reserve.Guards` says of a machine that whatever its values stand for is there, and is
not set aside.  This is kept by every step (`Guards.step`) and every course
(`Guards.course`).  With nothing set aside it holds of every machine that was launched
in an intact world.
-/
import PageScript.Proofs.Reserve

namespace PageScript

open List

def Activation.values (a : Activation) : List Value := a.frame.slots.toList ++ a.frame.stack

/-- What the values of a world and of an interpreter stand for is there. -/
structure World.Intact (world : World) (interpreter : Interpreter) : Prop where
  store : ({} : Reserve).Stores world.store
  named : ∀ e ∈ world.constants, ({} : Reserve).Free world.store e.2
  functions : ∀ e ∈ interpreter.functions, ({} : Reserve).Free world.store e.2
  superglobals : ∀ v ∈ interpreter.superglobals, ({} : Reserve).Free world.store v

namespace Reserve

open Machine

/-- No value of the machine gets at what is set aside. -/
structure Guards (r : Reserve) (m : Machine) : Prop where
  store : r.Stores m.world.store
  named : ∀ e ∈ m.world.constants, r.Free m.world.store e.2
  functions : ∀ e ∈ m.interpreter.functions, r.Free m.world.store e.2
  superglobals : ∀ v ∈ m.interpreter.superglobals, r.Free m.world.store v
  literals : ∀ v ∈ m.current.frame.code.constants, r.Free m.world.store v
  activations : ∀ a ∈ m.current :: m.callers, ∀ v ∈ a.values, r.Free m.world.store v

variable {r : Reserve} {m m' : Machine} {last : Store}

theorem free_of_bindable {v : Value} (h : (r.regime last).Bindable v) : r.Free last v :=
  free_of_allows (k := .reference) h

namespace Guards

theorem meets (h : r.Guards m) (hcodes : ∀ code ∈ m.world.store.codes, code.IsResolved)
    (hgrows : m.world.store.Grows last) : (r.regime last).Meets [] m := by
  have hcurrent : ∀ v ∈ m.current.values, r.Free last v := fun v hv =>
    (h.activations _ mem_cons_self v hv).grows hgrows
  refine ⟨⟨⟨h.store.bears hgrows hcodes, fun _ _ he => (h.named _ he).grows hgrows,
    fun _ _ he => (h.functions _ he).grows hgrows,
    fun _ _ hv => .inl ((h.superglobals _ hv).grows hgrows)⟩,
    fun hv => (h.literals _ hv).grows hgrows, fun v hv => .inl ?_⟩,
    fun n v hv => (r.complete_regime last).allows ?_⟩
  · exact hcurrent v (mem_append_left _ (Array.mem_toList_iff.2 hv))
  · exact hcurrent v (mem_append_right _ (mem_of_getElem? hv))

theorem of_meets {ks : List Kind} (h : (r.regime m.world.store).Meets ks m)
    (hcallers : ∀ a ∈ m.callers, ∀ v ∈ a.values, r.Free m.world.store v) : r.Guards m where
  store := h.holds.guards.store.stores
  named _ he := h.holds.guards.named trivial he
  functions _ he := h.holds.guards.functions trivial he
  superglobals _ hv := free_of_bindable (h.holds.guards.superglobals trivial hv)
  literals _ hv := h.holds.constants hv
  activations := by
    refine forall_mem_cons.2 ⟨fun v hv => ?_, hcallers⟩
    rcases mem_append.1 hv with hv | hv
    · exact free_of_bindable (h.holds.slots v (Array.mem_toList_iff.1 hv))
    · obtain ⟨n, hn⟩ := mem_iff_getElem?.1 hv
      exact free_of_allows (h.fits n v hn)

theorem step (h : r.Guards m) (hm : m.RunsOnly Bytecode.IsResolved)
    (hstep : Machine.step.run m = .ok .running m') : r.Guards m' := by
  have hliterals : ∀ v ∈ m'.current.frame.code.constants, r.Free m'.world.store v := fun v hv =>
    .of_isLiteral ((hm.step Bytecode.hereditary_isResolved hstep).activations _
      mem_cons_self |>.code.literal hv)
  obtain ⟨i, flow, m₁, hi, hexec, hgoes⟩ := step_goes hstep
  obtain ⟨ks, hafter⟩ := i.exists_after
  have hobeys : Exec.Obeys (r.regime m₁.world.store) [] True (i.leaving [])
      ((r.regime m₁.world.store).Flows i) i.exec := by
    refine Instr.obeys (r.complete_regime _) hafter (fun _ => r.joins_regime _) ?_
    rintro name code rfl
    exact Bytecode.hereditary_isResolved.declared (hm.activations _ mem_cons_self).code
      (Array.mem_of_getElem? hi)
  obtain ⟨hgrows, hkeeps⟩ := hobeys m.tick flow m₁ hexec (.refl _)
  have htick : r.Guards m.tick := { h with }
  obtain ⟨hmeets, hflows⟩ := hkeeps (htick.meets hm.codes hgrows) trivial
  have hm₁ : r.Guards m₁ := by
    refine of_meets hmeets fun a ha v hv => ?_
    rw [show m₁.callers = m.callers from (keeps_of_exec hexec).2.2] at ha
    exact (h.activations a (mem_cons_of_mem _ ha) v hv).grows hgrows
  obtain ⟨hcurrent, hcallers⟩ := forall_mem_cons.1 hm₁.activations
  cases hgoes with
  | next | jump =>
    exact { hm₁ with activations := forall_mem_cons.2 ⟨hcurrent, hcallers⟩ }
  | enter =>
    obtain ⟨-, -, hslots, hstack⟩ := hflows
    refine { hm₁ with
      literals := hliterals
      activations := forall_mem_cons.2 ⟨fun v hv => ?_, hm₁.activations⟩ }
    rw [Activation.values, hstack, append_nil, Array.mem_toList_iff] at hv
    exact free_of_bindable (hslots v hv)
  | @leave v caller rest hwaiting =>
    rw [hwaiting] at hcallers
    obtain ⟨hcaller, hrest⟩ := forall_mem_cons.1 hcallers
    refine { hm₁ with
      literals := hliterals
      activations := forall_mem_cons.2 ⟨fun w hw => ?_, hrest⟩ }
    rcases mem_append.1 hw with hw | hw
    · exact hcaller w (mem_append_left _ hw)
    · rcases mem_cons.1 hw with rfl | hw
      · exact hflows.2
      · exact hcaller w (mem_append_right _ hw)

theorem course {P : Machine → Prop} {n : Nat} (h : r.Guards m)
    (hm : m.RunsOnly Bytecode.IsResolved) (hcourse : Course P n m m') : r.Guards m' := by
  induction hcourse with
  | stay m => exact h
  | next _ hstep _ ih =>
    exact ih (h.step hm hstep) (hm.step Bytecode.hereditary_isResolved hstep)

theorem launch {world : World} {interpreter : Interpreter} {b : Bytecode}
    (hworld : world.Intact interpreter) (hb : b.IsResolved)
    (h : Machine.launch world interpreter b = .ok m) : ({} : Reserve).Guards m := by
  obtain ⟨_, _, hnew, rfl, rfl⟩ := ok_of_launch h
  obtain ⟨hcode, hslots, -⟩ := Frame.new_spec hnew
  refine ⟨hworld.store, hworld.named, hworld.functions, hworld.superglobals,
    fun v hv => .of_isLiteral (hb.literal (hcode ▸ hv)), forall_mem_singleton.2 fun v hv => ?_⟩
  rw [Activation.values, append_nil, Array.mem_toList_iff] at hv
  rcases hslots hv with rfl | hv
  · trivial
  · exact hworld.superglobals _ hv

end Guards

end Reserve

theorem World.intact_empty : ({} : World).Intact {} where
  store :=
    { cells := fun h => nomatch h
      items := fun h => nomatch h
      entries := fun h => nomatch h
      cursor := nofun
      dict := nofun
      keys := fun _ => nil_prefix }
  named := nofun
  functions e he := by
    obtain ⟨f, -, rfl⟩ := mem_map.1 he
    trivial
  superglobals := nofun

end PageScript
