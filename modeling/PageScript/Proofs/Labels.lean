/-
Labels are resolved.

In the items that are emitted for a node every label that a jump goes to stands once
(`Node.resolvable_of_compile`), and such items can be resolved: a jump goes to the number
of instructions before its label (`Item.resolve_spec`).

Code can also be run with its labels: `Labelling.step` does nothing at a label.  The
machine without labels (`Labelling.unlabelled`) stays where it is then, and every other
step is the same for both (`step_unlabelled`).
-/
import PageScript.Proofs.Simulation
import PageScript.Proofs.Texts

open EStateM (Result)

namespace PageScript

open EStateM Item List Instr

variable {L M : Type} {items : List Item} {i : Instr Int Bytecode} {k : Nat} {n : Int}
  {f : L → Except Fault M}

/-! ### Where labels stand -/

namespace Item

def instr? : Item → Option (Instr Int Bytecode)
  | .label _ => none
  | .instr i => some i

def marks (n : Int) (item : Item) : Bool := item.label? == some n

def indexOf (items : List Item) (n : Int) : Except Fault Nat :=
  match items.findIdx? (marks n) with
  | some k => .ok k
  | none => .error .missingEntry

def before (items : List Item) (k : Nat) : Nat := extent (items.take k)

def place (items : List Item) (n : Int) : Except Fault Nat := (indexOf items n).map (before items)

/-- Every label that a jump goes to stands once. -/
def Resolvable (items : List Item) : Prop := ∀ n ∈ targetsOf items, (labelsOf items).count n = 1

instance (items : List Item) : Decidable (Resolvable items) :=
  inferInstanceAs (Decidable (∀ n ∈ targetsOf items, (labelsOf items).count n = 1))

theorem marks_label (m n : Int) : marks n (.label m) = decide (m = n) := by
  simp [marks, label?, Bool.beq_eq_decide_eq]

theorem marks_instr (n : Int) (i : Instr Int Bytecode) : marks n (.instr i) = false := rfl

theorem place_label (m n : Int) (items : List Item) :
    place (.label m :: items) n = if m = n then .ok 0 else place items n := by
  simp only [place, indexOf, findIdx?_cons, marks_label]
  by_cases h : m = n
  · simp [h, before, extent, Except.map]
  · cases items.findIdx? (marks n) <;> simp [h, before, extent, Except.map]

theorem place_instr (i : Instr Int Bytecode) (n : Int) (items : List Item) :
    place (.instr i :: items) n = (place items n).map (· + 1) := by
  simp only [place, indexOf, findIdx?_cons, marks_instr]
  cases items.findIdx? (marks n) <;> simp [before, extent, Except.map]

theorem before_succ {item : Item} (h : items[k]? = some item) :
    before items (k + 1) = before items k + extent [item] := by
  rw [before, before, take_add_one, h, extent_append]
  rfl

theorem before_le (items : List Item) (k : Nat) : before items k ≤ extent items := by
  conv_rhs => rw [← take_append_drop k items, extent_append]
  exact Nat.le_add_right _ _

theorem position_labels (h : (labelsOf items).count n = 1)
    (pos : Nat) : position (labels pos items) n = (place items n).map (pos + ·) := by
  induction items generalizing pos with
  | nil => cases h
  | cons item items ih =>
    cases item with
    | label m =>
      rw [labelsOf_label, count_cons] at h
      rw [place_label, position, labels, lookup_append]
      by_cases hm : m = n
      · -- It stands here, and so it does not stand further on.
        subst hm
        have hnone : (labels pos items).lookup m = none := by
          rw [lookup_eq_none_iff]
          intro entry hentry
          have hfst : entry.1 ∈ labelsOf items := by
            rw [← mem_reverse, ← map_fst_labels pos]
            exact mem_map_of_mem hentry
          have hout : m ∉ labelsOf items := count_eq_zero.1 (by simpa using h)
          simpa using fun heq : m = entry.1 => hout (heq ▸ hfst)
        simp [hnone, Except.map]
      · have hcount : (labelsOf items).count n = 1 := by simpa [hm] using h
        have hrest := ih hcount pos
        rw [position] at hrest
        rw [if_neg hm, ← hrest]
        cases hlookup : (labels pos items).lookup n with
        | some k => simp
        | none =>
          rw [hlookup] at hrest
          have hin : n ∈ labelsOf items := count_pos_iff.1 (by omega)
          rw [← mem_reverse, ← map_fst_labels pos] at hin
          exact absurd hin (not_mem_of_lookup hlookup)
    | instr i =>
      rw [place_instr, labels, ih h (pos + 1)]
      cases place items n <;> simp +arith [Except.map]

theorem forall₂_of_relocate {table : List (Int × Nat)}
    {is : List (Instr Nat Bytecode)} (h : relocate table items = .ok is) :
    Forall₂ (fun i j => i.retarget (position table) = .ok j) (items.filterMap instr?) is := by
  induction items generalizing is with
  | nil =>
    cases h
    exact .nil
  | cons item items ih =>
    cases item with
    | label n => exact ih h
    | instr i =>
      obtain ⟨j, hj, h⟩ := ok_of_bind h
      obtain ⟨js, hjs, h⟩ := ok_of_bind h
      cases h
      exact .cons hj (ih hjs)

theorem retarget_congr {f g : Int → Except Fault M}
    (h : ∀ n, target? (.instr i) = some n → f n = g n) : i.retarget f = i.retarget g := by
  cases i with
  | jump kind n => rw [retarget, retarget, h n rfl]
  | _ => rfl

theorem mem_of_instr? (h : i ∈ items.filterMap instr?) : .instr i ∈ items := by
  obtain ⟨item, hitem, hi⟩ := mem_filterMap.1 h
  cases item with
  | label n => cases hi
  | instr j =>
    cases hi
    exact hitem

/-- If the labels that are jumped to stand once, every jump goes to the number
of instructions before its label. -/
theorem resolve_spec (h : Resolvable items) :
    ∃ is, resolve items = .ok is ∧
      Forall₂ (fun i j => i.retarget (place items) = .ok j) (items.filterMap instr?) is := by
  obtain ⟨is, his⟩ : ∃ is, resolve items = .ok is := by
    refine exists_relocate fun n hn => ?_
    rw [map_fst_labels, mem_reverse]
    exact count_pos_iff.1 (by rw [h n hn]; exact Nat.one_pos)
  have hplace : ∀ i ∈ items.filterMap instr?,
      i.retarget (place items) = i.retarget (position (labels 0 items)) := by
    intro i hi
    refine retarget_congr fun n hn => ?_
    have htarget : n ∈ targetsOf items := mem_filterMap.2 ⟨_, mem_of_instr? hi, hn⟩
    rw [position_labels (h n htarget)]
    cases place items n <;> simp [Except.map]
  have hboth := (forall₂_and_left _ _).2 ⟨hplace, forall₂_of_relocate his⟩
  exact ⟨is, his, hboth.imp fun i j hij => hij.1.trans hij.2⟩

theorem place_le (h : place items n = .ok k) : k ≤ extent items := by
  rw [place] at h
  cases hindex : indexOf items n with
  | error e =>
    rw [hindex] at h
    cases h
  | ok index =>
    rw [hindex] at h
    cases h
    exact before_le items index

theorem ok_of_retarget_jump {B : Type} {kind : Jump} {target : L} {j : Instr M B}
    (h : (jump kind target).retarget f = .ok j) :
    ∃ place, f target = .ok place ∧ j = .jump kind place := by
  cases hf : f target with
  | error e =>
    rw [retarget, hf] at h
    cases h
  | ok place =>
    rw [retarget, hf] at h
    cases h
    exact ⟨place, rfl, rfl⟩

theorem exists_of_retarget {i : Instr L Bytecode}
    {kind : Jump} {target : M} (h : i.retarget f = .ok (.jump kind target)) :
    ∃ n, f n = .ok target := by
  cases i with
  | jump kind' n =>
    obtain ⟨place, hf, hj⟩ := ok_of_retarget_jump h
    cases hj
    exact ⟨n, hf⟩
  | _ => cases h

theorem target_le {is : List (Instr Nat Bytecode)}
    (h : Forall₂ (fun i j => i.retarget (place items) = .ok j) (items.filterMap instr?) is)
    {kind : Jump} {target : Nat} (htarget : .jump kind target ∈ is) : target ≤ extent items := by
  obtain ⟨k, hlt, hk⟩ := mem_iff_getElem.1 htarget
  have hij := h.get (h.length_eq ▸ hlt) hlt
  rw [get_eq_getElem, get_eq_getElem, hk] at hij
  obtain ⟨n, hn⟩ := exists_of_retarget hij
  exact place_le hn

theorem getElem?_instrs
    (h : items[k]? = some (.instr i)) : (items.filterMap instr?)[before items k]? = some i := by
  induction items generalizing k with
  | nil => cases h
  | cons item items ih =>
    cases k with
    | zero =>
      cases h
      rfl
    | succ k =>
      rw [getElem?_cons_succ] at h
      cases item with
      | label n => exact ih h
      | instr j => exact ih h

end Item

/-! ### Instructions with other targets -/

/-- The way on with another kind of target. -/
def Flow.retarget {L M : Type} (f : L → Except Fault M) : Flow L → Except Fault (Flow M)
  | .next => .ok .next
  | .jump target => (f target).map .jump
  | .enter frame => .ok (.enter frame)
  | .leave v => .ok (.leave v)

def Flow.map {L M : Type} (g : L → M) : Flow L → Flow M
  | .next => .next
  | .jump target => .jump (g target)
  | .enter frame => .enter frame
  | .leave v => .leave v

theorem Flow.retarget_map {N : Type} (f : L → Except Fault M) (g : M → N) (flow : Flow L) :
    flow.retarget (fun n => (f n).map g) = (flow.retarget f).map (Flow.map g) := by
  cases flow with
  | jump target => cases hf : f target <;> simp [Flow.retarget, hf, Except.map, Flow.map]
  | _ => rfl

theorem Flow.retarget_ok (flow : Flow L) : flow.retarget .ok = .ok flow := by
  cases flow <;> rfl

theorem Exec.callFunction_retarget (f : L → Except Fault M) (v : Value) (args : List Value) :
    (callFunction v args : Exec (Flow M))
      = callFunction v args >>= fun flow => ofExcept (flow.retarget f) := by
  unfold callFunction
  cases v with
  | native g =>
    simp only [bind_assoc]
    rfl
  | code id =>
    simp only [bind_assoc]
    rfl
  | _ => rfl

theorem Instr.exec_retarget {i : Instr L Bytecode}
    {j : Instr M Bytecode} (h : i.retarget f = .ok j) :
    j.exec = i.exec >>= fun flow => ofExcept (flow.retarget f) := by
  cases i with
  | jump kind target =>
    obtain ⟨place, hf, rfl⟩ := ok_of_retarget_jump h
    simp only [exec, bind_assoc]
    refine bind_congr fun taken => ?_
    cases taken
    · simp [Flow.retarget]; rfl
    · simp [Flow.retarget, hf]; rfl
  | call count =>
    cases h
    simp only [exec, bind_assoc]
    exact bind_congr fun _ => bind_congr fun _ => bind_congr fun _ =>
      Exec.callFunction_retarget f _ _
  | loadNamedConstant name | loadFunction name =>
    cases h
    simp only [exec, bind_assoc]
    refine bind_congr fun m => ?_
    split
    · rw [bind_assoc]
      rfl
    · rfl
  | _ =>
    cases h
    simp only [exec, bind_assoc, pure_bind]
    rfl

/-- An instruction without its target. -/
def Instr.opcode? {L B : Type} (i : Instr L B) : Option (Instr Unit B) :=
  (i.retarget fun _ => .ok ()).toOption

theorem Instr.opcode?_retarget {B : Type} {i : Instr L B}
    {j : Instr M B} (h : i.retarget f = .ok j) : j.opcode? = i.opcode? := by
  cases i with
  | jump kind target =>
    obtain ⟨place, hf, rfl⟩ := ok_of_retarget_jump h
    rfl
  | _ =>
    cases h
    rfl

/-! ### Code that is run with its labels -/

/-- Which codes come from which items. -/
structure Labelling where
  form : Array (Instr Nat Bytecode) → Option (List Item)
  resolvable : ∀ {code items}, form code = some items → Resolvable items
  resolve_eq : ∀ {code items}, form code = some items → resolve items = .ok code.toList

/-- The machine one position further. -/
def Machine.past (m : Machine) : Machine :=
  { m with current := { m.current with pos := m.current.pos + 1 } }

namespace Labelling

open Classical in
/-- One code comes from items, and no other one does. -/
noncomputable def single (items : List Item) (h : Resolvable items) : Labelling where
  form code := if resolve items = .ok code.toList then some items else none
  resolvable hcode := by
    split at hcode
    · cases hcode
      exact h
    · cases hcode
  resolve_eq hcode := by
    split at hcode
    · cases hcode
      assumption
    · cases hcode

variable (forms : Labelling)

/-- One step of code with labels.  A label is no instruction, and a jump goes to
its label. -/
def step : Exec Progress := do
  let current := (← get).current
  match forms.form current.frame.code.code with
  | none => Machine.step
  | some items =>
    match items[current.pos]? with
    | some (.label _) => Machine.proceed current.pos .next
    | some (.instr i) => do
      modify Machine.tick
      let flow ← i.exec
      Machine.proceed current.pos (← ofExcept (flow.retarget (indexOf items)))
    | none => do
      modify Machine.tick
      Machine.leave .unset

/-- The instruction of the next step, without its target. -/
def opcode? (m : Machine) : Option (Instr Unit Bytecode) :=
  match forms.form m.current.frame.code.code with
  | none => m.next?.bind Instr.opcode?
  | some items => (items[m.current.pos]?.bind instr?).bind Instr.opcode?

/-- The position that counts instructions only. -/
def count (code : Array (Instr Nat Bytecode)) (pos : Nat) : Nat :=
  match forms.form code with
  | none => pos
  | some items => before items pos

/-- An activation with the position that counts instructions only. -/
def activation (a : Activation) : Activation :=
  { a with pos := forms.count a.frame.code.code a.pos }

def unlabelled (m : Machine) : Machine :=
  { m with
    current := forms.activation m.current
    callers := m.callers.map forms.activation }

/-- The next step comes to an instruction, where the code has labels. -/
def Stands (a : Activation) : Prop :=
  ∀ items, forms.form a.frame.code.code = some items → ∃ i, items[a.pos]? = some (.instr i)

def Waits (m : Machine) : Prop := ∀ a ∈ m.callers, forms.Stands a

variable {forms} {m m' : Machine} {items : List Item}

theorem step_none (h : forms.form m.current.frame.code.code = none) :
    forms.step.run m = Machine.step.run m := by
  simp only [step, run_bind, run_get, h]

section

variable (h : forms.form m.current.frame.code.code = some items)

include h

theorem step_label (hn : items[m.current.pos]? = some (.label n)) :
    forms.step.run m = .ok .running m.past := by
  simp only [step, run_bind, run_get, h, hn]
  rfl

theorem step_end (hend : items[m.current.pos]? = none) :
    forms.step.run m = (Machine.leave .unset).run m.tick := by
  simp only [step, run_bind, run_get, h, hend, run_modify]

theorem step_instr (hi : items[m.current.pos]? = some (.instr i)) :
    forms.step.run m = (i.exec >>= fun flow => ofExcept (flow.retarget (indexOf items)) >>=
      Machine.proceed m.current.pos).run m.tick := by
  simp only [step, run_bind, run_get, h, hi, run_modify]

/-! ### The machine without labels -/

theorem count_eq (pos : Nat) : forms.count m.current.frame.code.code pos = before items pos := by
  rw [count, h]

theorem fetch_unlabelled (hi : items[m.current.pos]? = some (.instr i)) :
    ∃ j, i.retarget (place items) = .ok j ∧ (forms.unlabelled m).next? = some j := by
  obtain ⟨is, his, hall⟩ := resolve_spec (forms.resolvable h)
  obtain rfl : is = m.current.frame.code.code.toList :=
    Except.ok.inj (his.symm.trans (forms.resolve_eq h))
  have hinstr := getElem?_instrs hi
  obtain ⟨hlt, hget⟩ := List.getElem?_eq_some_iff.1 hinstr
  have hlt' : before items m.current.pos < m.current.frame.code.code.toList.length := by
    rwa [← hall.length_eq]
  have hij := hall.get hlt hlt'
  rw [get_eq_getElem, hget] at hij
  refine ⟨_, hij, ?_⟩
  show m.current.frame.code.code[forms.count m.current.frame.code.code m.current.pos]? = _
  rw [count_eq h, ← Array.getElem?_toList, getElem?_eq_getElem hlt']
  rfl

theorem fetch_end (hend : items[m.current.pos]? = none) : (forms.unlabelled m).next? = none := by
  have hlength := length_of_relocate (forms.resolve_eq h)
  show m.current.frame.code.code[forms.count m.current.frame.code.code m.current.pos]? = none
  have hbefore : before items m.current.pos = m.current.frame.code.code.size := by
    rw [before, take_of_length_le (getElem?_eq_none_iff.1 hend), ← hlength,
      Array.length_toList]
  rw [count_eq h, Array.getElem?_eq_none_iff]
  exact Nat.le_of_eq hbefore.symm

end

theorem count_succ {a : Activation} (h : forms.Stands a) :
    forms.count a.frame.code.code (a.pos + 1) = forms.count a.frame.code.code a.pos + 1 := by
  unfold count
  split
  · rfl
  · rename_i items hitems
    obtain ⟨i, hi⟩ := h items hitems
    exact before_succ hi

theorem run_unlabelled {α : Type} {a : Exec α} (ha : Exec.Local a) (m : Machine) :
    a.run (forms.unlabelled m) = mapState forms.unlabelled (a.run m) := by
  let b : Control := { (forms.unlabelled m).control with stackFault := false }
  refine ha.commute (b := b) ?_ fun m' h => ?_
  · obtain ⟨_, _, ⟨⟨code, _, _, _⟩, _⟩, _, _, stackFault⟩ := m
    cases code
    cases stackFault <;> rfl
  · rw [h]
    obtain ⟨_, _, ⟨⟨code, _, _, _⟩, _⟩, _, _, _⟩ := m
    obtain ⟨_, _, ⟨⟨code', _, _, _⟩, _⟩, _, _, stackFault⟩ := m'
    cases code
    cases stackFault <;> rfl

theorem leave_unlabelled (h : forms.Waits m) (v : Value) :
    (Machine.leave v).run (forms.unlabelled m)
      = mapState forms.unlabelled ((Machine.leave v).run m) := by
  have hcallers : (forms.unlabelled m).callers = m.callers.map forms.activation := rfl
  refine Machine.leave_commute v (fun hnil => ?_) fun {a rest} hcons =>
    ⟨forms.activation a, rest.map forms.activation, ?_, rfl, rfl, ?_, rfl⟩
  · rw [hcallers, hnil]
    rfl
  · rw [hcallers, hcons]
    rfl
  · have hpos := count_succ (h a (hcons ▸ mem_cons_self))
    simp only [unlabelled, activation]
    rw [hpos]

theorem count_zero (code : Array (Instr Nat Bytecode)) : forms.count code 0 = 0 := by
  unfold count
  split <;> rfl

theorem proceed_unlabelled (hwaits : forms.Waits m) (hstands : forms.Stands m.current)
    (flow : Flow Nat) :
    (Machine.proceed (forms.count m.current.frame.code.code m.current.pos)
        (flow.map (forms.count m.current.frame.code.code))).run (forms.unlabelled m)
      = mapState forms.unlabelled ((Machine.proceed m.current.pos flow).run m) := by
  cases flow with
  | next =>
    have hsucc := count_succ hstands
    show Result.ok _ _ = Result.ok _ (forms.unlabelled _)
    simp only [unlabelled, activation]
    rw [hsucc]
  | jump target => rfl
  | enter frame =>
    show Result.ok _ _ = Result.ok _ (forms.unlabelled _)
    simp only [unlabelled, activation, count_zero, map_cons]
  | leave v => exact leave_unlabelled hwaits v

def AtLabel (forms : Labelling) (m : Machine) : Prop :=
  ∃ items n, forms.form m.current.frame.code.code = some items ∧
    items[m.current.pos]? = some (.label n)

/-- The next step comes to the end of the code. -/
structure Ends (forms : Labelling) (m : Machine) : Prop where
  step_eq : forms.step.run m = (Machine.leave .unset).run m.tick
  opcode : forms.opcode? m = none
  next : (forms.unlabelled m).next? = none

/-- The next step executes an instruction, with labels or without, whose targets
are the positions that `f` gives. -/
structure Executes (forms : Labelling) (m : Machine) (i : Instr L Bytecode)
    (f : L → Except Fault Nat) : Prop where
  step_eq : forms.step.run m
    = (i.exec >>= fun flow => ofExcept (flow.retarget f) >>= Machine.proceed m.current.pos).run m.tick
  opcode : forms.opcode? m = i.opcode?
  next : ∃ j, i.retarget (fun n => (f n).map (forms.count m.current.frame.code.code)) = .ok j ∧
    (forms.unlabelled m).next? = some j
  stands : forms.Stands m.current

theorem ends_or_executes (h : ¬forms.AtLabel m) :
    forms.Ends m ∨ ∃ (L : Type) (i : Instr L Bytecode) (f : L → Except Fault Nat),
      forms.Executes m i f := by
  cases hform : forms.form m.current.frame.code.code with
  | none =>
    have hcount : forms.count m.current.frame.code.code = id := by
      funext k
      rw [count, hform]
      rfl
    have hnext : (forms.unlabelled m).next? = m.next? :=
      congrArg (fun count => m.current.frame.code.code[count m.current.pos]?) hcount
    have hopcode : forms.opcode? m = m.next?.bind Instr.opcode? := by simp only [opcode?, hform]
    cases hi : m.next? with
    | none =>
      rw [hi] at hnext hopcode
      exact .inl ⟨(step_none hform).trans (Machine.step_of_none hi), hopcode, hnext⟩
    | some i =>
      rw [hi] at hnext hopcode
      refine .inr ⟨Nat, i, .ok, ?_, hopcode, ⟨i, ?_, hnext⟩, fun items hitems => ?_⟩
      · rw [step_none hform, Machine.step_of_some hi, run_bind]
        simp only [Flow.retarget_ok]
        cases i.exec.run m.tick <;> rfl
      · rw [hcount]
        cases i <;> rfl
      · rw [hform] at hitems
        cases hitems
  | some items =>
    have hopcode : forms.opcode? m = (items[m.current.pos]?.bind instr?).bind Instr.opcode? := by
      simp only [opcode?, hform]
    cases hitem : items[m.current.pos]? with
    | none =>
      rw [hitem] at hopcode
      exact .inl ⟨step_end hform hitem, hopcode, fetch_end hform hitem⟩
    | some item =>
      rw [hitem] at hopcode
      cases item with
      | label n => exact absurd ⟨items, n, hform, hitem⟩ h
      | instr i =>
        have hnext := fetch_unlabelled hform hitem
        refine .inr ⟨Int, i, indexOf items, step_instr hform hitem, hopcode, ?_, fun items' h' => ?_⟩
        · rwa [show forms.count m.current.frame.code.code = _ from funext (count_eq hform)]
        · rw [hform] at h'
          cases h'
          exact ⟨i, hitem⟩

theorem stands_of_exec {i : Instr L Bytecode} {flow : Flow L} (hwaits : forms.Waits m)
    (hstands : forms.Stands m.current) (h : i.exec.run m.tick = .ok flow m') :
    m'.current.frame.code.code = m.current.frame.code.code ∧ m'.current.pos = m.current.pos ∧
      forms.Waits m' ∧ forms.Stands m'.current := by
  have hpos := Machine.pos_of_exec h
  obtain ⟨hcode, -, hcallers⟩ := Machine.keeps_of_exec h
  refine ⟨hcode, hpos, ?_, ?_⟩
  · rw [Waits, hcallers]
    exact hwaits
  · rw [Stands, hcode, hpos]
    exact hstands

theorem step_unlabelled (hwaits : forms.Waits m) (h : ¬forms.AtLabel m) :
    Machine.step.run (forms.unlabelled m) = mapState forms.unlabelled (forms.step.run m) := by
  rcases ends_or_executes h with h | ⟨L, i, f, h⟩
  · rw [h.step_eq, Machine.step_of_none h.next]
    exact leave_unlabelled (m := m.tick) hwaits .unset
  · have htick : (forms.unlabelled m).tick = forms.unlabelled m.tick := rfl
    obtain ⟨j, hj, hnext⟩ := h.next
    rw [h.step_eq, Machine.step_of_some hnext, htick, exec_retarget hj, run_bind, run_bind,
      run_unlabelled i.exec_local]
    cases hexec : i.exec.run m.tick with
    | error e m' => rfl
    | ok flow m' =>
      obtain ⟨hcode, hpos, hwaits', hstands⟩ := stands_of_exec hwaits h.stands hexec
      -- The target is resolved to the place of its item.
      simp only [mapState, run_bind, Exec.run_ofExcept, Flow.retarget_map]
      cases flow.retarget f with
      | error e => rfl
      | ok flow =>
        have hproceed := proceed_unlabelled hwaits' hstands flow
        rw [hcode, hpos] at hproceed
        exact hproceed

theorem opcode?_unlabelled (h : ¬forms.AtLabel m) :
    (forms.unlabelled m).next?.bind Instr.opcode? = forms.opcode? m := by
  rcases ends_or_executes h with h | ⟨L, i, f, h⟩
  · rw [h.next, h.opcode]
    rfl
  · obtain ⟨j, hj, hnext⟩ := h.next
    rw [hnext, h.opcode]
    exact opcode?_retarget hj

/-! ### What waits -/

theorem waits_leave (h : forms.Waits m) {v : Value}
    (hleave : (Machine.leave v).run m = .ok .running m') : forms.Waits m' := by
  cases Machine.leave_goes 0 hleave with
  | leave hcallers _ _ => exact fun a ha => h a (hcallers ▸ mem_cons_of_mem _ ha)

theorem waits_proceed (h : forms.Waits m) (hstands : forms.Stands m.current) {pos : Nat}
    {flow : Flow Nat} (hproceed : (Machine.proceed pos flow).run m = .ok .running m') :
    forms.Waits m' := by
  cases flow with
  | next | jump target =>
    cases hproceed
    exact h
  | enter frame =>
    cases hproceed
    intro a ha
    rcases mem_cons.1 ha with rfl | ha
    · exact hstands
    · exact h a ha
  | leave v => exact waits_leave h hproceed

theorem waits_step (hwaits : forms.Waits m) (hstep : forms.step.run m = .ok .running m') :
    forms.Waits m' := by
  by_cases h : forms.AtLabel m
  · obtain ⟨items, n, hform, hitem⟩ := h
    rw [step_label hform hitem] at hstep
    cases hstep
    exact hwaits
  rcases ends_or_executes h with h | ⟨L, i, f, h⟩
  · rw [h.step_eq] at hstep
    exact waits_leave (m := m.tick) hwaits hstep
  · rw [h.step_eq] at hstep
    obtain ⟨flow, m₁, hexec, hstep⟩ := ok_of_run_bind hstep
    obtain ⟨-, -, hwaits₁, hstands⟩ := stands_of_exec hwaits h.stands hexec
    rw [run_bind, Exec.run_ofExcept] at hstep
    cases hflow : flow.retarget f with
    | error e =>
      rw [hflow] at hstep
      cases hstep
    | ok flow =>
      rw [hflow] at hstep
      exact waits_proceed hwaits₁ hstands hstep

end Labelling

/-! ### Runs -/

/-- The instructions that a run executes, without their targets, and how it
ends.  What is executed by a step is read off the machine before it. -/
def Exec.trace (step : Exec Progress) (opcode? : Machine → Option (Instr Unit Bytecode)) :
    Nat → Machine → List (Instr Unit Bytecode) × Ending × Machine
  | 0, m => ([], .outOfFuel, m)
  | fuel + 1, m =>
    match step.run m with
    | .ok .running next =>
      let rest := trace step opcode? fuel next
      ((opcode? m).toList ++ rest.1, rest.2)
    | .ok (.done v) last => ((opcode? m).toList, .finished v, last)
    | .error fault last => ((opcode? m).toList, .failed fault, last)

/-- The instructions that the machine executes within some steps, and how it
ends. -/
def Machine.trace (fuel : Nat) (m : Machine) : List (Instr Unit Bytecode) × Ending × Machine :=
  ((m.states fuel).filterMap fun m => m.next?.bind Instr.opcode?, m.run fuel)

theorem Machine.trace_eq (fuel : Nat) (m : Machine) :
    m.trace fuel = Exec.trace step (fun m => m.next?.bind opcode?) fuel m := by
  induction fuel generalizing m with
  | zero => rfl
  | succ fuel ih =>
    have hrest := fun m => (ih m).symm
    rw [Exec.trace, trace, states, run]
    cases step.run m with
    | error fault last =>
      cases h : m.next?.bind opcode? <;> simp [h]
    | ok progress next =>
      cases progress with
      | done v =>
        cases h : m.next?.bind opcode? <;> simp [h]
      | running =>
        simp only [hrest]
        cases h : m.next?.bind opcode? <;> simp [h, trace]

namespace Labelling

variable {forms : Labelling} {m m' : Machine} {items : List Item}

/-- The instructions that a run with labels executes, and how it ends. -/
def trace (forms : Labelling) (fuel : Nat) (m : Machine) :
    List (Instr Unit Bytecode) × Ending × Machine :=
  Exec.trace forms.step forms.opcode? fuel m

def outcome (forms : Labelling) (r : List (Instr Unit Bytecode) × Ending × Machine) :
    List (Instr Unit Bytecode) × Ending × Machine :=
  (r.1, r.2.1, forms.unlabelled r.2.2)

theorem trace_label (h : forms.AtLabel m) (fuel : Nat) :
    forms.trace (fuel + 1) m = forms.trace fuel m.past := by
  obtain ⟨items, n, hform, hitem⟩ := h
  have hopcode : forms.opcode? m = none := by
    simp only [opcode?, hform, hitem]
    rfl
  rw [trace, Exec.trace, step_label hform hitem]
  simp only [hopcode]
  rfl

theorem AtLabel.unlabelled_eq (h : forms.AtLabel m) :
    forms.unlabelled m.past = forms.unlabelled m := by
  obtain ⟨items, n, hform, hitem⟩ := h
  simp only [unlabelled, activation, Machine.past, count_eq hform, before_succ hitem]
  rfl

theorem trace_succ (hwaits : forms.Waits m) (h : ¬forms.AtLabel m) {n : Nat}
    (hrest : ∀ next, forms.step.run m = .ok .running next →
      forms.outcome (forms.trace n next) = (forms.unlabelled next).trace k) :
    forms.outcome (forms.trace (n + 1) m) = (forms.unlabelled m).trace (k + 1) := by
  rw [Machine.trace_eq, trace, Exec.trace, Exec.trace, step_unlabelled hwaits h,
    opcode?_unlabelled h]
  cases hstep : forms.step.run m with
  | error fault last => rfl
  | ok progress next =>
    cases progress with
    | done v => rfl
    | running =>
      have hnext := hrest next hstep
      rw [Machine.trace_eq] at hnext
      simp only [mapState, ← hnext]
      rfl

theorem exists_unlabelled (hwaits : forms.Waits m) (n : Nat) :
    ∃ k ≤ n, forms.outcome (forms.trace n m) = (forms.unlabelled m).trace k := by
  induction n generalizing m with
  | zero => exact ⟨0, Nat.le_refl 0, rfl⟩
  | succ n ih =>
    by_cases h : forms.AtLabel m
    · obtain ⟨k, hk, heq⟩ := ih (m := m.past) hwaits
      rw [← trace_label h, h.unlabelled_eq] at heq
      exact ⟨k, Nat.le_succ_of_le hk, heq⟩
    · by_cases hrun : ∃ next, forms.step.run m = .ok .running next
      · obtain ⟨next, hstep⟩ := hrun
        obtain ⟨k, hk, heq⟩ := ih (waits_step hwaits hstep)
        refine ⟨k + 1, Nat.succ_le_succ hk, trace_succ hwaits h fun next' hnext => ?_⟩
        cases hstep.symm.trans hnext
        exact heq
      · exact ⟨1, Nat.le_add_left 1 n, trace_succ hwaits h fun next hnext =>
          absurd ⟨next, hnext⟩ hrun⟩

theorem exists_past_labels (left : Nat)
    (hleft : ∀ items, forms.form m.current.frame.code.code = some items →
      items.length ≤ m.current.pos + left) :
    ∃ j next, ¬forms.AtLabel next ∧ next.callers = m.callers ∧
      forms.unlabelled next = forms.unlabelled m ∧
      ∀ n, forms.trace (n + j) m = forms.trace n next := by
  induction left generalizing m with
  | zero =>
    refine ⟨0, m, ?_, rfl, rfl, fun n => rfl⟩
    rintro ⟨items, n, hform, hitem⟩
    obtain ⟨hlt, -⟩ := List.getElem?_eq_some_iff.1 hitem
    have hle := hleft items hform
    omega
  | succ left ih =>
    by_cases h : forms.AtLabel m
    · obtain ⟨j, next, hnext, hcallers, heq, htrace⟩ :=
        ih (m := m.past) fun items hform => by
            have hle := hleft items hform
            show items.length ≤ m.current.pos + 1 + left
            omega
      refine ⟨j + 1, next, hnext, hcallers, heq.trans h.unlabelled_eq, fun n => ?_⟩
      rw [← Nat.add_assoc, trace_label h, htrace]
    · exact ⟨0, m, h, rfl, rfl, fun n => rfl⟩

theorem exists_labelled (hwaits : forms.Waits m) (k : Nat) :
    ∃ n, forms.outcome (forms.trace n m) = (forms.unlabelled m).trace k := by
  induction k generalizing m with
  | zero => exact ⟨0, rfl⟩
  | succ k ih =>
    have hleft : ∀ items, forms.form m.current.frame.code.code = some items →
        items.length ≤ m.current.pos + ((forms.form m.current.frame.code.code).getD []).length := by
      intro items hform
      rw [hform, Option.getD_some]
      exact Nat.le_add_left _ _
    obtain ⟨j, start, hstart, hcallers, heq, htrace⟩ := exists_past_labels _ hleft
    have hwaits' : forms.Waits start := by rwa [Waits, hcallers]
    obtain ⟨n, hn⟩ : ∃ n, forms.outcome (forms.trace (n + 1) start)
        = (forms.unlabelled start).trace (k + 1) := by
      by_cases hrun : ∃ next, forms.step.run start = .ok .running next
      · obtain ⟨next, hstep⟩ := hrun
        obtain ⟨n, hn⟩ := ih (waits_step hwaits' hstep)
        refine ⟨n, trace_succ hwaits' hstart fun next' hnext => ?_⟩
        cases hstep.symm.trans hnext
        exact hn
      · exact ⟨0, trace_succ hwaits' hstart fun next hnext => absurd ⟨next, hnext⟩ hrun⟩
    exact ⟨n + 1 + j, by rw [htrace, hn, heq]⟩

end Labelling

/-! ### What is emitted -/

theorem Node.resolvable_of_compile {scopes : Nat → Scope} {node : Node} {a : Assembler}
    (h : (node.compile scopes).run {} = .ok () a) : Resolvable a.items.toList := by
  obtain ⟨items, high, rfl, hitems⟩ := Node.compile_emits scopes 0 node {} a (by decide) h
  intro n hn
  have hitems' : (#[] ++ items.toArray : Array Item).toList = items := by simp
  rw [hitems'] at hn ⊢
  -- Outside of all loops there is no label to jump to but those emitted.
  have hmem : n ∈ labelsOf items := by
    rcases (hitems.labels n).2 hn with hn | hn | hn
    · exact hn
    · cases hn
    · cases hn
  exact count_eq_one_of_mem hitems.nodup hmem

/-- Labels are resolved.  What is emitted for a node has every label that is
jumped to once, so it can be resolved.  And if a list of items is like that, the
instructions are left in their order, with targets from 0 to their number, and
from its first item on it runs as they do from the first of them: the same
instructions are executed in the same order, with the same results and the same
end. -/
theorem labels_resolved :
    (∀ (scopes : Nat → Scope) (node : Node) (a : Assembler),
      (node.compile scopes).run {} = .ok () a →
        Item.Resolvable a.items.toList ∧ ∃ is, Item.resolve a.items.toList = .ok is) ∧
    ∀ items, Item.Resolvable items → ∃ is, Item.resolve items = .ok is ∧
      List.Forall₂ (fun i j => i.retarget (Item.place items) = .ok j)
        (items.filterMap Item.instr?) is ∧
      (∀ kind target, .jump kind target ∈ is → target ≤ is.length) ∧
      ∀ (forms : Labelling) (m : Machine), forms.form m.current.frame.code.code = some items →
        m.current.pos = 0 → forms.Waits m →
        (forms.unlabelled m).current = { frame := m.current.frame, pos := 0 } ∧
        m.current.frame.code.code = is.toArray ∧
        (∀ n, ∃ k ≤ n, forms.outcome (forms.trace n m) = (forms.unlabelled m).trace k) ∧
        ∀ k, ∃ n, forms.outcome (forms.trace n m) = (forms.unlabelled m).trace k := by
  refine ⟨fun scopes node a h => ?_, fun items h => ?_⟩
  · have hres := Node.resolvable_of_compile h
    obtain ⟨is, his, -⟩ := Item.resolve_spec hres
    exact ⟨hres, is, his⟩
  · obtain ⟨is, his, hall⟩ := Item.resolve_spec h
    have hlength : is.length = Item.extent items := Item.length_of_relocate his
    refine ⟨is, his, hall, fun kind target htarget => hlength ▸ Item.target_le hall htarget,
      fun forms m hform hpos hwaits => ⟨?_, ?_,
        Labelling.exists_unlabelled hwaits, Labelling.exists_labelled hwaits⟩⟩
    · show forms.activation m.current = _
      rw [Labelling.activation, hpos, Labelling.count_zero]
    · have hcode : is = m.current.frame.code.code.toList :=
        Except.ok.inj (his.symm.trans (forms.resolve_eq hform))
      rw [hcode]

/-- A loop that makes one round runs with its labels as without them. -/
theorem labels_resolved_oneRound :
    Item.Resolvable oneRoundItems ∧ ∃ forms : Labelling,
      forms.form beforeRound.current.frame.code.code = some oneRoundItems ∧
      forms.Waits beforeRound ∧
      ∀ k, ∃ n, forms.outcome (forms.trace n beforeRound)
        = (forms.unlabelled beforeRound).trace k := by
  have hres : Item.Resolvable oneRoundItems := by decide
  have hform : (Labelling.single oneRoundItems hres).form beforeRound.current.frame.code.code
      = some oneRoundItems := rfl
  have hwaits : (Labelling.single oneRoundItems hres).Waits beforeRound := fun a ha => by cases ha
  obtain ⟨is, -, -, -, hruns⟩ := labels_resolved.2 oneRoundItems hres
  exact ⟨hres, _, hform, hwaits, (hruns _ _ hform rfl hwaits).2.2.2⟩

end PageScript
