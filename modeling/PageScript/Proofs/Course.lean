/-
Courses of a machine.

`Course P n m m'` says that the machine gets from `m` to `m'` in `n` steps, all of
them made where `P` holds.  Steps have one outcome, so there is one course.  A function
that is called does not notice the activations that wait: every step is the same with
nothing below (`step_above`), but for the last one, which hands over its value.
-/
import PageScript.Code.OfNode
import PageScript.Proofs.Instructions

open EStateM (Result)

namespace PageScript

open EStateM Machine

variable {m m' : Machine} {v : Value} {n : Nat} {caller : Activation}

namespace Machine

/-- The machine makes `n` steps, all of them where `P` holds. -/
inductive Course (P : Machine → Prop) : Nat → Machine → Machine → Prop where
  | stay (m : Machine) : Course P 0 m m
  | next {n : Nat} {m m' m'' : Machine} : P m → step.run m = .ok .running m' →
      Course P n m' m'' → Course P (n + 1) m m''

namespace Course

variable {P Q : Machine → Prop} {n j : Nat} {m m' m'' : Machine}

theorem one (h : P m) (hstep : step.run m = .ok .running m') : Course P 1 m m' :=
  .next h hstep (.stay m')

theorem trans (h : Course P n m m') (h' : Course P j m' m'') : Course P (n + j) m m'' := by
  induction h with
  | stay m => rwa [Nat.zero_add]
  | next hP hstep _ ih =>
    rw [Nat.add_right_comm]
    exact .next hP hstep (ih h')

theorem mono (h : Course P n m m') (hPQ : ∀ m, P m → Q m) : Course Q n m m' := by
  induction h with
  | stay m => exact .stay m
  | next hP hstep _ ih => exact .next (hPQ _ hP) hstep ih

theorem rest (h : Course P n m m') (h' : Course Q (n + j) m m'') : Course Q j m' m'' := by
  induction h with
  | stay m => rwa [Nat.zero_add] at h'
  | @next n m m₁ m' hP hstep _ ih =>
    rw [Nat.add_right_comm] at h'
    cases h' with
    | next hQ hstep' h' =>
      rw [hstep] at hstep'
      cases hstep'
      exact ih h'

theorem holds (h : Course P (j + 1) m m') : P m := by
  cases h with
  | next hP _ _ => exact hP

theorem unique (h : Course P n m m') (h' : Course P j m m'') (hm' : ¬P m') (hm'' : ¬P m'') :
    m' = m'' := by
  -- Whichever course is longer would go on from where the property fails.
  rcases Nat.lt_trichotomy n j with hlt | rfl | hlt
  · obtain ⟨i, rfl⟩ := Nat.exists_eq_add_of_lt hlt
    exact absurd (h.rest h').holds hm'
  · cases h.rest (j := 0) h'
    rfl
  · obtain ⟨i, rfl⟩ := Nat.exists_eq_add_of_lt hlt
    exact absurd (h'.rest h).holds hm''

theorem not_error {fault : Fault} {last : Machine} (h : Course P n m m') (h' : Course P j m m'')
    (hP : P m') (hstep : step.run m' = .error fault last) (hm'' : ¬P m'') : False := by
  rcases Nat.lt_or_ge j n with hlt | hle
  · obtain ⟨i, rfl⟩ := Nat.exists_eq_add_of_lt hlt
    exact hm'' (h'.rest h).holds
  · obtain ⟨i, rfl⟩ := Nat.exists_eq_add_of_le hle
    cases h.rest h' with
    | stay => exact hm'' hP
    | next _ hstep' _ =>
      rw [hstep] at hstep'
      cases hstep'

theorem le_of_error {fault : Fault} {last : Machine} (h : Course P n m m')
    (hstep : step.run m' = .error fault last) (h' : Course P j m m'') : j ≤ n := by
  by_contra hlt
  obtain ⟨i, rfl⟩ := Nat.exists_eq_add_of_lt (Nat.lt_of_not_le hlt)
  cases h.rest (j := i + 1) h' with
  | next _ hstep' _ =>
    rw [hstep] at hstep'
    cases hstep'

end Course

/-! ### Running on top of other activations -/

/-- A machine on top of activations that wait, after some steps were made and
perhaps checks of the stack have failed. -/
def above (waiting : List Activation) (steps : Nat) (fault : Bool) (m : Machine) : Machine :=
  { m with
    callers := m.callers ++ waiting
    steps := steps + m.steps
    stackFault := m.stackFault || fault }

variable {waiting : List Activation} {steps : Nat} {fault : Bool}

end Machine

open Machine

namespace Exec

variable {α : Type}

theorem Local.keeps {a : Exec α} (ha : Local a) (m : Machine) :
    a.run m = mapState (rebase { m.control with stackFault := false }) (a.run m) := by
  have hm : m.rebase { m.control with stackFault := false } = m := by
    obtain ⟨_, _, ⟨⟨code, _, _, _⟩, _⟩, _, _, stackFault⟩ := m
    cases code
    cases stackFault <;> rfl
  have h := ha { m.control with stackFault := false } m
  rwa [hm] at h

theorem Local.commute {a : Exec α} (ha : Local a) {change : Machine → Machine}
    {b : Control} (hm : m.rebase b = change m)
    (hrebase : ∀ m' : Machine, m' = m'.rebase { m.control with stackFault := false } →
      m'.rebase b = change m') :
    a.run (change m) = mapState change (a.run m) := by
  have hkeeps := ha.keeps m
  rw [← hm, ha b m]
  cases hrun : a.run m with
  | ok r m' =>
    rw [hrun] at hkeeps
    injection hkeeps with _ hm'
    show Result.ok r (m'.rebase b) = .ok r (change m')
    rw [hrebase m' hm']
  | error e m' =>
    rw [hrun] at hkeeps
    injection hkeeps with _ hm'
    show Result.error e (m'.rebase b) = .error e (change m')
    rw [hrebase m' hm']

theorem Local.above {a : Exec α} (ha : Local a) (waiting : List Activation) (steps : Nat)
    (fault : Bool) (m : Machine) :
    a.run (m.above waiting steps fault)
      = mapState (above waiting steps fault) (a.run m) := by
  let b : Control := { m.control with
    callers := m.callers ++ waiting, steps := steps + m.steps, stackFault := fault }
  refine ha.commute (b := b) ?_ fun m' h => ?_
  · obtain ⟨_, _, ⟨⟨code, _, _, _⟩, _⟩, _, _, _⟩ := m
    cases code
    rfl
  · rw [h]
    obtain ⟨_, _, ⟨⟨code, _, _, _⟩, _⟩, _, _, stackFault⟩ := m'
    cases code
    cases stackFault <;> rfl

end Exec

namespace Machine

variable {waiting : List Activation} {steps : Nat} {fault : Bool}

theorem leave_unset (h : m.callers ≠ []) : (leave .unset).run m = .error .checkFailed m := by
  obtain ⟨_, _, _, callers, _, _⟩ := m
  cases callers with
  | nil => exact absurd rfl h
  | cons caller rest => rfl

theorem leave_of_callers {rest : List Activation}
    (h : m.callers = caller :: rest) (hv : v ≠ .unset) :
    (leave v).run m = match (Exec.push v).run { m with current := caller, callers := rest } with
      | .ok _ m' => .ok .running { m' with current := { m'.current with pos := caller.pos + 1 } }
      | .error e m' => .error e m' := by
  obtain ⟨_, _, _, callers, _, _⟩ := m
  cases h
  cases v with
  | unset => exact absurd rfl hv
  | _ =>
    simp only [leave, run_bind, run_get, run_set]
    cases (Exec.push _).run _ <;> rfl

theorem leave_resume {rest : List Activation} (h : m.callers = caller :: rest) (hv : v ≠ .unset)
    (hroom : caller.frame.stack.length < caller.frame.capacity) :
    (leave v).run m = .ok .running { m with
      current :=
        { frame := { caller.frame with stack := v :: caller.frame.stack }, pos := caller.pos + 1 }
      callers := rest } := by
  have hpush : caller.frame.push v
      = .ok { caller.frame with stack := v :: caller.frame.stack } := if_pos hroom
  rw [leave_of_callers h hv]
  simp only [Exec.push, run_bind, run_get, hpush]
  rfl

theorem leave_full {rest : List Activation} (h : m.callers = caller :: rest) (hv : v ≠ .unset)
    (hroom : ¬caller.frame.stack.length < caller.frame.capacity) :
    (leave v).run m = .error .checkFailed { m with
      current := caller, callers := rest, stackFault := true } := by
  have hpush : caller.frame.push v = .error .checkFailed := if_neg hroom
  rw [leave_of_callers h hv]
  simp only [Exec.push, run_bind, run_get, hpush]
  rfl

theorem leave_nil (h : m.callers = []) : (leave v).run m = .ok (.done v) m := by
  obtain ⟨_, _, _, callers, _, _⟩ := m
  cases h
  rfl

theorem leave_commute {g : Machine → Machine} (v : Value)
    (hnil : m.callers = [] → (g m).callers = [])
    (hcons : ∀ {a : Activation} {rest : List Activation}, m.callers = a :: rest →
      ∃ (a' : Activation) (rest' : List Activation), (g m).callers = a' :: rest' ∧
        a'.frame.stack.length = a.frame.stack.length ∧ a'.frame.capacity = a.frame.capacity ∧
        { g m with
          current := ⟨{ a'.frame with stack := v :: a'.frame.stack }, a'.pos + 1⟩
          callers := rest' }
          = g { m with
            current := ⟨{ a.frame with stack := v :: a.frame.stack }, a.pos + 1⟩
            callers := rest } ∧
        { g m with current := a', callers := rest', stackFault := true }
          = g { m with current := a, callers := rest, stackFault := true }) :
    (leave v).run (g m) = mapState g ((leave v).run m) := by
  cases h : m.callers with
  | nil =>
    rw [leave_nil h, leave_nil (hnil h)]
    rfl
  | cons a rest =>
    obtain ⟨a', rest', h', hlength, hcapacity, hresumed, hfull⟩ := hcons h
    by_cases hv : v = .unset
    · subst hv
      have hwaits : m.callers ≠ [] := h ▸ List.cons_ne_nil _ _
      have hwaits' : (g m).callers ≠ [] := h' ▸ List.cons_ne_nil _ _
      rw [leave_unset hwaits, leave_unset hwaits']
      rfl
    by_cases hroom : a.frame.stack.length < a.frame.capacity
    · rw [leave_resume h hv hroom, leave_resume h' hv (by rwa [hlength, hcapacity]), hresumed]
      rfl
    · rw [leave_full h hv hroom, leave_full h' hv (by rwa [hlength, hcapacity]), hfull]
      rfl

theorem leave_above (h : m.callers ≠ []) :
    (leave v).run (m.above waiting steps fault)
      = mapState (above waiting steps fault) ((leave v).run m) := by
  refine leave_commute v (absurd · h) fun {a rest} hm => ⟨a, rest ++ waiting, ?_, rfl, rfl, rfl, rfl⟩
  rw [above, hm]
  rfl

/-- What becomes of an outcome on top of other activations: where the program
would be over, its value goes to the activation that waits. -/
def lift (waiting : List Activation) (steps : Nat) (fault : Bool) :
    Result Fault Machine Progress → Result Fault Machine Progress
  | .ok (.done v) m => (leave v).run (m.above waiting steps fault)
  | .ok .running m => .ok .running (m.above waiting steps fault)
  | .error e m => .error e (m.above waiting steps fault)

theorem leave_lift (v : Value) (m : Machine) :
    (leave v).run (m.above waiting steps fault) = lift waiting steps fault ((leave v).run m) := by
  by_cases h : m.callers = []
  · rw [leave_nil h]
    rfl
  · rw [leave_above h]
    -- With callers the program is not over.
    obtain ⟨caller, rest, hm⟩ := List.exists_cons_of_ne_nil h
    by_cases hv : v = .unset
    · subst hv
      rw [leave_unset h]
      rfl
    · rw [leave_of_callers hm hv]
      cases (Exec.push v).run _ <;> rfl

theorem step_above (waiting : List Activation) (steps : Nat) (fault : Bool) (m : Machine) :
    step.run (m.above waiting steps fault) = lift waiting steps fault (step.run m) := by
  cases h : m.next? with
  | none =>
    have habove : (m.above waiting steps fault).next? = none := h
    rw [step_of_none h, step_of_none habove]
    exact leave_lift .unset m.tick
  | some i =>
    have habove : (m.above waiting steps fault).next? = some i := h
    have hexec := i.exec_local.above waiting steps fault m.tick
    rw [step_of_some h, step_of_some habove,
      show (m.above waiting steps fault).tick = m.tick.above waiting steps fault from rfl, hexec]
    cases i.exec.run m.tick with
    | error e m' => rfl
    | ok flow m' =>
      cases flow with
      | next | jump target | enter frame => rfl
      | leave v => exact leave_lift v m'

theorem callers_of_done (h : step.run m = .ok (.done v) m') : m'.callers = [] := by
  have hleave : ∀ {w : Value} {m₁ : Machine}, (leave w).run m₁ = .ok (.done v) m' →
      m'.callers = [] := by
    intro w m₁ h
    by_cases hm₁ : m₁.callers = []
    · rw [leave_nil hm₁] at h
      cases h
      exact hm₁
    · obtain ⟨caller, rest, hcallers⟩ := List.exists_cons_of_ne_nil hm₁
      by_cases hw : w = .unset
      · subst hw
        rw [leave_unset hm₁] at h
        cases h
      · rw [leave_of_callers hcallers hw] at h
        split at h <;> cases h
  cases hi : m.next? with
  | none =>
    rw [step_of_none hi] at h
    exact hleave h
  | some i =>
    rw [step_of_some hi] at h
    split at h
    · rename_i flow m₁ _
      cases flow with
      | next | jump target | enter frame => cases h
      | leave w => exact hleave h
    · cases h

/-! ### What a step can do -/

/-- How a machine goes on that has made the instruction at a position. -/
inductive Goes (pos : Nat) (m : Machine) : Flow Nat → Machine → Prop where
  | next : Goes pos m .next { m with current := { m.current with pos := pos + 1 } }
  | jump {target : Nat} : Goes pos m (.jump target) { m with
      current := { m.current with pos := target } }
  | enter {frame : Frame} : Goes pos m (.enter frame) { m with
      current := { frame := frame }
      callers := m.current :: m.callers }
  | leave {v : Value} {caller : Activation} {rest : List Activation} :
      m.callers = caller :: rest → v ≠ .unset →
      caller.frame.stack.length < caller.frame.capacity →
      Goes pos m (.leave v) { m with
        current :=
          { frame := { caller.frame with stack := v :: caller.frame.stack }
            pos := caller.pos + 1 }
        callers := rest }

theorem leave_goes (pos : Nat)
    (h : (leave v).run m = .ok .running m') : Goes pos m (.leave v) m' := by
  cases hcallers : m.callers with
  | nil =>
    rw [leave_nil hcallers] at h
    cases h
  | cons caller rest =>
    by_cases hv : v = .unset
    · subst hv
      rw [leave_unset (by rw [hcallers]; exact List.cons_ne_nil _ _)] at h
      cases h
    · by_cases hroom : caller.frame.stack.length < caller.frame.capacity
      · rw [leave_resume hcallers hv hroom] at h
        cases h
        exact .leave hcallers hv hroom
      · rw [leave_full hcallers hv hroom] at h
        cases h

theorem step_goes (h : step.run m = .ok .running m') :
    ∃ i flow m₁, m.next? = some i ∧
      i.exec.run m.tick = .ok flow m₁ ∧ Goes m.current.pos m₁ flow m' := by
  cases hi : m.next? with
  | none =>
    rw [step_of_none hi] at h
    cases leave_goes 0 h with
    | leave _ hv _ => exact absurd rfl hv
  | some i =>
    rw [step_of_some hi] at h
    split at h
    case h_2 => cases h
    case h_1 flow m₁ hexec =>
      refine ⟨i, flow, m₁, rfl, hexec, ?_⟩
      cases flow with
      | next =>
        cases h
        exact .next
      | jump target =>
        cases h
        exact .jump
      | enter frame =>
        cases h
        exact .enter
      | leave v => exact leave_goes _ h

theorem keeps_of_exec {L : Type} {i : Instr L Bytecode} {flow : Flow L}
    (h : i.exec.run m = .ok flow m') :
    m'.current.frame.code.code = m.current.frame.code.code ∧
      m'.current.frame.code.stackSize = m.current.frame.code.stackSize ∧
      m'.callers = m.callers := by
  have hkeeps := i.exec_local.keeps m
  rw [h] at hkeeps
  injection hkeeps with _ hm'
  rw [hm']
  exact ⟨rfl, rfl, rfl⟩

theorem pos_of_exec {L : Type} {i : Instr L Bytecode} {flow : Flow L}
    (h : i.exec.run m = .ok flow m') : m'.current.pos = m.current.pos := by
  have hkeeps := i.exec_local.keeps m
  rw [h] at hkeeps
  injection hkeeps with _ hm'
  rw [hm']
  rfl

theorem mainFrame_of_nil (h : m.callers = []) : m.mainFrame = m.current.frame := by
  rw [mainFrame, h]
  rfl

theorem mainFrame_of_cons {a : Activation} {rest : List Activation}
    (h : m.callers = a :: rest) : m.mainFrame = (rest.getLastD a).frame := by
  rw [mainFrame, h, List.getLastD_cons]

/-- The activation of the program. -/
def outermost (m : Machine) : Activation := m.callers.getLastD m.current

theorem outermost_related {R : Activation → Activation → Prop} (hrefl : ∀ a, R a a)
    (hleave : ∀ (a : Activation) s, R a { frame := { a.frame with stack := s }, pos := a.pos + 1 })
    (hexec : ∀ i flow m₁ pos, m.next? = some i →
      i.exec.run m.tick = .ok flow m₁ →
      (pos = m.current.pos ∨ pos = m.current.pos + 1 ∨ flow = .jump pos) →
      R m.current { m₁.current with pos := pos })
    (h : step.run m = .ok .running m') : R m.outermost m'.outermost := by
  obtain ⟨i, flow, m₁, hi, hrun, hgoes⟩ := step_goes h
  have hcallers : m₁.callers = m.callers := (keeps_of_exec hrun).2.2
  have hpos : m₁.current.pos = m.tick.current.pos := pos_of_exec hrun
  unfold outermost
  -- It is the activation that runs, or the last one that waits.
  cases hwaiting : m.callers with
  | nil =>
    rw [hwaiting] at hcallers
    cases hgoes with
    | next =>
      dsimp only
      rw [hcallers]
      exact hexec i _ m₁ _ hi hrun (.inr (.inl rfl))
    | jump =>
      dsimp only
      rw [hcallers]
      exact hexec i _ m₁ _ hi hrun (.inr (.inr rfl))
    | enter =>
      dsimp only
      rw [hcallers]
      exact hexec i _ m₁ _ hi hrun (.inl hpos)
    | leave hleft => cases hcallers.symm.trans hleft
  | cons caller rest =>
    rw [hwaiting] at hcallers
    rw [List.getLastD_cons]
    cases hgoes with
    | next | jump =>
      dsimp only
      rw [hcallers, List.getLastD_cons]
      exact hrefl _
    | enter =>
      dsimp only
      rw [hcallers, List.getLastD_cons, List.getLastD_cons]
      exact hrefl _
    | leave hleft =>
      cases hcallers.symm.trans hleft
      cases rest with
      | nil => exact hleave _ _
      | cons => exact hrefl _

theorem mainFrame_related {R : Frame → Frame → Prop} (hstack : ∀ f s, R f { f with stack := s })
    (hexec : ∀ (i : Instr Nat Bytecode) flow m m', i.exec.run m = .ok flow m' →
      R m.current.frame m'.current.frame) (h :
      step.run m = .ok .running m') : R m.mainFrame m'.mainFrame :=
  outermost_related (R := fun a b => R a.frame b.frame) (fun a => hstack a.frame a.frame.stack)
    (fun a => hstack a.frame) (fun i flow m₁ _ _ hrun _ => hexec i flow m.tick m₁ hrun) h

theorem mainFrame_of_step (h : step.run m = .ok .running m') :
    m'.mainFrame.code.code = m.mainFrame.code.code ∧
      m'.mainFrame.code.stackSize = m.mainFrame.code.stackSize :=
  mainFrame_related (R := fun f g => g.code.code = f.code.code ∧ g.code.stackSize = f.code.stackSize)
    (fun _ _ => ⟨rfl, rfl⟩)
    (fun _ _ _ _ hrun => ⟨(keeps_of_exec hrun).1, (keeps_of_exec hrun).2.1⟩) h

theorem mainFrame_of_course {P : Machine → Prop}
    (h : Course P n m m') : m'.mainFrame.code.code = m.mainFrame.code.code ∧
      m'.mainFrame.code.stackSize = m.mainFrame.code.stackSize := by
  induction h with
  | stay m => exact ⟨rfl, rfl⟩
  | next _ hstep _ ih =>
    obtain ⟨hcode, hsize⟩ := mainFrame_of_step hstep
    exact ⟨ih.1.trans hcode, ih.2.trans hsize⟩

/-- What a run does on top of other activations.  A run that comes to an end
hands its value down with its last step. -/
def Lifted (P : Machine → Prop) (fuel : Nat) (waiting : List Activation) (steps : Nat)
    (fault : Bool) (m : Machine) : Ending × Machine → Prop
  | (.finished v, last) => ∃ n m', Course P n (m.above waiting steps fault) m' ∧ P m' ∧
      last.callers = [] ∧ step.run m' = (leave v).run (last.above waiting steps fault)
  | (.failed f, last) => ∃ n m', Course P n (m.above waiting steps fault) m' ∧ P m' ∧
      step.run m' = .error f (last.above waiting steps fault)
  | (.outOfFuel, _) => ∃ m', Course P fuel (m.above waiting steps fault) m'

theorem run_above {P : Machine → Prop} (hP : ∀ m, P (above waiting steps fault m)) (fuel : Nat)
    (m : Machine) : Lifted P fuel waiting steps fault m (m.run fuel) := by
  induction fuel generalizing m with
  | zero => exact ⟨_, .stay _⟩
  | succ fuel ih =>
    have habove := step_above waiting steps fault m
    unfold run
    cases hstep : step.run m with
    | error f last =>
      rw [hstep] at habove
      exact ⟨0, _, .stay _, hP m, habove⟩
    | ok progress m₁ =>
      rw [hstep] at habove
      cases progress with
      | done v => exact ⟨0, _, .stay _, hP m, callers_of_done hstep, habove⟩
      | running =>
        have ih := ih m₁
        revert ih
        show Lifted P fuel waiting steps fault m₁ (m₁.run fuel) →
          Lifted P (fuel + 1) waiting steps fault m (m₁.run fuel)
        obtain ⟨ending, last⟩ := m₁.run fuel
        cases ending with
        | outOfFuel =>
          rintro ⟨m', hcourse⟩
          exact ⟨m', .next (hP m) habove hcourse⟩
        | finished | failed =>
          rintro ⟨n, m', hcourse, hrest⟩
          exact ⟨n + 1, m', .next (hP m) habove hcourse, hrest⟩

section

variable {P Q : Machine → Prop}

theorem exists_course_zero : (∃ m', Course P 0 m m' ∧ Q m') ↔ Q m := by
  refine ⟨?_, fun h => ⟨m, .stay m, h⟩⟩
  rintro ⟨_, ⟨⟩, h⟩
  exact h

theorem exists_course_succ : (∃ m', Course P (n + 1) m m' ∧ Q m') ↔
    P m ∧ ∃ m₁, step.run m = .ok .running m₁ ∧ ∃ m', Course P n m₁ m' ∧ Q m' := by
  constructor
  · rintro ⟨m', hcourse, h⟩
    cases hcourse with
    | next hm hstep hrest => exact ⟨hm, _, hstep, m', hrest, h⟩
  · rintro ⟨hm, m₁, hstep, m', hrest, h⟩
    exact ⟨m', .next hm hstep hrest, h⟩

/-! What comes after a step, or after some, is found by making them. -/

variable [DecidablePred P] [DecidablePred Q]

instance : Decidable (∃ m', step.run m = .ok .running m' ∧ Q m') :=
  match step.run m with
  | .ok .running m' => decidable_of_iff (Q m') (by simp)
  | .ok (.done _) _ | .error _ _ => isFalse (by simp)

instance decidableExistsCourse :
    (n : Nat) → (m : Machine) → Decidable (∃ m', Course P n m m' ∧ Q m')
  | 0, _ => decidable_of_iff _ exists_course_zero.symm
  | n + 1, _ =>
    have := decidableExistsCourse n
    decidable_of_iff _ exists_course_succ.symm

end

theorem ok_of_launch {world : World} {interpreter : Interpreter} {b : Bytecode}
    (h : launch world interpreter b = .ok m) : ∃ frame slots,
      Frame.new interpreter.superglobals b = .ok frame ∧
      frame = { code := b, capacity := b.stackSize, slots := slots } ∧
      m = { world := world, interpreter := interpreter, current := { frame := frame } } := by
  obtain ⟨frame, hnew, h⟩ := ok_of_bind h
  obtain ⟨slots, -, hframe⟩ := ok_of_bind hnew
  cases hframe
  cases h
  exact ⟨_, slots, hnew, rfl, rfl⟩

theorem mainFrame_of_launch {world : World} {interpreter : Interpreter} {b : Bytecode}
    (h : launch world interpreter b = .ok m) : m.mainFrame.code = b := by
  obtain ⟨_, _, -, rfl, rfl⟩ := ok_of_launch h
  rfl

end Machine

instance decidableExistsOk {ε α : Type} {x : Except ε α} {P : α → Prop} [DecidablePred P] :
    Decidable (∃ a, x = .ok a ∧ P a) :=
  match x with
  | .ok a => decidable_of_iff (P a) (by simp)
  | .error _ => isFalse (by simp)

instance decidableExistsError {ε σ α : Type} {r : EStateM.Result ε σ α} {P : ε → σ → Prop}
    [∀ e s, Decidable (P e s)] : Decidable (∃ e s, r = .error e s ∧ P e s) :=
  match r with
  | .ok .. => isFalse (by simp)
  | .error e s => decidable_of_iff (P e s) (by simp)

/-! Floats and code are compared by choice. -/

noncomputable section

local instance decidableEqFloat : DecidableEq Float := Classical.decEq _

instance : DecidableEq Bytecode := Classical.decEq _

deriving instance DecidableEq for Datum, Value, Instr, Ending

instance : DecidableEq (Instr Nat Bytecode) := inferInstance

end

/-- The script of a tree is accepted, and after `n` steps it stands where `P`
holds of the script, its code and the machine. -/
def Tree.ComesTo (tree : Tree) (world : World) (interpreter : Interpreter) (n : Nat)
    (P : Script → Bytecode → Machine → Prop) : Prop :=
  ∃ s, Script.ofTree tree = .ok s ∧ ∃ b, s.compile "main" = .ok b ∧
    ∃ start, launch world interpreter b = .ok start ∧
    ∃ m, Course (fun _ => True) n start m ∧ P s b m

section

variable {tree : Tree} {world : World} {interpreter : Interpreter}
  {P : Script → Bytecode → Machine → Prop}

instance [∀ s b m, Decidable (P s b m)] : Decidable (tree.ComesTo world interpreter n P) :=
  inferInstanceAs (Decidable (∃ _, _ ∧ ∃ _, _))

theorem Tree.ComesTo.exists_course (h : tree.ComesTo world interpreter n P) :
    ∃ s b start m, Script.ofTree tree = .ok s ∧ s.compile "main" = .ok b ∧
      launch world interpreter b = .ok start ∧ Course (fun _ => True) n start m ∧ P s b m := by
  obtain ⟨s, hread, b, hcompile, start, hlaunch, m, hcourse, hm⟩ := h
  exact ⟨s, b, start, m, hread, hcompile, hlaunch, hcourse, hm⟩

end

end PageScript
