/-
Code does what its node means.

`Does` says that a stretch of code carries an evaluation out: the machine gets to its finish
where the evaluation yields a value, fails with the same fault where it fails, and makes as
many steps as there is fuel while it has not come to an end.  `Does` composes as evaluations
do (`Does.bind`).  The main statement, `compile_meaning`, turns the three cases around.
-/
import PageScript.Proofs.Course
import PageScript.Proofs.Emission
import PageScript.Proofs.Evaluation

open EStateM (Result)

namespace PageScript

open List Exec Instr Eval

variable {pos p : Nat} {S T : Situation} {m : Machine} {i : Instr Nat Bytecode}
  {nodes : List Node} {s : List Value} {k : Control} {table : List (Int × Nat)}

/-- There is room for the operands of a line and for what it puts on the
stack. -/
def Line.Fits (capacity : Nat) (line : Line) : Prop :=
  line.depth ≤ capacity ∧ line.depth + line.instr.leaves ≤ capacity + line.instr.needs

/-- A control with another position and stack, and with other counts. -/
def Control.placed (k : Control) (pos : Nat) (s : List Value) (steps : Nat) (fault : Bool) :
    Control :=
  { k with pos := pos, stack := s, steps := steps, stackFault := fault }

namespace Machine

/-- The machine is at a position of the activation that has these callers. -/
def At (callers : List Activation) (pos : Nat) (m : Machine) : Prop :=
  m.callers = callers ∧ m.current.pos = pos

/-- The machine is in a situation at a position, with these operands, and
otherwise as a control says. -/
def Stands (k : Control) (S : Situation) (pos : Nat) (s : List Value) (m : Machine) : Prop :=
  ∃ steps fault, m = S.under (k.placed pos s steps fault)

theorem Stands.at (h : m.Stands k S pos s) : m.At k.callers pos := by
  obtain ⟨_, _, rfl⟩ := h
  exact ⟨rfl, rfl⟩

theorem Stands.stack (h : m.Stands k S pos s) : m.current.frame.stack = s := by
  obtain ⟨_, _, rfl⟩ := h
  rfl

end Machine

open Machine

/-- From a machine the outcome of an evaluation is reached by steps made where
`P` holds.  An evaluation without an outcome lasts for `b` steps at least. -/
def Carries {α : Type} (P : Machine → Prop) (b : Nat) (m : Machine)
    (Q : α → Situation → Machine → Prop) : Result Halt Situation α → Prop
  | .ok v T => ∃ n m', Course P n m m' ∧ Q v T m'
  | .error (.fault f) T => ∃ n m' last, Course P n m m' ∧ P m' ∧
      step.run m' = .error f last ∧ last.world = T.world ∧ last.interpreter = T.interpreter
  | .error .outOfFuel _ => ∃ n m', b ≤ n ∧ Course P n m m'

/-- The code carries an evaluation out, from a position and a stack to a
position and a stack that depend on the result, without reaching the limit on
the way. -/
def Does {α : Type} (k : Control) (limit b : Nat) (x : Eval α) (start : Nat × List Value)
    (finish : α → Nat × List Value) : Prop :=
  ∀ S m, m.Stands k S start.1 start.2 →
    Carries (fun m => ¬m.At k.callers limit) b m
      (fun v T m' => m'.Stands k T (finish v).1 (finish v).2) (x.run S)

section

variable {α β : Type} {k : Control} {limit b : Nat} {start mid : Nat × List Value}
  {pos : Nat} {s : List Value}

theorem Carries.trans {P : Machine → Prop} {n : Nat} {m' : Machine}
    {Q : α → Situation → Machine → Prop} {r : Result Halt Situation α}
    (hcourse : Course P n m m') (h : Carries P b m' Q r) : Carries P (b + n) m Q r := by
  rcases r with ⟨v, T⟩ | ⟨_ | _, T⟩
  · obtain ⟨j, m'', h, hQ⟩ := h
    exact ⟨n + j, m'', hcourse.trans h, hQ⟩
  · obtain ⟨j, m'', last, h, hrest⟩ := h
    exact ⟨n + j, m'', last, hcourse.trans h, hrest⟩
  · obtain ⟨j, m'', hb, h⟩ := h
    exact ⟨n + j, m'', by omega, hcourse.trans h⟩

theorem Carries.weaken {P : Machine → Prop} {b' : Nat}
    {Q : α → Situation → Machine → Prop} {r : Result Halt Situation α}
    (h : Carries P b' m Q r) (hb : b ≤ b') : Carries P b m Q r := by
  rcases r with ⟨v, T⟩ | ⟨_ | _, T⟩
  · exact h
  · exact h
  · obtain ⟨n, m', hn, hcourse⟩ := h
    exact ⟨n, m', Nat.le_trans hb hn, hcourse⟩

namespace Does

theorem pure {v : α} {finish : α → Nat × List Value} (h : finish v = start) :
    Does k limit b (pure v) start finish := by
  intro S m hm
  refine ⟨0, m, .stay m, ?_⟩
  show m.Stands k S (finish v).1 (finish v).2
  rwa [h]

theorem weaken {b' : Nat} {x : Eval α} {finish : α → Nat × List Value}
    (h : Does k limit b' x start finish) (hb : b ≤ b') : Does k limit b x start finish :=
  fun S m hm => (h S m hm).weaken hb

theorem bind {x : Eval α} {f : α → Eval β} {middle : α → Nat × List Value}
    {finish : β → Nat × List Value} (hx : Does k limit b x start middle)
    (hf : ∀ v, (∃ S T, x.run S = .ok v T) → Does k limit b (f v) (middle v) finish) :
    Does k limit b (x >>= f) start finish := by
  intro S m hm
  have hx := hx S m hm
  rw [EStateM.run_bind]
  revert hx
  rcases hrun : x.run S with ⟨v, T⟩ | ⟨_ | _, T⟩
  · rintro ⟨n, m', hcourse, hm'⟩
    exact (Carries.trans hcourse (hf v ⟨S, T, hrun⟩ T m' hm')).weaken (Nat.le_add_right b n)
  · exact id
  · exact id

theorem of_map {x : Eval α} (w : β) (finish : β → Nat × List Value)
    (h : Does k limit b (x >>= fun _ => Pure.pure w) start finish) :
    Does k limit b x start fun _ => finish w := by
  intro S m hm
  have h := h S m hm
  rw [EStateM.run_bind] at h
  revert h
  rcases x.run S with ⟨v, T⟩ | ⟨_ | _, T⟩ <;> exact id

theorem followed {x : Eval α} {middle finish : α → Nat × List Value}
    (hx : Does k limit b x start middle) (h : ∀ v, Does k limit b (Pure.pure v) (middle v) finish) :
    Does k limit b x start finish := by
  have := hx.bind fun v _ => h v
  rwa [bind_pure] at this

theorem after {x : Eval α} {finish : α → Nat × List Value} (hpos : pos < limit)
    (hstep : ∀ S m, m.Stands k S pos s → ∃ m', step.run m = .ok .running m' ∧
      m'.Stands k S mid.1 mid.2)
    (h : Does k limit b x mid finish) : Does k limit (b + 1) x (pos, s) finish := by
  intro S m hm
  obtain ⟨m', hrun, hm'⟩ := hstep S m hm
  refine Carries.trans (.one ?_ hrun) (h S m' hm')
  rintro ⟨-, hlimit⟩
  obtain ⟨_, _, rfl⟩ := hm
  exact absurd hlimit (Nat.ne_of_lt hpos)

end Does

/-! ### One instruction -/

/-- The line is in the code, and there is room for what it puts on the
stack. -/
def Has (k : Control) (pos : Nat) (line : Line) : Prop :=
  k.code.code[pos]? = some line.instr ∧ line.Fits k.capacity

def Flow.target? (pos : Nat) : Flow Nat → Option Nat
  | .next => some (pos + 1)
  | .jump target => some target
  | _ => none

theorem run_proceed {flow : Flow Nat} {target : Nat} (h : flow.target? pos = some target)
    (S : Situation) (k : Control) :
    (proceed pos flow).run (S.under k) = .ok .running (S.under { k with pos := target }) := by
  cases flow <;> cases h <;> rfl

theorem step_placed (hi : k.code.code[pos]? = some i) (steps : Nat) (fault : Bool) :
    Machine.step.run (S.under (k.placed pos s steps fault))
      = match i.exec.run (S.under (k.placed pos s (steps + 1) fault)) with
        | .ok flow m' => (proceed pos flow).run m'
        | .error e m' => .error e m' :=
  step_of_some hi

theorem not_at_placed (hpos : pos < limit) (steps : Nat) (fault : Bool) :
    ¬(S.under (k.placed pos s steps fault)).At k.callers limit :=
  fun hlimit => absurd hlimit.2 (Nat.ne_of_lt hpos)

theorem Machine.Stands.step
    {s' : List Value} {target : Nat} (flow : Flow Nat) (hm : m.Stands k S pos s)
    (hi : k.code.code[pos]? = some i) (hflow : flow.target? pos = some target)
    (hexec : ∀ k' : Control, k'.stack = s → k'.capacity = k.capacity →
      i.exec.run (S.under k') = .ok flow (T.under { k' with stack := s' })) :
    ∃ m', Machine.step.run m = .ok .running m' ∧ m'.Stands k T target s' := by
  obtain ⟨steps, fault, rfl⟩ := hm
  refine ⟨_, ?_, steps + 1, fault, rfl⟩
  have hexec := hexec (k.placed pos s (steps + 1) fault) rfl rfl
  rw [step_placed hi, hexec]
  exact run_proceed hflow _ _

namespace Does

variable {x : Eval α} {finish : α → Nat × List Value} {depth target : Nat} {mark : Mark}
  {v w : Value}

theorem fork {c : Eval Bool} {yes no : Eval α} {f : Bool → Nat × List Value}
    (hc : Does k limit b c start f) (hyes : Does k limit b yes (f true) finish)
    (hno : Does k limit b no (f false) finish) :
    Does k limit b (c >>= fun holds => if holds then yes else no) start finish := by
  refine hc.bind fun holds _ => ?_
  cases holds
  · exact hno
  · exact hyes

section

variable (hpos : pos < limit)

include hpos

theorem single (hi : k.code.code[pos]? = some i)
    (h : ∀ (S : Situation) (k' : Control), k'.stack = s → k'.capacity = k.capacity →
      match x.run S with
      | .ok v T => ∃ flow : Flow Nat, flow.target? pos = some (finish v).1 ∧
          i.exec.run (S.under k') = .ok flow (T.under { k' with stack := (finish v).2 })
      | .error (.fault f) T => ∃ s', i.exec.run (S.under k')
          = .error f (T.under { k' with stack := s' })
      | .error .outOfFuel _ => False) :
    Does k limit b x (pos, s) finish := by
  rintro S _ ⟨steps, fault, rfl⟩
  have h := h S (k.placed pos s (steps + 1) fault) rfl rfl
  have hP := not_at_placed (S := S) (k := k) (s := s) hpos steps fault
  have hstep := step_placed (S := S) (s := s) hi steps fault
  revert h
  rcases x.run S with ⟨v, T⟩ | ⟨_ | _, T⟩
  · rintro ⟨flow, hflow, hexec⟩
    rw [hexec] at hstep
    refine ⟨1, _, .one hP (hstep.trans (run_proceed hflow _ _)), ?_⟩
    exact ⟨steps + 1, fault, rfl⟩
  · rintro ⟨s', hexec⟩
    rw [hexec] at hstep
    exact ⟨0, _, _, .stay _, hP, hstep, rfl, rfl⟩
  · exact False.elim

theorem operation {o : Operation} (h : Has k pos ⟨i, depth, mark⟩) (ho : i.operation? = some o)
    (vs : List Value) (hvs : vs.length = o.takes) (hdepth : (vs.reverse ++ s).length = depth) :
    Does k limit b (act (o.result vs)) (pos, vs.reverse ++ s) fun v => (pos + 1, v :: s) := by
  refine single hpos h.1 fun S k' hstack hcapacity => ?_
  obtain ⟨-, hfull, hfits⟩ := h
  rw [leaves_of_operation ho, needs_of_operation ho, ← hvs] at hfits
  have hroom : s.length < k'.capacity := by
    rw [length_append, length_reverse] at hdepth
    dsimp only at hfits
    omega
  have hperforms := performs ho S k' vs s hstack hvs (by rwa [hstack, hdepth, hcapacity])
  rw [run_act]
  revert hperforms
  cases (o.result vs).seen S with
  | ok v T =>
    intro hexec
    refine ⟨.next, rfl, ?_⟩
    rw [hexec]
    exact run_deliver_ok hroom
  | error f T => exact id

theorem silent {s' : List Value} (flow : Flow Nat)
    (hi : k.code.code[pos]? = some i) (hflow : flow.target? pos = some target)
    (hexec : ∀ (S : Situation) (k' : Control), k'.stack = s → k'.capacity = k.capacity →
      i.exec.run (S.under k') = .ok flow (S.under { k' with stack := s' }))
    (hx : Does k limit b x (target, s') finish) : Does k limit (b + 1) x (pos, s) finish := by
  refine after hpos ?_ hx
  intro S m hm
  exact hm.step flow hi hflow (hexec S)

theorem discard (h : Has k pos ⟨.discardTop, depth, mark⟩)
    (hx : Does k limit b x (pos + 1, s) finish) : Does k limit b x (pos, v :: s) finish :=
  (silent hpos .next h.1 rfl (fun _ _ hstack _ => exec_discardTop hstack) hx).weaken
    (Nat.le_succ b)

theorem dup (h : Has k pos ⟨.dup, depth, mark⟩) (hdepth : s.length + 1 = depth)
    (hx : Does k limit b x (pos + 1, v :: v :: s) finish) :
    Does k limit b x (pos, v :: s) finish := by
  refine (silent hpos .next h.1 rfl (fun S k' hstack hcapacity => ?_) hx).weaken (Nat.le_succ b)
  have hroom : k'.stack.length < k'.capacity := by
    have hfits : depth + 2 ≤ k.capacity + 1 := h.2.2
    rw [hstack, length_cons]
    omega
  rw [exec_dup hstack, run_deliver_ok hroom, hstack]

theorem jump (h : Has k pos ⟨.jump .always target, depth, mark⟩)
    (hx : Does k limit b x (target, s) finish) : Does k limit (b + 1) x (pos, s) finish := by
  refine silent hpos (.jump target) h.1 rfl (fun S k' hstack _ => ?_) hx
  subst hstack
  exact exec_jump

theorem decides {finish : Bool → Nat × List Value}
    (flow : Bool → Flow Nat) (hi : k.code.code[pos]? = some i)
    (hflow : ∀ c, (flow c).target? pos = some (finish c).1)
    (hexec : ∀ (S : Situation) (k' : Control), k'.stack = s → match v.isTrue with
      | .ok c => i.exec.run (S.under k') = .ok (flow c) (S.under { k' with stack := (finish c).2 })
      | .error e => ∃ s', i.exec.run (S.under k') = .error e (S.under { k' with stack := s' })) :
    Does k limit b (truth v) (pos, s) finish := by
  refine single hpos hi fun S k' hstack _ => ?_
  have hexec := hexec S k' hstack
  revert hexec
  rw [truth, run_act]
  cases v.isTrue with
  | ok c => exact fun hexec => ⟨flow c, hflow c, hexec⟩
  | error e => exact id

theorem onTruth {kind : Jump} {sense keeps : Bool} (hkind : kind.onTruth? = some (sense, keeps))
    (h : Has k pos ⟨.jump kind target, depth, mark⟩) :
    Does k limit b (truth v) (pos, v :: s) fun c =>
      if c = sense then (target, if keeps then v :: s else s) else (pos + 1, s) := by
  refine decides hpos (fun c => if c = sense then .jump target else .next) h.1 (fun c => ?_) ?_
  · split <;> rfl
  · intro S k' hstack
    rw [exec_jump_onTruth hkind hstack, hstack]
    cases v.isTrue with
    | ok c => dsimp only; split <;> rfl
    | error e => exact ⟨_, rfl⟩

theorem ifIteratorEmpty (h : Has k pos ⟨.jump .ifIteratorEmpty target, depth, mark⟩)
    (hdepth : s.length + 2 = depth) :
    Does k limit b (act (fromStore (·.finished w))) (pos, v :: w :: s)
      fun c => if c then (target, v :: s) else (pos + 1, w :: s) := by
  refine single hpos h.1 fun S k' hstack hcapacity => ?_
  have hroom : k'.stack.length ≤ k'.capacity := by
    rw [hstack, hcapacity]
    exact Nat.le_trans (Nat.le_of_eq hdepth) h.2.1
  rw [exec_jump_ifIteratorEmpty hstack hroom, run_act_fromStore]
  rcases S.world.store.finished w with e | (_ | _)
  · exact ⟨w :: s, rfl⟩
  · exact ⟨.next, rfl, rfl⟩
  · exact ⟨.jump target, rfl, rfl⟩

theorem nextIterator (h : Has k pos ⟨.nextIterator, depth, mark⟩) (hdepth : s.length + 1 = depth) :
    Does k limit b (act (fetch w)) (pos, w :: s)
      fun p => (pos + 1, p.2 :: p.1 :: w :: s) := by
  refine single hpos h.1 fun S k' hstack hcapacity => ?_
  have hroom : s.length + 3 ≤ k'.capacity := by
    have hfits : depth + 3 ≤ k.capacity + 1 := h.2.2
    omega
  have hexec := exec_nextIterator (L := Nat) (S := S) hstack hroom
  rw [run_act]
  revert hexec
  cases (fetch w).seen S with
  | ok p T => exact fun hexec => ⟨.next, rfl, hexec⟩
  | error e T => exact id

end

/-! ### Calls -/

variable {fuel : Nat} {args : List Value}

theorem leave_waiting (T : Situation) (k₀ : Control) {last : Machine} (hlast : last.callers = [])
    (hv : v ≠ .unset) (hroom : k₀.stack.length < k₀.capacity) :
    (leave v).run (last.above ((T.under k₀).current :: k₀.callers) k₀.steps k₀.stackFault)
      = .ok .running ((resumed T last).under { k₀ with
          pos := k₀.pos + 1
          stack := v :: k₀.stack
          steps := k₀.steps + last.steps
          stackFault := last.stackFault || k₀.stackFault }) := by
  have hcallers : (last.above ((T.under k₀).current :: k₀.callers) k₀.steps k₀.stackFault).callers
      = (T.under k₀).current :: k₀.callers := by
    rw [above, hlast]
    rfl
  rw [leave_of_callers hcallers hv]
  have hpush := run_push v (resumed T last)
    { k₀ with steps := k₀.steps + last.steps, stackFault := last.stackFault || k₀.stackFault }
  rw [if_pos hroom] at hpush
  have hback : { last.above ((T.under k₀).current :: k₀.callers) k₀.steps k₀.stackFault with
      current := (T.under k₀).current, callers := k₀.callers }
      = (resumed T last).under { k₀ with
          steps := k₀.steps + last.steps, stackFault := last.stackFault || k₀.stackFault } := rfl
  rw [hback, hpush]
  rfl

theorem carries_runFrame (T : Situation) (frame : Frame) (steps : Nat) (fault : Bool)
    (hroom : s.length < k.capacity) :
    Carries (fun m => ¬m.At k.callers limit) fuel
      ((callee T frame).above ((T.under (k.placed pos s steps fault)).current :: k.callers)
        steps fault)
      (fun v U m' => m'.Stands k U (pos + 1) (v :: s)) ((runFrame fuel frame).run T) := by
  have hP : ∀ m, ¬(above ((T.under (k.placed pos s steps fault)).current :: k.callers)
      steps fault m).At k.callers limit := by
    rintro m ⟨hm, -⟩
    -- The waiting activation makes the list of callers longer.
    have hlength := congrArg length hm
    simp only [above, length_append, length_cons] at hlength
    omega
  have hlifted := run_above (P := fun m => ¬m.At k.callers limit) hP fuel (callee T frame)
  show Carries _ _ _ _ (returned T ((callee T frame).run fuel))
  revert hlifted
  rcases (callee T frame).run fuel with ⟨v | f | _, last⟩
  · rintro ⟨n, m', hcourse, hm', hlast, hstep⟩
    by_cases hv : v = .unset
    · subst hv
      rw [leave_unset (by rw [above, hlast]; exact cons_ne_nil _ _)] at hstep
      exact ⟨n, m', _, hcourse, hm', hstep, rfl, rfl⟩
    · rw [returned_finished hv]
      have hleave := leave_waiting T (k.placed pos s steps fault) hlast hv hroom
      exact ⟨n + 1, _, hcourse.trans (.one hm' (hstep.trans hleave)), _, _, rfl⟩
  · rintro ⟨n, m', hcourse, hm', hstep⟩
    exact ⟨n, m', _, hcourse, hm', hstep, rfl, rfl⟩
  · rintro ⟨m', hcourse⟩
    exact ⟨fuel, m', Nat.le_refl fuel, hcourse⟩

section

variable {count : Int} (h : Has k pos ⟨.call count, depth, mark⟩) (hpos : pos < limit)
  (hargs : args.length = count.toNat)

include h hpos hargs

theorem call_native (g : Native) (hroom : s.length < k.capacity) :
    Does k limit b (act (g.call args)) (pos, .native g :: (args.reverse ++ s))
      fun v => (pos + 1, v :: s) := by
  refine single hpos h.1 fun S k' hstack hcapacity => ?_
  have hdelivers := (Quiet.native g args).blind.delivers (L := Nat) S { k' with stack := s }
  rw [exec_call_native hstack hargs, run_act]
  revert hdelivers
  cases (g.call args).seen S with
  | ok v T =>
    intro hexec
    refine ⟨.next, rfl, ?_⟩
    rw [hexec]
    exact run_deliver_ok (hcapacity ▸ hroom)
  | error f T => exact id

theorem call_uncallable (hnative : ∀ g, v ≠ .native g) (hcode : ∀ id, v ≠ .code id) :
    Does k limit b (throw (.fault v.uncallable)) (pos, v :: (args.reverse ++ s)) finish := by
  refine single hpos h.1 fun S k' hstack _ => ?_
  exact exec_call_uncallable hstack hargs hnative hcode

theorem call_code (id : Nat) (hroom : s.length < k.capacity) :
    Does k limit fuel (invoke fuel (.code id) args) (pos, .code id :: (args.reverse ++ s))
      fun v => (pos + 1, v :: s) := by
  rintro S _ ⟨steps, fault, rfl⟩
  have hP := not_at_placed (S := S) (k := k) (s := .code id :: (args.reverse ++ s)) hpos steps fault
  have hstep := step_placed (S := S) (s := .code id :: (args.reverse ++ s)) h.1 steps fault
  rw [exec_call_code rfl hargs] at hstep
  show Carries _ _ _ _ ((act (enterFunction (S.world.store.code id) args)
    >>= fun frame => runFrame fuel frame).run S)
  rw [EStateM.run_bind, run_act]
  revert hstep
  cases (enterFunction (S.world.store.code id) args).seen S with
  | error f T => exact fun hstep => ⟨0, _, _, .stay _, hP, hstep, rfl, rfl⟩
  | ok frame T =>
    intro hstep
    exact (Carries.trans (.one hP hstep) (carries_runFrame T frame (steps + 1) fault hroom)).weaken
      (Nat.le_succ fuel)

end

theorem call {count : Int} (h : Has k pos ⟨.call count, depth, mark⟩) (hpos : pos < limit)
    (hargs : args.length = count.toNat) (hdepth : s.length + args.length + 1 = depth) :
    Does k limit fuel (invoke fuel v args) (pos, v :: (args.reverse ++ s))
      fun v => (pos + 1, v :: s) := by
  have hroom : s.length < k.capacity := by
    have hfits : depth + 1 ≤ k.capacity + (count.toNat + 1) := h.2.2
    omega
  cases v with
  | native g => exact call_native h hpos hargs g hroom
  | code id => exact call_code h hpos hargs id hroom
  | _ => exact call_uncallable h hpos hargs (by rintro _ ⟨⟩) (by rintro _ ⟨⟩)

end Does

/-! ### Stretches of code -/

/-- The lines are in the code from a position on, and there is room for
them. -/
def Hosts (k : Control) (pos : Nat) (lines : List Line) : Prop :=
  Laid k.code.code pos lines ∧ ∀ line ∈ lines, line.Fits k.capacity

@[simp] theorem hosts_cons {line : Line} {lines : List Line} :
    Hosts k pos (line :: lines) ↔ Has k pos line ∧ Hosts k (pos + 1) lines := by
  simp only [Hosts, Has, laid_cons, forall_mem_cons]
  tauto

@[simp] theorem hosts_append {xs ys : List Line} :
    Hosts k pos (xs ++ ys) ↔ Hosts k pos xs ∧ Hosts k (pos + xs.length) ys := by
  simp only [Hosts, laid_append, forall_mem_append]
  tauto

theorem Has.move {line : Line} (h : Has k p line) (hp : p = pos) : Has k pos line :=
  hp ▸ h

theorem Hosts.move {lines : List Line} (h : Hosts k p lines) (hp : p = pos) : Hosts k pos lines :=
  hp ▸ h

end

namespace Node

open Eval

variable {scopes : Nat → Scope} {k : Control} {limit fuel : Nat}

-- Its equations, once for all the proofs below.
attribute [local simp] eval

/-- The code of a node carries its evaluation out, wherever it is. -/
def Simulates (scopes : Nat → Scope) (k : Control) (limit fuel : Nat) (node : Node) : Prop :=
  ∀ {pos : Nat} {s : List Value} {x : Exits}, Hosts k pos (layout scopes pos s.length x node) →
    pos + width node ≤ limit →
    Does k limit fuel (node.eval fuel) (pos, s) fun v => (pos + width node, v :: s)

theorem length_of_evalAll {vs : List Value}
    (h : (evalAll fuel nodes).run S = .ok vs T) : vs.length = nodes.length := by
  induction nodes generalizing S vs with
  | nil =>
    cases h
    rfl
  | cons node nodes ih =>
    obtain ⟨v, S₁, -, h⟩ := ok_of_run_bind h
    obtain ⟨ws, S₂, hws, h⟩ := ok_of_run_bind h
    cases h
    rw [length_cons, length_cons, ih hws]

theorem evalArguments_cons (node : Node) (nodes : List Node) :
    evalArguments fuel (node :: nodes) = (match node with
      | .variable _ slot => act (getReference slot)
      | node => eval fuel node) >>= fun v =>
        evalArguments fuel nodes >>= fun vs => pure (v :: vs) := by
  cases node <;> rfl

theorem length_of_evalArguments {vs : List Value}
    (h : (evalArguments fuel nodes).run S = .ok vs T) : vs.length = nodes.length := by
  induction nodes generalizing S vs with
  | nil =>
    cases h
    rfl
  | cons node nodes ih =>
    rw [evalArguments_cons] at h
    obtain ⟨v, S₁, -, h⟩ := ok_of_run_bind h
    obtain ⟨ws, S₂, hws, h⟩ := ok_of_run_bind h
    cases h
    rw [length_cons, length_cons, ih hws]

theorem does_evalAll (ih : ∀ n ∈ nodes, Simulates scopes k limit fuel n) {x : Exits}
    (h : Hosts k pos (layoutAll scopes pos s.length 1 x nodes)) (hlimit : pos + widthAll nodes ≤ limit) :
    Does k limit fuel (evalAll fuel nodes) (pos, s)
      fun vs => (pos + widthAll nodes, vs.reverse ++ s) := by
  induction nodes generalizing pos s with
  | nil => exact .pure rfl
  | cons node nodes ihs =>
    simp only [layoutAll, hosts_append, length_layout] at h
    simp only [widthAll] at hlimit ⊢
    refine .bind (ih node mem_cons_self h.1 (by omega)) fun v _ => ?_
    refine .bind (ihs (fun n hn => ih n (mem_cons_of_mem _ hn)) (s := v :: s) h.2 (by omega))
      fun vs _ => .pure ?_
    simp [Nat.add_assoc]

section

variable {node base : Node} {pos depth b : Nat} {s : List Value} {x : Exits} {mark : Mark}
  {v key : Value}

theorem does_loadNull (h : Has k pos ⟨.loadNull, s.length, mark⟩) (hpos : pos < limit) :
    Does k limit b (pure .null) (pos, s) fun v => (pos + 1, v :: s) :=
  .operation hpos h rfl [] rfl rfl

theorem does_afterNull {α : Type} {y : Eval α} {finish : α → Nat × List Value}
    (h : Has k pos ⟨.loadNull, s.length, mark⟩) (hpos : pos < limit)
    (hy : Does k limit b y (pos + 1, .null :: s) finish) : Does k limit b y (pos, s) finish := by
  refine .bind (f := fun _ => y) (does_loadNull h hpos) fun v hv => ?_
  obtain ⟨_, _, hv⟩ := hv
  cases hv
  exact hy

theorem does_argument (ih : Simulates scopes k limit fuel node)
    (h : Hosts k pos (argumentLines node (layout scopes pos s.length x node) s.length))
    (hlimit : pos + width node ≤ limit) :
    Does k limit fuel (match node with
      | .variable _ slot => act (getReference slot)
      | node => eval fuel node) (pos, s) fun v => (pos + width node, v :: s) := by
  cases node with
  | «variable» name slot => exact .operation hlimit (hosts_cons.1 h).1 rfl [] rfl rfl
  | _ => exact ih (x := x) h hlimit

theorem does_evalArguments (ih : ∀ n ∈ nodes, Simulates scopes k limit fuel n)
    (h : Hosts k pos (layoutArguments scopes pos s.length x nodes))
    (hlimit : pos + widthAll nodes ≤ limit) :
    Does k limit fuel (evalArguments fuel nodes) (pos, s)
      fun vs => (pos + widthAll nodes, vs.reverse ++ s) := by
  induction nodes generalizing pos s with
  | nil => exact .pure rfl
  | cons node nodes ihs =>
    simp only [layoutArguments, hosts_append,
      length_argumentLines node _ _ (length_layout _ _ _ _ node)] at h
    simp only [widthAll] at hlimit ⊢
    rw [evalArguments_cons]
    refine .bind (does_argument (ih node mem_cons_self) h.1 (by omega)) fun v _ => ?_
    refine .bind (ihs (fun n hn => ih n (mem_cons_of_mem _ hn)) (s := v :: s) h.2 (by omega))
      fun vs _ => .pure ?_
    simp [Nat.add_assoc]

theorem does_evalBlock (ih : ∀ n ∈ nodes, Simulates scopes k limit fuel n)
    (h : Hosts k pos (layoutBlock scopes pos s.length x nodes))
    (hlimit : pos + widthBlock nodes ≤ limit) :
    Does k limit fuel (evalBlock fuel nodes) (pos, s)
      fun v => (pos + widthBlock nodes, v :: s) := by
  induction nodes generalizing pos with
  | nil => exact does_loadNull (hosts_cons.1 h).1 hlimit
  | cons node nodes ihs =>
    cases nodes with
    | nil => exact ih node mem_cons_self h hlimit
    | cons next nodes =>
      simp only [layoutBlock, hosts_append, hosts_cons, length_layout] at h
      simp only [widthBlock, ← Nat.add_assoc] at hlimit ⊢
      obtain ⟨hnode, hdiscard, hrest⟩ := h
      rw [evalBlock]
      · refine .bind (ih node mem_cons_self hnode (by omega)) fun v _ => ?_
        refine .discard (by omega) hdiscard ?_
        exact ihs (fun n hn => ih n (mem_cons_of_mem _ hn)) hrest (by omega)
      · exact cons_ne_nil _ _

theorem does_member (ih : Simulates scopes k limit fuel base)
    (h : Hosts k pos (memberLines base (layout scopes pos (s.length + 1) x base) (s.length + 1)))
    (hlimit : pos + width base + (!base.isVariable).toNat ≤ limit) :
    Does k limit fuel (eval fuel base >>= fun array =>
      act (fromStore (·.getMember array key))) (pos, key :: s)
      fun v => (pos + width base + (!base.isVariable).toNat, v :: s) := by
  cases base with
  | «variable» name slot =>
    have hblind := (Quiet.requireVariable slot name).blind
    rw [eval, ← act_bind hblind]
    exact .operation hlimit (hosts_cons.1 h).1 rfl [key] rfl rfl
  | _ =>
    simp only [memberLines, hosts_append, hosts_cons, length_layout] at h
    refine .bind (ih (s := key :: s) h.1 (Nat.le_of_lt hlimit)) fun array _ => ?_
    exact .operation hlimit h.2.1 rfl [key, array] rfl rfl

theorem does_storeElement (ih : Simulates scopes k limit fuel base)
    (h : Hosts k pos (storeLines base (layout scopes pos (s.length + 2) x base) (s.length + 2)))
    (hlimit : pos + width base + (!base.isVariable).toNat ≤ limit) :
    Does k limit fuel (storeElement base (eval fuel base) key v) (pos, key :: v :: s)
      fun w => (pos + width base + (!base.isVariable).toNat, w :: s) := by
  cases base with
  | «variable» name slot =>
    have hstore : storeElement (.variable name slot) (eval fuel (.variable name slot)) key v
        = act (do
          let array ← requireVariable slot name
          let array ← onStore (·.putMember array key v)
          storeVariable slot array
          return array) := by
      rw [act_bind (Quiet.requireVariable slot name).blind]
      refine bind_congr fun array => ?_
      rw [act_bind (Quiet.onStore fun _ _ _ => Store.putMember_codes).blind]
      refine bind_congr fun array => ?_
      rw [act_bind (Quiet.storeVariable slot array).blind]
      rfl
    rw [hstore]
    exact .operation hlimit (hosts_cons.1 h).1 rfl [v, key] rfl rfl
  | _ =>
    simp only [storeLines, hosts_append, hosts_cons, length_layout] at h
    refine .bind (ih (s := key :: v :: s) h.1 (Nat.le_of_lt hlimit)) fun array _ => ?_
    exact .operation hlimit h.2.1 rfl [v, key, array] rfl rfl

theorem does_assign {slot : Int} {name : String}
    (h : Has k pos ⟨.assign slot name, s.length + 1, mark⟩) (hpos : pos < limit) :
    Does k limit b (act (storeVariable slot v)) (pos, v :: s) fun _ => (pos + 1, v :: s) := by
  have hoperation : Does k limit b (act (storeVariable slot v >>= fun _ => pure v))
      (pos, v :: s) fun w => (pos + 1, w :: s) := .operation hpos h rfl [v] rfl rfl
  rw [act_bind (Quiet.storeVariable slot v).blind] at hoperation
  exact .of_map v (fun w => (pos + 1, w :: s)) hoperation

theorem does_print (h : Has k pos ⟨.print, s.length + 1, mark⟩) (hpos : pos < limit) :
    Does k limit b (act (textOf v >>= output)) (pos, v :: s)
      fun _ => (pos + 1, v :: s) := by
  have hblind : Blind (textOf v >>= output) :=
    (Quiet.bind (.textOf v) fun _ => .output _).blind
  have hoperation : Does k limit b (act (textOf v >>= fun text =>
      output text >>= fun _ => pure v)) (pos, v :: s) fun w => (pos + 1, w :: s) :=
    .operation hpos h rfl [v] rfl rfl
  rw [← bind_assoc, act_bind hblind] at hoperation
  exact .of_map v (fun w => (pos + 1, w :: s)) hoperation

theorem does_target {target : Node} (htarget : target.isVariable)
    (h : Hosts k pos (targetLines target (s.length + 1))) (hlimit : pos + 2 ≤ limit) :
    Does k limit b (bindTarget target v) (pos, v :: s) fun _ => (pos + 2, s) := by
  cases target with
  | «variable» name slot =>
    simp only [targetLines, hosts_cons] at h
    exact (does_assign h.1 (by omega)).followed fun _ => .discard (by omega) h.2.1 (.pure rfl)
  | _ => cases htarget

theorem does_key {key : Node} (hkey : key.isAbsent ∨ key.isVariable)
    (h : Hosts k pos (keyLines key (s.length + 1))) (hlimit : pos + keyWidth key ≤ limit) :
    Does k limit b (bindTarget key v) (pos, v :: s) fun _ => (pos + keyWidth key, s) := by
  cases key with
  | absent => exact .discard hlimit (hosts_cons.1 h).1 (.pure rfl)
  | «variable» name slot => exact does_target rfl h hlimit
  | _ => simp [isAbsent, isVariable] at hkey

theorem does_rounds {round : Value → Eval (Option Value)} {f : Value → List Value}
    {start back finish : Nat} (hback : Has k back ⟨.jump .always start, depth, mark⟩)
    (hlimit : back < limit) (hround : ∀ last, Does k limit fuel (round last) (start, f last) fun
      | some v => (back, f v)
      | none => (finish, last :: s)) (n : Nat) (hn : n ≤ fuel) (last : Value) :
    Does k limit n (rounds round n last) (start, f last) fun v => (finish, v :: s) := by
  induction n generalizing last with
  | zero => exact fun _ m _ => ⟨0, m, Nat.le_refl 0, .stay m⟩
  | succ n ih =>
    refine .bind ((hround last).weaken hn) fun answer _ => ?_
    cases answer with
    | some v => exact .jump hlimit hback (ih (by omega) v)
    | none => exact .pure rfl

/-! ### Assignments -/

variable {right index : Node} {operator : String} {old : Value} {post : Bool}

/-- The right side of an assignment suits its sign. -/
def Suits (scopes : Nat → Scope) (k : Control) (limit fuel : Nat) (operator : String)
    (right : Node) : Prop :=
  (operator ∈ stepSigns ∧ right = .empty) ∨
    (operator ∈ assignmentSigns ∧ right.operands = 1 ∧ Simulates scopes k limit fuel right)

theorem Suits.simulates (h : Suits scopes k limit fuel "=" right) :
    Simulates scopes k limit fuel right := by
  rcases h with ⟨h, -⟩ | ⟨-, -, h⟩
  · simp [stepSigns] at h
  · exact h

theorem does_update (hright : Suits scopes k limit fuel operator right) (hsign : operator ≠ "=")
    (h : Hosts k pos (layout scopes pos (s.length + 1) x right))
    (hoperation : Has k (pos + width right)
      (operationLine operator (s.length + 1 + right.operands)))
    (hlimit : pos + width right + 1 ≤ limit) :
    Does k limit fuel (update operator old (eval fuel right)) (pos, old :: s)
      fun v => (pos + width right + 1, v :: s) := by
  rcases hright with ⟨hstep, rfl⟩ | ⟨hassign, hone, ih⟩
  · simp only [stepSigns, mem_cons, not_mem_nil, or_false] at hstep
    rcases hstep with rfl | rfl <;> exact .operation hlimit hoperation rfl [old] rfl rfl
  · rw [hone] at hoperation
    simp only [assignmentSigns, mem_cons, not_mem_nil, or_false] at hassign
    rcases hassign with rfl | rfl | rfl | rfl
    · exact absurd rfl hsign
    all_goals
      refine .bind (ih (s := old :: s) h (by omega)) fun v _ => ?_
      exact .operation hlimit hoperation rfl [old, v] rfl rfl

theorem length_kept (post : Bool) (old : Value) (n : Nat) :
    (replicate post.toNat old ++ s).length + n = s.length + n + post.toNat := by
  rw [length_append, length_replicate]
  omega

theorem does_dupIf {α : Type} {y : Eval α} {finish : α → Nat × List Value}
    (h : Hosts k pos (lineIf post .dup (s.length + 1))) (hlimit : pos + post.toNat ≤ limit)
    (hy : Does k limit b y (pos + post.toNat, old :: (replicate post.toNat old ++ s)) finish) :
    Does k limit b y (pos, old :: s) finish := by
  cases post with
  | false => exact hy
  | true => exact .dup hlimit (hosts_cons.1 h).1 rfl hy

theorem does_discardIf {finish : Nat} (h : Hosts k pos (lineIf post .discardTop (s.length + 2)))
    (hlimit : finish ≤ limit) (hfinish : pos + post.toNat = finish) :
    Does k limit b (pure (if post then old else v)) (pos, v :: (replicate post.toNat old ++ s))
      fun w => (finish, w :: s) := by
  subst hfinish
  cases post with
  | false => exact .pure rfl
  | true => exact .discard hlimit (hosts_cons.1 h).1 (.pure rfl)

theorem simulates_assignment {name : String} {slot : Int}
    (hright : Suits scopes k limit fuel operator right) (hpost : operator = "=" → post = false) :
    Simulates scopes k limit fuel (.assignment name slot right operator post) := by
  intro pos s x h hlimit
  simp only [layout, hosts_append, hosts_cons] at h
  simp only [width] at hlimit ⊢
  rw [eval]
  by_cases hsign : operator = "="
  · subst hsign
    obtain rfl := hpost rfl
    simp only [↓reduceIte, length_layout] at h hlimit ⊢
    obtain ⟨hvalue, hassign, -⟩ := h
    refine .bind (hright.simulates hvalue (by omega)) fun v _ => ?_
    exact .bind (does_assign hassign (by omega)) fun _ _ => .pure rfl
  · simp only [if_neg hsign, cons_append, hosts_append, hosts_cons, length_cons, length_append,
      length_nil, length_lineIf, length_layout] at h hlimit ⊢
    obtain ⟨⟨hload, ⟨hdup, hlines⟩, hoperation, -⟩, hassign, hdiscard⟩ := h
    refine .bind (.operation (by omega) hload rfl [] rfl rfl) fun old _ => ?_
    refine does_dupIf hdup (by omega) ?_
    rw [← length_kept post old] at hlines hoperation hassign
    refine .bind (does_update hright hsign hlines (hoperation.move (by omega)) (by omega))
      fun v _ => ?_
    refine .bind (does_assign (hassign.move (by omega)) (by omega)) fun _ _ => ?_
    exact does_discardIf (hdiscard.move (by omega)) (by omega) (by omega)

theorem simulates_memberAssignment (hright : Suits scopes k limit fuel operator right)
    (hpost : operator = "=" → post = false) (ihi : Simulates scopes k limit fuel index)
    (ihb : Simulates scopes k limit fuel base) :
    Simulates scopes k limit fuel (.memberAssignment base index right operator post) := by
  intro pos s x h hlimit
  simp only [layout, hosts_append] at h
  simp only [width] at hlimit ⊢
  rw [eval]
  by_cases hsign : operator = "="
  · subst hsign
    obtain rfl := hpost rfl
    simp only [↓reduceIte, length_append, length_layout, ← Nat.add_assoc] at h hlimit ⊢
    obtain ⟨⟨⟨hvalue, hkey⟩, hstore⟩, -⟩ := h
    refine .bind (hright.simulates hvalue (by omega)) fun v _ => ?_
    refine .bind (ihi (s := v :: s) hkey (by omega)) fun key _ => ?_
    refine (does_storeElement ihb hstore (by omega)).followed fun _ => .pure ?_
    simp
  · simp only [if_neg hsign, hosts_append, hosts_cons, length_append, length_cons,
      length_nil, length_lineIf, length_layout, Nat.zero_add,
      length_memberLines base _ _ (length_layout _ _ _ _ base),
      length_storeLines base _ _ (length_layout _ _ _ _ base), ← Nat.add_assoc] at h hlimit ⊢
    obtain ⟨⟨⟨⟨⟨⟨⟨hkey, hmember⟩, hdup⟩, hlines⟩, hoperation, -⟩, hkey'⟩, hstore⟩, hdiscard⟩ := h
    refine .bind (ihi hkey (by omega)) fun key _ => ?_
    rw [← bind_assoc]
    refine .bind (does_member ihb hmember (by omega)) fun old _ => ?_
    refine does_dupIf hdup (by omega) ?_
    rw [← length_kept post old] at hlines hoperation hkey' hstore
    refine .bind (does_update hright hsign hlines hoperation (by omega)) fun v _ => ?_
    refine .bind (ihi (s := v :: _) hkey' (by omega)) fun key _ => ?_
    refine .bind (does_storeElement ihb hstore (by omega)) fun array _ => ?_
    exact does_discardIf (hdiscard.move (by omega)) (by omega) (by omega)

end

/-! ### Branches and loops -/

section

variable {condition thenBranch elseBranch setup change body subject key value : Node}

theorem does_orNull {node : Node} {x : Exits}
    (hnode : node = .absent ∨ Simulates scopes k limit fuel node)
    (h : Hosts k pos (orNullLines node (layout scopes pos s.length x node) s.length))
    (hlimit : pos + width node + node.isAbsent.toNat ≤ limit) :
    Does k limit fuel (match node with
      | .absent => pure .null
      | node => eval fuel node) (pos, s)
      fun v => (pos + width node + node.isAbsent.toNat, v :: s) := by
  cases node with
  | absent => exact does_loadNull (hosts_cons.1 h).1 hlimit
  | _ =>
    rcases hnode with hnode | ih
    · cases hnode
    · exact ih (x := x) h hlimit

theorem eval_ifElse (fuel : Nat) (condition thenBranch elseBranch : Node) :
    eval fuel (.ifElse condition thenBranch elseBranch) = (do
      if ← truth (← eval fuel condition) then eval fuel thenBranch
      else match elseBranch with
        | .absent => pure .null
        | node => eval fuel node) := by
  cases elseBranch <;> rfl

theorem simulates_ifElse (ihc : Simulates scopes k limit fuel condition)
    (iht : Simulates scopes k limit fuel thenBranch)
    (he : elseBranch = .absent ∨ Simulates scopes k limit fuel elseBranch) :
    Simulates scopes k limit fuel (.ifElse condition thenBranch elseBranch) := by
  intro pos s x h hlimit
  simp only [layout, hosts_append, hosts_cons, length_append, length_cons,
    length_layout, ← Nat.add_assoc] at h
  simp only [width, ← Nat.add_assoc] at hlimit ⊢
  obtain ⟨⟨hc, hjump, ht⟩, hend, helse⟩ := h
  rw [Nat.add_right_comm _ (width thenBranch)] at hend helse
  rw [eval_ifElse]
  refine .bind (ihc hc (by omega)) fun v _ => .fork (.onTruth (by omega) rfl hjump) ?_ ?_
  · refine Does.followed (iht ht (by omega)) fun v => ?_
    exact (Does.jump (by omega) hend (.pure rfl)).weaken (Nat.le_succ fuel)
  · exact does_orNull he helse hlimit

theorem simulates_whileLoop (ihc : Simulates scopes k limit fuel condition)
    (ihb : Simulates scopes k limit fuel body) :
    Simulates scopes k limit fuel (.whileLoop condition body) := by
  intro pos s x h hlimit
  simp only [layout, whileAt, hosts_append, hosts_cons, length_append, length_cons,
    cons_append, length_layout, ← Nat.add_assoc] at h
  simp only [width, ← Nat.add_assoc] at hlimit ⊢
  obtain ⟨hnull, ⟨hc, hjump, hb⟩, hdiscard, hback, -⟩ := h
  rw [eval]
  refine does_afterNull hnull (by omega) ?_
  -- The null below the value of the condition stays there in all rounds.
  refine does_rounds (f := (· :: s)) hback (by omega) (fun last => ?_) fuel (Nat.le_refl fuel) _
  refine .bind (ihc (s := last :: s) hc (by omega)) fun v _ => ?_
  refine .fork (.onTruth (by omega) rfl hjump) ?_ (.pure rfl)
  refine .bind (ihb (s := last :: s) hb (by omega)) fun w _ => ?_
  refine .discard (by omega) (hdiscard.move (by omega)) (.pure ?_)
  simp only [Prod.mk.injEq, and_true]
  omega

theorem simulates_forLoop (ihs : Simulates scopes k limit fuel setup)
    (ihc : Simulates scopes k limit fuel condition) (ihu : Simulates scopes k limit fuel change)
    (ihb : Simulates scopes k limit fuel body) :
    Simulates scopes k limit fuel (.forLoop setup condition change body) := by
  intro pos s x h hlimit
  simp only [layout, forAt, hosts_append, hosts_cons, length_append, length_cons,
    length_layout, ← Nat.add_assoc] at h
  simp only [width, ← Nat.add_assoc] at hlimit ⊢
  obtain ⟨⟨⟨⟨hs, hfirst, hnull, hc⟩, hjump, hdrop, hb⟩, hu⟩, hdiscard, hback, -⟩ := h
  rw [eval]
  refine .bind (ihs hs (by omega)) fun _ _ => .discard (by omega) hfirst ?_
  refine does_afterNull hnull (by omega) ?_
  -- Each round takes the value of the one before off the stack.
  refine does_rounds (f := (· :: s)) hback (by omega) (fun last => ?_) fuel (Nat.le_refl fuel) _
  refine .bind (ihc (s := last :: s) hc (by omega)) fun v _ => ?_
  refine .fork (.onTruth (by omega) rfl (hjump.move (by omega))) ?_ (.pure rfl)
  refine .discard (by omega) (hdrop.move (by omega)) ?_
  refine .bind (ihb (hb.move (by omega)) (by omega)) fun w _ => ?_
  rw [show pos + width setup + 2 + width condition + 2 + width body
    = pos + width setup + width condition + width body + 4 by omega]
  refine .bind (ihu (s := w :: s) (hu.move (by omega)) (by omega)) fun _ _ => ?_
  refine .discard (by omega) (hdiscard.move (by omega)) (.pure ?_)
  simp only [Prod.mk.injEq, and_true]
  omega

theorem simulates_foreachLoop (ihs : Simulates scopes k limit fuel subject)
    (hkey : key.isAbsent ∨ key.isVariable) (hvalue : value.isVariable)
    (ihb : Simulates scopes k limit fuel body) :
    Simulates scopes k limit fuel (.foreachLoop subject key value body) := by
  intro pos s x h hlimit
  simp only [layout, foreachAt, hosts_append, hosts_cons, length_append, length_cons,
    length_layout, length_keyLines, length_targetLines, ← Nat.add_assoc] at h
  simp only [width, ← Nat.add_assoc] at hlimit ⊢
  obtain ⟨⟨⟨⟨hs, hiterate, hnull, hjump, hnext, hk⟩, hv⟩, hb⟩, hback, -⟩ := h
  rw [eval]
  refine .bind (ihs hs (by omega)) fun array _ => ?_
  refine .bind (.operation (by omega) hiterate rfl [array] rfl rfl) fun iteration _ => ?_
  refine does_afterNull (s := iteration :: s) hnull (by omega) ?_
  -- The iteration stays below the value of the round before.
  refine does_rounds (f := (· :: iteration :: s)) hback (by omega) (fun last => ?_) fuel
    (Nat.le_refl fuel) _
  refine .fork (.ifIteratorEmpty (by omega) hjump rfl) (.pure rfl) ?_
  refine .bind (.nextIterator (by omega) hnext rfl) fun p _ => ?_
  obtain ⟨element, word⟩ := p
  refine .bind (does_key (s := element :: iteration :: s) hkey hk (by omega)) fun _ _ => ?_
  refine .bind (does_target (s := iteration :: s) hvalue (hv.move (by omega)) (by omega))
    fun _ _ => ?_
  rw [show pos + width subject + 2 + 1 + 1 + keyWidth key + 2
    = pos + width subject + 2 + keyWidth key + 4 by omega]
  refine .bind (ihb (s := iteration :: s) (hb.move (by omega)) (by omega)) fun w _ => .pure ?_
  simp only [Prod.mk.injEq, and_true]
  omega

end

/-! ### All nodes -/

/-- The code of a tidy node that cannot be left carries its evaluation out. -/
theorem Tidy.simulates {p : Place} {node : Node} (h : Tidy {} p node) :
    Simulates scopes k limit fuel node := by
  induction h with
  | exprStatement _ ih => exact ih
  | @call p callee nodes hnodes hcallee ihs ih =>
    intro pos s x h hlimit
    simp only [layout, hosts_append, hosts_cons, length_append, length_layout, width,
      ← Nat.add_assoc] at h
    simp only [width, ← Nat.add_assoc] at hlimit ⊢
    obtain ⟨⟨hargs, hf⟩, hcall, -⟩ := h
    rw [length_layoutArguments] at hf hcall
    rw [eval]
    refine .bind (does_evalArguments ihs hargs (by omega)) fun args hrun => ?_
    obtain ⟨S, T, hrun⟩ := hrun
    have hlength := length_of_evalArguments hrun
    refine .bind (ih (s := args.reverse ++ s) (x := x) ?_ (by omega)) fun f _ => ?_
    · simpa [count, nodes?, hlength, Nat.add_comm] using hf
    · exact .call hcall (by omega) hlength (by simp [count, nodes?, hlength])
  | array _ ihs =>
    intro pos s x h hlimit
    simp only [layout, hosts_append, hosts_cons, length_layoutAll] at h
    simp only [width, ← Nat.add_assoc] at hlimit ⊢
    rw [eval]
    refine .bind (does_evalAll ihs h.1 (by omega)) fun vs hrun => ?_
    obtain ⟨S, T, hrun⟩ := hrun
    have hlength := length_of_evalAll hrun
    exact .operation (by omega) h.2.1 rfl vs hlength (by simp [hlength, Nat.add_comm])
  | member _ _ ihi ihb =>
    intro pos s x h hlimit
    simp only [layout, hosts_append, length_layout] at h
    simp only [width, ← Nat.add_assoc] at hlimit ⊢
    rw [eval]
    refine .bind (ihi h.1 (by omega)) fun key _ => ?_
    exact does_member ihb h.2 hlimit
  | identifier | namedConstant | constantInt | constantFloat | constantText | boolean
  | «variable» =>
    intro pos s x h hlimit
    exact .operation hlimit (hosts_cons.1 h).1 rfl [] rfl rfl
  | interpolation _ ihs =>
    intro pos s x h hlimit
    simp only [layout, hosts_append, hosts_cons, length_layoutAll] at h
    simp only [width, ← Nat.add_assoc] at hlimit ⊢
    obtain ⟨hparts, htemplate, hsubstitute, -⟩ := h
    rw [eval]
    refine .bind (does_evalAll ihs hparts (by omega)) fun vs hrun => ?_
    obtain ⟨S, T, hrun⟩ := hrun
    have hlength := length_of_evalAll hrun
    refine .bind (.operation (by omega) htemplate rfl [] rfl (by simp [hlength, Nat.add_comm]))
      fun template _ => ?_
    have hoperation : Does k limit fuel _ _ _ := .operation (by omega) hsubstitute rfl
      (vs ++ [template]) (by simp [hlength]) (s := s) (by simp [hlength]; omega)
    simpa using hoperation
  | null | emptyExpression =>
    intro pos s x h hlimit
    exact does_loadNull (hosts_cons.1 h).1 hlimit
  | assignment hsign hpost hright ih =>
    exact simulates_assignment (.inr ⟨hsign, hright.operands_eq, ih⟩) hpost
  | step hsign =>
    refine simulates_assignment (.inl ⟨hsign, rfl⟩) fun h => ?_
    subst h
    simp [stepSigns] at hsign
  | memberAssignment hsign hpost hright _ _ ihr ihi ihb =>
    exact simulates_memberAssignment (.inr ⟨hsign, hright.operands_eq, ihr⟩) hpost ihi ihb
  | memberStep hsign _ _ ihi ihb =>
    refine simulates_memberAssignment (.inl ⟨hsign, rfl⟩) (fun h => ?_) ihi ihb
    subst h
    simp [stepSigns] at hsign
  | ifElse _ _ _ ihc iht ihe => exact simulates_ifElse ihc iht (.inr ihe)
  | ifThen _ _ ihc iht => exact simulates_ifElse ihc iht (.inl rfl)
  | whileLoop _ _ ihc ihb => exact simulates_whileLoop ihc ihb
  | forLoop _ _ _ _ ihs ihc ihu ihb => exact simulates_forLoop ihs ihc ihu ihb
  | foreachLoop _ hkey hvalue _ ihs ihb => exact simulates_foreachLoop ihs hkey hvalue ihb
  | print _ ih =>
    intro pos s x h hlimit
    simp only [layout, hosts_append, hosts_cons, length_layout] at h
    simp only [width, ← Nat.add_assoc] at hlimit ⊢
    rw [eval]
    refine .bind (ih h.1 (by omega)) fun v _ => ?_
    exact .bind (does_print h.2.1 hlimit) fun _ _ => .pure rfl
  | block _ ihs =>
    intro pos s x h hlimit
    exact does_evalBlock ihs h hlimit
  | binary _ _ ihl ihr =>
    intro pos s x h hlimit
    simp only [layout, hosts_append, hosts_cons, length_append, length_layout,
      ← Nat.add_assoc] at h
    simp only [width, ← Nat.add_assoc] at hlimit ⊢
    obtain ⟨⟨hl, hr⟩, hop, -⟩ := h
    rw [eval]
    refine .bind (ihl hl (by omega)) fun v _ => .bind (ihr (s := v :: s) hr (by omega)) fun w _ => ?_
    exact .operation hlimit hop rfl [v, w] rfl rfl
  | not _ ih =>
    intro pos s x h hlimit
    simp only [layout, hosts_append, hosts_cons, length_layout] at h
    simp only [width, ← Nat.add_assoc] at hlimit ⊢
    rw [eval]
    refine .bind (ih h.1 (by omega)) fun v _ => ?_
    exact .operation hlimit h.2.1 rfl [v] rfl rfl
  | both _ _ ihl ihr | either _ _ ihl ihr =>
    intro pos s x h hlimit
    simp only [layout, hosts_append, hosts_cons, length_layout] at h
    simp only [width, ← Nat.add_assoc] at hlimit ⊢
    obtain ⟨hl, hjump, hr⟩ := h
    rw [Nat.add_right_comm] at hlimit ⊢
    rw [eval]
    refine .bind (ihl hl (by omega)) fun v _ => ?_
    refine .fork (.onTruth (by omega) rfl hjump) ?_ ?_ <;>
      first | exact .pure rfl | exact ihr hr hlimit
  | returnNothing h | returnValue h | global h | breakLoop h | continueLoop h => cases h

end Node

/-! ### The meaning of compiled code -/

theorem Item.position_append {extra : List (Int × Nat)} {n : Int}
    (h : Item.position table n = .ok p) : Item.position (table ++ extra) n = .ok p := by
  unfold Item.position at h ⊢
  rw [lookup_append]
  cases hn : table.lookup n with
  | none =>
    rw [hn] at h
    cases h
  | some q =>
    rw [hn] at h
    exact h

theorem Placed.extend {extra : List (Int × Nat)} {code : Array (Instr Nat Bytecode)}
    {items : List Item} (h : Placed table code pos items) :
    Placed (table ++ extra) code pos items := by
  induction items generalizing pos with
  | nil => trivial
  | cons item items ih =>
    cases item with
    | label n => exact ⟨Item.position_append h.1, ih h.2⟩
    | instr i =>
      obtain ⟨⟨j, hj, hcode⟩, hitems⟩ := h
      refine ⟨⟨j, ?_, hcode⟩, ih hitems⟩
      cases i with
      | jump kind target =>
        simp only [retarget] at hj ⊢
        cases htarget : Item.position table target with
        | error f =>
          rw [htarget] at hj
          cases hj
        | ok q =>
          rw [htarget] at hj
          rwa [Item.position_append htarget]
      | _ => exact hj

theorem exists_leads (table : List (Int × Nat)) {labels extra : List Int}
    (h : labels ⊆ extra) : ∃ target, Leads (table ++ extra.map (·, 0)) labels.head? target := by
  cases labels with
  | nil => exact ⟨0, leads_none⟩
  | cons n labels =>
    have hn : n ∈ extra := h mem_cons_self
    cases hlookup : (table ++ extra.map (·, 0)).lookup n with
    | none =>
      have := lookup_eq_none_iff.1 hlookup (n, 0)
        (mem_append_right _ (mem_map_of_mem hn))
      simp at this
    | some target => exact ⟨target, leads_some (by rw [Item.position, hlookup])⟩

namespace Machine

/-- The first time that the running activation is at a position, it has these
operands and is in this situation. -/
def Arrives (m : Machine) (pos : Nat) (stack : List Value) (T : Situation) : Prop :=
  ∃ n m', Course (fun m' => ¬m'.At m.callers pos) n m m' ∧ m'.At m.callers pos ∧
    m'.current.frame.stack = stack ∧ m'.situation = T

/-- The machine when the running activation is at a position for the first
time. -/
def Reaches (m : Machine) (pos : Nat) (m' : Machine) : Prop :=
  ∃ n, Course (fun m' => ¬m'.At m.callers pos) n m m' ∧ m'.At m.callers pos

/-- Before the running activation is at a position, a step fails, with this
world and this interpreter. -/
def FailsBefore (m : Machine) (pos : Nat) (f : Fault) (w : World) (i : Interpreter) : Prop :=
  ∃ n m' last, Course (fun m' => ¬m'.At m.callers pos) n m m' ∧ ¬m'.At m.callers pos ∧
    step.run m' = .error f last ∧ last.world = w ∧ last.interpreter = i

end Machine

section

variable {α : Type} {k : Control} {limit : Nat} {start : Nat × List Value}
  {stack : α → List Value} {S : Situation} {m m' : Machine}

theorem Does.reaches {b : Nat} {x : Eval α} {v : α}
    (h : Does k limit b x start fun v => (limit, stack v)) (hm : m.Stands k S start.1 start.2)
    (hx : x.run S = .ok v T) : ∃ m', m.Reaches limit m' ∧ m'.Stands k T limit (stack v) := by
  have hcarries := h S m hm
  rw [hx] at hcarries
  obtain ⟨n, m', hcourse, hm'⟩ := hcarries
  rw [← hm.at.1] at hcourse
  exact ⟨m', ⟨n, hcourse, hm'.at.1.trans hm.at.1.symm, hm'.at.2⟩, hm'⟩

theorem Does.ok_of_reaches {x : Nat → Eval α}
    (h : ∀ fuel, Does k limit fuel (x fuel) start fun v => (limit, stack v))
    (hm : m.Stands k S start.1 start.2) (hreaches : m.Reaches limit m') :
    ∃ v fuel T, (x fuel).run S = .ok v T ∧ m'.Stands k T limit (stack v) := by
  obtain ⟨n, hcourse, hat⟩ := hreaches
  rw [hm.at.1] at hcourse hat
  have hcarries := h (n + 1) S m hm
  revert hcarries
  rcases hx : (x (n + 1)).run S with ⟨v, T⟩ | ⟨f | _, T⟩
  · rintro ⟨j, m'', hcourse', hm''⟩
    obtain rfl := hcourse.unique hcourse' (not_not_intro hat) (not_not_intro hm''.at)
    exact ⟨v, n + 1, T, hx, hm''⟩
  · rintro ⟨j, m'', last, hcourse', hm'', hstep, -⟩
    exact (hcourse'.not_error hcourse hm'' hstep (not_not_intro hat)).elim
  · rintro ⟨j, m'', hj, hcourse'⟩
    -- The evaluation lasts longer than the way to the finish.
    obtain ⟨i, rfl⟩ := Nat.exists_eq_add_of_lt hj
    exact absurd hat (hcourse.rest hcourse').holds

end

theorem meaning_of_does {finish : Nat} {x : Nat → Eval Value}
    (h : ∀ fuel, Does m.control finish fuel (x fuel) (m.current.pos, m.current.frame.stack)
      fun v => (finish, v :: m.current.frame.stack)) :
    (∀ stack T, m.Arrives finish stack T ↔
      ∃ v fuel, stack = v :: m.current.frame.stack ∧ (x fuel).run m.situation = .ok v T) ∧
    (∀ f w i, m.FailsBefore finish f w i ↔
      ∃ fuel T, (x fuel).run m.situation = .error (.fault f) T ∧ T.world = w ∧
        T.interpreter = i) := by
  have hm : m.Stands m.control m.situation m.current.pos m.current.frame.stack :=
    ⟨m.steps, m.stackFault, m.situation_under_control.symm⟩
  have hcarries := fun fuel => h fuel m.situation m hm
  constructor
  · intro stack T
    constructor
    · rintro ⟨n, m', hcourse, hat, rfl, rfl⟩
      obtain ⟨v, fuel, T, hx, steps, fault, rfl⟩ := Does.ok_of_reaches h hm ⟨n, hcourse, hat⟩
      exact ⟨v, fuel, rfl, hx⟩
    · rintro ⟨v, fuel, rfl, hx⟩
      obtain ⟨m', ⟨n, hcourse, hat⟩, steps, fault, rfl⟩ := (h fuel).reaches hm hx
      exact ⟨n, _, hcourse, hat, rfl, rfl⟩
  · intro f w i
    constructor
    · rintro ⟨n, m', last, hcourse, hm', hstep, rfl, rfl⟩
      have hcarries := hcarries (n + 1)
      revert hcarries
      rcases hx : (x (n + 1)).run m.situation with ⟨v, T⟩ | ⟨f | _, T⟩
      · rintro ⟨j, m'', hcourse', steps, fault, rfl⟩
        exact (hcourse.not_error hcourse' hm' hstep (not_not_intro ⟨rfl, rfl⟩)).elim
      · rintro ⟨j, m'', last', hcourse', hm'', hstep', hworld, hinterpreter⟩
        -- Both courses end where a step fails, which is one machine.
        obtain rfl := Nat.le_antisymm (hcourse'.le_of_error hstep' hcourse)
          (hcourse.le_of_error hstep hcourse')
        cases hcourse.rest (j := 0) hcourse'
        rw [hstep] at hstep'
        cases hstep'
        exact ⟨n + 1, T, hx, hworld.symm, hinterpreter.symm⟩
      · rintro ⟨j, m'', hj, hcourse'⟩
        exact absurd (hcourse.le_of_error hstep hcourse') (Nat.not_le_of_lt hj)
    · rintro ⟨fuel, T, hx, rfl, rfl⟩
      have hcarries := hcarries fuel
      rw [hx] at hcarries
      exact hcarries

theorem Node.Tidy.hosts {scopes : Nat → Scope} {p : Place} {e : Node} (he : e.Tidy {} p)
    {a a' : Assembler} {items : List Item} (ha : 0 ≤ a.nextLabel)
    (hrun : (e.compile scopes).run a = .ok () a') (hitems : a'.items = a.items ++ items.toArray)
    {d : Nat}
    (hplaced : Placed table k.code.code pos items)
    (hroom : ∀ line ∈ e.layout scopes pos d {}, line.Fits k.capacity) :
    Item.extent items = e.width ∧ Hosts k pos (e.layout scopes pos d {}) := by
  obtain ⟨items', high, rfl, hemitted⟩ := Node.compile_emits scopes _ e a a' ha hrun
  obtain rfl : items' = items := by
    have hlists := congrArg Array.toList hitems
    rwa [Array.toList_append, Array.toList_append, append_right_inj] at hlists
  obtain ⟨breakTo, hends⟩ := exists_leads table (subset_append_left a.ends a.updates)
  obtain ⟨continueTo, hupdates⟩ := exists_leads table (subset_append_right a.ends a.updates)
  refine ⟨hemitted.extent, ?_, hroom⟩
  rw [← he.closed _ _ ⟨none, breakTo, continueTo⟩ {}]
  exact hemitted.laid hplaced.extend hends hupdates

/-- Code compiled from a node means what the node means: from its first
instruction the machine arrives behind its last one exactly if the evaluation
of the node yields a value, which is then on top of the stack, and in the
situation that the evaluation leads to; and it fails on the way exactly if the
evaluation fails, with the same fault. -/
theorem compile_meaning {scopes : Nat → Scope} {p : Place} {e : Node} (he : e.Tidy {} p)
    {a a' : Assembler} {items : List Item} (ha : 0 ≤ a.nextLabel)
    (hrun : (e.compile scopes).run a = .ok () a') (hitems : a'.items = a.items ++ items.toArray)
    {table : List (Int × Nat)} {m : Machine}
    (hplaced : Placed table m.current.frame.code.code m.current.pos items)
    (hroom : ∀ line ∈ e.layout scopes m.current.pos m.current.frame.stack.length {},
      line.Fits m.current.frame.capacity) :
    (∀ stack T, m.Arrives (m.current.pos + Item.extent items) stack T ↔
      ∃ v fuel, stack = v :: m.current.frame.stack ∧ (e.eval fuel).run m.situation = .ok v T) ∧
    (∀ f w i, m.FailsBefore (m.current.pos + Item.extent items) f w i ↔
      ∃ fuel T, (e.eval fuel).run m.situation = .error (.fault f) T ∧ T.world = w ∧
        T.interpreter = i) := by
  obtain ⟨hextent, hosts⟩ := he.hosts (k := m.control) ha hrun hitems hplaced hroom
  refine meaning_of_does fun fuel => ?_
  rw [hextent]
  exact he.simulates hosts (Nat.le_refl _)

/-- A loop that makes one round: `while ($a) { $a = false; }`. -/
def oneRound : Node :=
  .whileLoop (.variable "$a" 0)
    (.block [.exprStatement (.assignment "$a" 0 (.boolean false) "=" false)])

def oneRoundItems : List Item :=
  [.instr .loadNull, .label 100000, .instr (.loadVar 0 "$a"), .instr (.jump .ifFalse 100001),
    .instr (.loadBoolean false), .instr (.assign 0 "$a"), .instr .discardTop,
    .instr (.jump .always 100000), .label 100001]

/-- A machine before the code of the loop, with `$a` true. -/
def beforeRound : Machine where
  world := {}
  interpreter := {}
  current :=
    { frame :=
        { code := { (default : Bytecode) with
            code := #[.loadNull, .loadVar 0 "$a", .jump .ifFalse 7, .loadBoolean false,
              .assign 0 "$a", .discardTop, .jump .always 1] }
          capacity := 2
          slots := #[.bool true] } }

/-- Behind the loop there is null on the stack, and `$a` is false. -/
theorem compile_meaning_oneRound :
    ∃ T, beforeRound.Arrives 7 [.null] T ∧ T.slots = #[.bool false] := by
  have htidy : oneRound.Tidy {} .inner := by
    refine .whileLoop .variable (.block fun n hn => ?_)
    obtain rfl := List.mem_singleton.1 hn
    exact .exprStatement (.assignment (by decide) (fun _ => rfl) .boolean)
  have hrun : (oneRound.compile fun _ => {}).run {} = .ok ()
      { ({} : Assembler) with items := oneRoundItems.toArray, nextLabel := 100002 } := rfl
  have hplaced : Placed [(100001, 7), (100000, 1)] beforeRound.current.frame.code.code 0
      oneRoundItems := by
    have hstart : Item.position [(100001, 7), (100000, 1)] 100000 = .ok 1 := rfl
    have hfinish : Item.position [(100001, 7), (100000, 1)] 100001 = .ok 7 := rfl
    simp [oneRoundItems, Instr.retarget, hstart, hfinish, beforeRound, Except.map]
  have hroom : ∀ line ∈ oneRound.layout (fun _ => {}) 0 0 {}, line.Fits 2 := by
    simp [oneRound, Node.layout, Node.layoutBlock, Node.lineIf, Line.Fits, Instr.leaves,
      Instr.needs, Instr.operation?, Jump.leaves, Jump.needs, Node.whileAt, Node.width]
  have hmeaning := compile_meaning htidy (by decide) hrun rfl hplaced hroom
  refine ⟨{ beforeRound.situation with slots := #[.bool false] }, ?_, rfl⟩
  exact (hmeaning.1 _ _).2 ⟨.null, 2, rfl, rfl⟩

end PageScript
