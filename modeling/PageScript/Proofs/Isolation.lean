/-
Isolation of runs from each other.

Interpreters share the store and the table of named constants with all that ran before.
What was left in the store does not matter (`Machine.atop`), what was left in the table
does, but only from the first step on that looks it up (`Machine.consulted`).

* `Machine.sameWithin_iff` — step by step, a machine goes on in a used world as in a new
  one just as long as it looks up no constant that was left;
* `Interpreter.run_atop` — the whole run is the same, renumbered, if it looks up none.
-/
import PageScript.Proofs.Relocation
import PageScript.Web.Server

open EStateM (Result)

namespace PageScript

open List EStateM Machine Instr Entries

variable {m : Machine} {v : Value} {stack : List Value} {count : Int} {name : String} {n : Nat}
  {w : World}

/-! ### Named constants -/

namespace Entries

variable {α : Type} {es fs : Entries α} {key : String}

theorem get?_append : (es ++ fs : Entries α).get? key = (es.get? key).or (fs.get? key) :=
  lookup_append

theorem get?_eq_none_iff : es.get? key = none ↔ key ∉ es.keys := by
  rw [get?, lookup_eq_none_iff, keys, mem_map]
  constructor
  · rintro h ⟨e, he, rfl⟩
    simpa using h e he
  · intro h e he
    have hne : key ≠ e.1 := fun heq => h ⟨e, he, heq.symm⟩
    simpa using hne

theorem get?_append_of_not_mem (h : key ∉ es.keys) :
    (es ++ fs : Entries α).get? key = fs.get? key := by
  rw [get?_append, get?_eq_none_iff.2 h, Option.none_or]

theorem get?_append_of_mem (h : key ∈ es.keys) : ∃ v, (es ++ fs : Entries α).get? key = some v := by
  obtain ⟨v, hv⟩ := Option.ne_none_iff_exists'.1 fun hnone => get?_eq_none_iff.1 hnone h
  exact ⟨v, by rw [get?_append, hv, Option.some_or]⟩

theorem put_append_of_not_mem {v : α} (h : key ∉ es.keys) :
    (es ++ fs : Entries α).put key v = es ++ fs.put key v := by
  induction es with
  | nil => rfl
  | cons e es ih =>
    obtain ⟨k, old⟩ := e
    simp only [keys, map_cons, mem_cons, not_or] at h
    rw [cons_append, put, if_neg (Ne.symm h.1), ih h.2]
    rfl

theorem put_of_not_mem {v : α} (h : key ∉ es.keys) : es.put key v = es ++ [(key, v)] := by
  have hput : (es ++ [] : Entries α).put key v = es ++ put [] key v := put_append_of_not_mem h
  rwa [append_nil] at hput

end Entries

namespace Native

theorem run_defineConstant_of_mem {old : Value} (h : m.world.constants.get? name = some old) :
    (defineConstant name v).run m = .ok (.bool false) m := by
  simp only [defineConstant, run_bind, run_get, h]
  rfl

theorem run_defineConstant_of_not_mem (h : name ∉ m.world.constants.keys) :
    (defineConstant name v).run m = if v.isScript then
        .ok (.bool true) { m with world := { m.world with
          constants := m.world.constants ++ [(name, v)] } }
      else .error .checkFailed m := by
  simp only [defineConstant, run_bind, run_get, get?_eq_none_iff.2 h,
    put_of_not_mem h]
  cases v.isScript <;> rfl

end Native

/-! ### Steps in a used world -/

open Native (definition defineConstant)

open Exec

namespace Machine

variable {w : World} {m : Machine} {name : String}

theorem knows_of_not_left (h : name ∉ w.constants.keys) (es : Entries Value) :
    (Transport.behind w).Knows es name where
  get? := by
    show (w.constants ++ es.renumbered _ : Entries Value).get? name = _
    rw [get?_append_of_not_mem h, get?_renumbered]
  put v _ := by
    show (w.constants ++ es.renumbered _ : Entries Value).put name _
      = w.constants ++ (es.put name v).renumbered _
    rw [put_append_of_not_mem h, put_renumbered]

/-- A step in a used world is that in a new one unless it looks up what was
left. -/
theorem step_atop (hm : m.RunsOnly Bytecode.IsResolved)
    (hfree : ∀ name, m.consulted = some name → name ∉ w.constants.keys) :
    step.run (m.atop w) = carried (.behind w) (·.renumbered (.behind w.store)) (step.run m) := by
  have hknows : ∀ name, m.consulted = some name →
      (Transport.behind w).Knows m.world.constants name := fun name hname =>
    knows_of_not_left (hfree name hname) _
  exact Transport.step (fun v => (hm.activations m.current mem_cons_self).code.literal) trivial hknows

end Machine

/-! ### What a step leaves -/

namespace Entries

variable {α : Type} {es : Entries α} {key other : String} {v : α}

theorem mem_keys_put (h : other ∈ (es.put key v).keys) : other ∈ es.keys ∨ other = key := by
  induction es with
  | nil =>
    obtain ⟨e, he, rfl⟩ := mem_map.1 h
    cases mem_singleton.1 he
    exact .inr rfl
  | cons e es ih =>
    obtain ⟨k, old⟩ := e
    rw [put] at h
    by_cases hk : k = key
    · rw [if_pos hk] at h
      exact .inl h
    · rw [if_neg hk] at h
      rcases mem_cons.1 h with rfl | h
      · exact .inl mem_cons_self
      · exact (ih h).imp_left (mem_cons_of_mem _)

end Entries

namespace Exec

variable {m m' : Machine} {new : Bytecode → Prop} {named : String → Prop}

theorem settles_of_callDefine {args : List Value} {r : Value}
    (h : (Native.callDefine args).run m = .ok r m')
    (hnamed : ∀ name v, definition m.world.store args = .ok (name, v) → named name) :
    m.Settles new named m' := by
  rw [Native.run_callDefine] at h
  split at h
  case h_2 => cases h
  case h_1 name v hdefinition =>
    obtain ⟨_, _, hget, h⟩ := ok_of_run_bind h
    cases hget
    split at h
    · cases h
      exact .refl m
    · obtain ⟨_, m₁, hcheck, h⟩ := ok_of_run_bind h
      obtain ⟨-, rfl⟩ := ok_of_run_check hcheck
      cases h
      refine ⟨.refl _, rfl, fun _ => .inl, fun other hother => ?_, Nat.le_refl _,
        suffix_rfl⟩
      refine (mem_keys_put hother).imp_right ?_
      rintro rfl
      exact hnamed _ v hdefinition

end Exec

theorem Instr.settles_of_exec {new : Bytecode → Prop} {i : Instr Nat Bytecode} {flow : Flow Nat}
    {m' : Machine} (hi : m.next? = some i)
    (hnew : ∀ name code, i = .declareFunction name code → new code)
    (h : i.exec.run m.tick = .ok flow m') :
    m.tick.Settles new (fun name => m.consulted = some name) m' := by
  by_cases hcall : ∃ count, i = .call count
  case neg =>
    exact i.exec_settles hnew (.inl fun count hi => hcall ⟨count, hi⟩) m.tick flow m' h
  obtain ⟨count, rfl⟩ := hcall
  obtain ⟨f, m₁, hpop, h⟩ := ok_of_run_bind h
  refine (Settles.pop m.tick f m₁ hpop).trans ?_
  obtain ⟨stack, hstack, rfl⟩ := ok_of_run_pop hpop
  obtain ⟨_, m₂, hcheck, h⟩ := ok_of_run_bind h
  obtain ⟨-, rfl⟩ := ok_of_run_check hcheck
  obtain ⟨args, m₃, hargs, h⟩ := ok_of_run_bind h
  refine (Settles.popN count _ _ _ hargs).trans ?_
  obtain ⟨hcount, rfl, rfl⟩ := ok_of_run_popN hargs
  by_cases hf : f = .native .define
  case neg => exact Settles.callFunction (.inl hf) _ _ _ _ h
  subst hf
  obtain ⟨r, m₄, hdefine, h⟩ := ok_of_run_bind h
  exact (settles_of_callDefine hdefine fun name v hdefinition =>
    consulted_of_define hi hstack hcount hdefinition).trans
    ((Settles.bind (.push r) fun _ => .pure _) m₄ flow m' h)

/-! ### Runs in a used world -/

theorem Instr.run_call_of_stack {f : Value}
    (hstack : m.current.frame.stack = f :: stack) (hf : f.isFunction = true)
    (hcount : count.toNat ≤ stack.length) :
    (call count : Instr Nat Bytecode).exec.run m
      = (Exec.callFunction f (stack.take count.toNat).reverse).run
          (m.withStack (stack.drop count.toNat)) := by
  have hargs : (stack.take count.toNat).reverse.length = count.toNat := by
    rw [length_reverse, length_take]
    omega
  have hcall : (call count : Instr Nat Bytecode).exec.run (m.situation.under m.control)
      = (Exec.callFunction f (stack.take count.toNat).reverse).run
          (m.situation.under { m.control with stack := stack.drop count.toNat }) := by
    refine exec_call ?_ hargs hf
    rw [reverse_reverse, take_append_drop]
    exact hstack
  rw [m.situation_under_control] at hcall
  obtain ⟨_, _, ⟨⟨code, _, _, _⟩, _⟩, _, _, _⟩ := m
  cases code
  exact hcall

namespace Exec

theorem run_push_of_lt (h : m.current.frame.stack.length < m.current.frame.capacity) :
    (push v).run m = .ok () (m.withStack (v :: m.current.frame.stack)) := by
  have hpush : m.current.frame.push v
      = .ok { m.current.frame with stack := v :: m.current.frame.stack } := if_pos h
  simp only [push, run_bind, run_get, hpush]
  rfl

theorem run_push_of_not_lt (h : ¬m.current.frame.stack.length < m.current.frame.capacity) :
    (push v).run m = .error .checkFailed { m with stackFault := true } := by
  have hpush : m.current.frame.push v = .error .checkFailed := if_neg h
  simp only [push, run_bind, run_get, hpush]
  rfl

end Exec

namespace Machine

variable {w : World} {m m' : Machine} {name : String}

/-- What a run keeps true as long as it looks up no name that was left in the
world `w`: all code is resolved, no check of an operand stack has failed, and
the run has defined no such name. -/
structure Apart (w : World) (m : Machine) : Prop where
  runs : m.RunsOnly Bytecode.IsResolved
  stackFault : m.stackFault = false
  undefined : ∀ name ∈ w.constants.keys, name ∉ m.world.constants.keys

theorem Apart.step (hm : m.Apart w)
    (hfree : ∀ name, m.consulted = some name → name ∉ w.constants.keys)
    (hstep : step.run m = .ok .running m') : m'.Apart w := by
  obtain ⟨i, flow, m₁, hi, hexec, hgoes⟩ := step_goes hstep
  have hsettles : m.tick.Settles (fun _ => True) (fun name => m.consulted = some name) m₁ :=
    settles_of_exec hi (fun _ _ _ => trivial) hexec
  -- Only the instruction itself touches constants and the note of failed checks.
  have hsame : m'.world.constants = m₁.world.constants ∧ m'.stackFault = m₁.stackFault := by
    cases hgoes <;> exact ⟨rfl, rfl⟩
  refine ⟨hm.runs.step Bytecode.hereditary_isResolved hstep, ?_, fun name hname hdefined => ?_⟩
  · rw [hsame.2, hsettles.stackFault]
    exact hm.stackFault
  · rw [hsame.1] at hdefined
    rcases hsettles.constants name hdefined with hold | hconsulted
    · exact hm.undefined name hname hold
    · exact hfree name hconsulted hname

theorem step_atop_ne_of_load (hi : m.next? = some (.loadNamedConstant name))
    (hleft : name ∈ w.constants.keys) (hown : name ∉ m.world.constants.keys) :
    step.run (m.atop w) ≠ carried (.behind w) (·.renumbered (.behind w.store)) (step.run m) := by
  have hatop : (m.atop w).next? = some _ := hi
  have hnew : (loadNamedConstant name : Instr Nat Bytecode).exec.run m.tick
      = .error (.complaint (.undefinedConstant name)) m.tick := by
    have hget : m.tick.world.constants.get? name = none := get?_eq_none_iff.2 hown
    simp only [exec, run_bind, run_get, hget]
    rfl
  obtain ⟨v, hv⟩ : ∃ v, (m.atop w).tick.world.constants.get? name = some v :=
    get?_append_of_mem hleft
  have hused : (loadNamedConstant name : Instr Nat Bytecode).exec.run (m.atop w).tick
      = (push v >>= fun _ => pure Flow.next).run (m.atop w).tick := by
    rw [exec, run_bind, run_get]
    dsimp only
    rw [hv]
  rw [step_of_some hatop, step_of_some hi, hnew, hused, run_bind]
  by_cases hroom : (m.atop w).tick.current.frame.stack.length
      < (m.atop w).tick.current.frame.capacity
  · rw [run_push_of_lt hroom]
    rintro ⟨⟩
  · rw [run_push_of_not_lt hroom]
    rintro ⟨⟩

section

variable (hstack : m.current.frame.stack = .native .define :: stack)
  (hcount : count.toNat ≤ stack.length)
  (h : definition m.world.store (stack.take count.toNat).reverse = .ok (name, v))

include hstack hcount h

theorem run_call_define :
    (call count : Instr Nat Bytecode).exec.run m
      = (defineConstant name v >>= fun r => push r >>= fun _ => pure Flow.next).run
          (m.withStack (stack.drop count.toNat)) := by
  have hcall : (Native.callDefine (stack.take count.toNat).reverse).run
      (m.withStack (stack.drop count.toNat)) = _ := Native.run_callDefine _ _
  rw [show (m.withStack (stack.drop count.toNat)).world = m.world from rfl, h] at hcall
  rw [run_call_of_stack hstack rfl hcount]
  show (Native.callDefine _ >>= fun r => push r >>= fun _ => pure Flow.next).run _ = _
  rw [run_bind, run_bind, hcall]

theorem run_call_define_atop (hleft : name ∈ w.constants.keys) :
    (call count : Instr Nat Bytecode).exec.run (m.atop w)
      = (push (.bool false) >>= fun _ => pure Flow.next).run
          ((m.atop w).withStack ((stack.drop count.toNat).map (·.renumbered (.behind w.store)))) := by
  have hstack' : (m.atop w).current.frame.stack
      = .native .define :: stack.map (·.renumbered (.behind w.store)) :=
    congrArg (map (Value.renumbered (.behind w.store))) hstack
  have hcount' : count.toNat ≤ (stack.map (·.renumbered (.behind w.store))).length := by
    rwa [length_map]
  have h' : definition (m.atop w).world.store
      ((stack.map (·.renumbered (.behind w.store))).take count.toNat).reverse
      = .ok (name, v.renumbered (.behind w.store)) := by
    have hmoved := Native.definition_renumbered (s := m.world.store) (.behind w.store)
      (stack.take count.toNat).reverse
    rwa [h, map_reverse, map_take] at hmoved
  obtain ⟨old, hold⟩ : ∃ old, (m.atop w).world.constants.get? name = some old :=
    get?_append_of_mem hleft
  rw [run_call_define hstack' hcount' h', map_drop, run_bind,
    Native.run_defineConstant_of_mem (by exact hold)]

theorem step_atop_ne_of_define (hi : m.next? = some (.call count))
    (hleft : name ∈ w.constants.keys) (hown : name ∉ m.world.constants.keys)
    (hfault : m.stackFault = false) :
    step.run (m.atop w) ≠ carried (.behind w) (·.renumbered (.behind w.store)) (step.run m) := by
  have hatop : (m.atop w).next? = some _ := hi
  have hused : (call count : Instr Nat Bytecode).exec.run (m.atop w).tick = _ :=
    run_call_define_atop (m := m.tick) hstack hcount h hleft
  have hnew : (call count : Instr Nat Bytecode).exec.run m.tick = _ :=
    run_call_define (m := m.tick) hstack hcount h
  rw [run_bind, Native.run_defineConstant_of_not_mem
    (m := m.tick.withStack (stack.drop count.toNat)) hown] at hnew
  rw [step_of_some hatop, step_of_some hi, hnew, hused, run_bind]
  have hlength : ((stack.drop count.toNat).map (·.renumbered (.behind w.store))).length
      = (stack.drop count.toNat).length := length_map _
  by_cases hroom : (stack.drop count.toNat).length < m.current.frame.capacity
  · rw [run_push_of_lt (m := (m.tick.atop w).withStack _) (by rwa [← hlength] at hroom)]
    by_cases hscript : v.isScript
    · -- The answers differ.
      rw [if_pos hscript]
      dsimp only
      rw [run_bind, run_push_of_lt hroom]
      intro heq
      injection heq with _ hmachine
      have hstacks := congrArg (fun m : Machine => m.current.frame.stack.head?) hmachine
      cases hstacks
    · rw [if_neg hscript]
      exact nofun
  · rw [run_push_of_not_lt (m := (m.tick.atop w).withStack _) (by rwa [← hlength] at hroom)]
    by_cases hscript : v.isScript
    · -- There is no room for either answer, but only one of them has defined the name.
      rw [if_pos hscript]
      dsimp only
      rw [run_bind, run_push_of_not_lt hroom]
      intro heq
      injection heq with _ hmachine
      have hconstants := congrArg (fun m : Machine => m.world.constants.length) hmachine
      simp [atop, Transport.behind, Transport.machine, Transport.world, withStack, tick,
        length_renumbered] at hconstants
    · -- There is no room for the one answer; that there is no other one is no fault of a stack.
      rw [if_neg hscript]
      intro heq
      injection heq with _ hmachine
      have hfaults : true = m.stackFault := congrArg stackFault hmachine
      rw [hfault] at hfaults
      cases hfaults

end

theorem step_atop_ne (hm : m.Apart w) (hname : m.consulted = some name)
    (hleft : name ∈ w.constants.keys) :
    step.run (m.atop w) ≠ carried (.behind w) (·.renumbered (.behind w.store)) (step.run m) := by
  have hown := hm.undefined name hleft
  rcases cases_of_consulted hname with hi | ⟨count, stack, v, hi, hstack, hcount, h⟩
  · exact step_atop_ne_of_load hi hleft hown
  · exact step_atop_ne_of_define hstack hcount h hi hleft hown hm.stackFault

end Machine

namespace Machine

variable {w : World} {m m' : Machine}

/-- Within `n` steps, the machine does in the used world what it does in a new
one. -/
def SameWithin (w : World) (n : Nat) (m : Machine) : Prop :=
  ∀ k ≤ n, (m.atop w).run k = ((m.run k).1.renumbered (.behind w.store), (m.run k).2.atop w)

/-- Within `n` steps, the machine looks up no name that was left. -/
def FreeWithin (w : World) (n : Nat) (m : Machine) : Prop :=
  ∀ k < n, ∀ m', Course (fun _ => True) k m m' →
    ∀ name, m'.consulted = some name → name ∉ w.constants.keys

theorem run_succ_of_running {k : Nat} (h : step.run m = .ok .running m') :
    m.run (k + 1) = m'.run k := by
  rw [run, h]

theorem step_atop_of_run
    (h : (m.atop w).run 1 = ((m.run 1).1.renumbered (.behind w.store), (m.run 1).2.atop w)) :
    step.run (m.atop w) = carried (.behind w) (·.renumbered (.behind w.store)) (step.run m) := by
  simp only [run] at h
  rcases hused : step.run (m.atop w) with ⟨_ | v, m₁⟩ | ⟨e, m₁⟩ <;>
    rcases hnew : step.run m with ⟨_ | v', m₂⟩ | ⟨e', m₂⟩ <;>
    rw [hused, hnew] at h <;> cases h <;> rfl

theorem FreeWithin.cons (hstep : step.run m = .ok .running m') :
    m.FreeWithin w (n + 1) ↔
      (∀ name, m.consulted = some name → name ∉ w.constants.keys) ∧ m'.FreeWithin w n := by
  constructor
  · intro h
    exact ⟨h 0 (by omega) m (.stay m),
      fun k hk m'' hcourse => h (k + 1) (by omega) m'' (.next trivial hstep hcourse)⟩
  · rintro ⟨hfree, h⟩ k hk m'' hcourse
    cases hcourse with
    | stay => exact hfree
    | @next k _ m₁ _ _ hstep' hcourse =>
      rw [hstep] at hstep'
      cases hstep'
      exact h k (by omega) m'' hcourse

theorem FreeWithin.of_ends (hfree : ∀ name, m.consulted = some name → name ∉ w.constants.keys)
    (hends : ∀ m', step.run m ≠ .ok .running m') : m.FreeWithin w n := by
  intro k _ m'' hcourse
  cases hcourse with
  | stay => exact hfree
  | next _ hstep _ => exact absurd hstep (hends _)

/-- Whether a run looks up such a name can be seen by running it. -/
instance FreeWithin.decide (w : World) : (n : Nat) → (m : Machine) → Decidable (m.FreeWithin w n)
  | 0, _ => isTrue fun k hk => absurd hk (Nat.not_lt_zero k)
  | n + 1, m =>
    if hfree : ∀ name ∈ m.consulted, name ∉ w.constants.keys then
      match hstep : step.run m with
      | .ok .running m' =>
        have := FreeWithin.decide w n m'
        decidable_of_iff (m'.FreeWithin w n)
          ((FreeWithin.cons hstep).trans (and_iff_right hfree)).symm
      | .ok (.done v) m' => isTrue (.of_ends hfree (by simp [hstep]))
      | .error e m' => isTrue (.of_ends hfree (by simp [hstep]))
    else isFalse fun h => hfree (h 0 (by omega) m (.stay m))

theorem SameWithin.cons (hstep : step.run m = .ok .running m')
    (hused : step.run (m.atop w) = .ok .running (m'.atop w)) :
    m.SameWithin w (n + 1) ↔ m'.SameWithin w n := by
  constructor
  · intro h k hk
    have hrun := h (k + 1) (by omega)
    rwa [run_succ_of_running hstep, run_succ_of_running hused] at hrun
  · intro h k hk
    cases k with
    | zero => rfl
    | succ k =>
      rw [run_succ_of_running hstep, run_succ_of_running hused]
      exact h k (by omega)

/-- Step by step, the machine goes on in the used world as in a new one just
as long as it looks up no name that was left. -/
theorem sameWithin_iff (hm : m.Apart w) (n : Nat) : m.SameWithin w n ↔ m.FreeWithin w n := by
  induction n generalizing m with
  | zero =>
    refine ⟨fun _ k hk => absurd hk (Nat.not_lt_zero k), fun _ k hk => ?_⟩
    rw [Nat.le_zero.1 hk]
    rfl
  | succ n ih =>
    by_cases hfree : ∀ name, m.consulted = some name → name ∉ w.constants.keys
    case neg =>
      -- The next step looks up a name that was left, and shows it.
      constructor
      · intro hsame
        obtain ⟨name, hname, hleft⟩ : ∃ name, m.consulted = some name ∧ name ∈ w.constants.keys := by
          simpa using hfree
        exact absurd (step_atop_of_run (hsame 1 (by omega))) (step_atop_ne hm hname hleft)
      · intro hwithin
        exact absurd (hwithin 0 (by omega) m (.stay m)) hfree
    case pos =>
      have hatop := step_atop hm.runs hfree
      cases hstep : step.run m with
      | error e m₁ =>
        refine iff_of_true (fun k _ => ?_) (.of_ends hfree (by simp [hstep]))
        cases k with
        | zero => rfl
        | succ k =>
          rw [run, run, hatop, hstep]
          rfl
      | ok progress m₁ =>
        cases progress with
        | done v =>
          refine iff_of_true (fun k _ => ?_) (.of_ends hfree (by simp [hstep]))
          cases k with
          | zero => rfl
          | succ k =>
            rw [run, run, hatop, hstep]
            rfl
        | running =>
          rw [hstep] at hatop
          rw [SameWithin.cons hstep hatop, FreeWithin.cons hstep, ih (hm.step hfree hstep)]
          exact ⟨fun h => ⟨hfree, h⟩, And.right⟩

end Machine

namespace Machine

variable {w u : World} {i : Interpreter} {code : Bytecode}

theorem launch_atop :
    launch (u.atop w) (i.atop w) code = (launch u i code).map (·.atop w) := by
  show Frame.new (i.superglobals.map (·.renumbered (.behind w.store))) code >>= _ = _
  rw [Frame.new_renumbered, launch]
  exact bind_map_congr fun _ => rfl

theorem Apart.launch {start : Machine} (hcodes : ∀ code ∈ u.store.codes, code.IsResolved)
    (hconstants : u.constants = []) (hcode : code.IsResolved)
    (h : launch u i code = .ok start) : start.Apart w := by
  refine ⟨RunsOnly.launch hcodes hcode h, ?_, fun name _ hdefined => ?_⟩
  · obtain ⟨frame, -, h⟩ := ok_of_bind h
    cases h
    rfl
  · obtain ⟨frame, -, h⟩ := ok_of_bind h
    cases h
    rw [hconstants] at hdefined
    cases hdefined

end Machine

def Run.atop (r : Run) (w : World) : Run where
  world := r.world.atop w
  interpreter := r.interpreter.atop w
  ending := r.ending.renumbered (.behind w.store)
  course := r.course.map fun (start, last) => (start.atop w, last.atop w)
  returned := r.returned

theorem World.write_atop {u : World} {text : String} :
    (u.atop w).write text = (u.write text).atop w := by
  simp only [World.write, World.atop, Transport.world, Transport.behind, String.append_assoc]

namespace Interpreter

variable {w u : World} {i : Interpreter} {code : Bytecode} {fuel : Nat}

/-- The run looks up no name that was left. -/
def Free (w : World) (fuel : Nat) (u : World) (i : Interpreter) (code : Bytecode) : Prop :=
  ∀ start, launch u i code = .ok start → start.FreeWithin w fuel

section

variable (hcodes : ∀ code ∈ u.store.codes, code.IsResolved) (hconstants : u.constants = [])
  (hcode : code.IsResolved)

include hcodes hconstants hcode

theorem execute_atop (hfree : i.Free w fuel u code) :
    (i.atop w).execute fuel (u.atop w) code = (i.execute fuel u code).atop w := by
  rw [execute, execute, launch_atop]
  cases hlaunch : launch u i code with
  | error fault => rfl
  | ok start =>
    have hsame := (sameWithin_iff (.launch hcodes hconstants hcode hlaunch) fuel).2
      (hfree start hlaunch) fuel (Nat.le_refl fuel)
    show (if code.code.isEmpty then _ else _) = Run.atop (if code.code.isEmpty then _ else _) w
    split
    · rfl
    · rw [hsame]
      rfl

theorem run_atop (hfree : i.Free w fuel u code) :
    (i.atop w).run fuel (u.atop w) code = (i.run fuel u code).atop w := by
  rw [run, run, execute_atop hcodes hconstants hcode hfree]
  obtain ⟨world, interpreter, ending, course, returned⟩ := i.execute fuel u code
  cases ending with
  | finished v =>
    simp only [Run.atop, Ending.renumbered, World.write_atop]
    rfl
  | failed fault => rfl
  | outOfFuel => rfl

theorem runReturn_atop
    (hfree : { i with buffers := "" :: i.buffers }.Free w fuel u code) :
    (i.atop w).runReturn fuel (u.atop w) code = (i.runReturn fuel u code).atop w := by
  have hexecute := execute_atop hcodes hconstants hcode hfree
  rw [runReturn, runReturn]
  rw [show { i.atop w with buffers := "" :: (i.atop w).buffers }
    = atop { i with buffers := "" :: i.buffers } w from rfl, hexecute]
  generalize execute fuel u _ code = r
  obtain ⟨world, ⟨functions, buffers, superglobals⟩, ending, course, returned⟩ := r
  cases ending with
  | finished v => cases buffers <;> rfl
  | failed fault => rfl
  | outOfFuel => rfl

end

theorem putAll_texts_renumbered {ρ : Renumbering} (query : List (String × String))
    {es : Entries Value} (hes : es.renumbered ρ = es) :
    (es.putAll (query.map fun (key, t) => (key, Value.text t))).renumbered ρ
      = es.putAll (query.map fun (key, t) => (key, Value.text t)) := by
  induction query generalizing es with
  | nil => exact hes
  | cons entry query ih =>
    refine ih ?_
    have hput : (es.renumbered ρ).put entry.1 (.text entry.2)
        = (es.put entry.1 (.text entry.2)).renumbered ρ := put_renumbered (v := .text entry.2)
    rw [hes] at hput
    exact hput.symm

theorem setup_atop (query : List (String × String)) :
    setup (u.atop w) (i.atop w) query = ((setup u i query).1.atop w, (setup u i query).2.atop w) := by
  have htexts : renumbered (.behind w.store) (putAll [] (query.map fun (key, t) => (key, Value.text t)))
      = _ := putAll_texts_renumbered query rfl
  unfold setup
  generalize putAll [] (query.map fun (key, t) => (key, Value.text t)) = entries at htexts ⊢
  have hdict := (Transfer.behind w.store).newDict u.store entries
  have href := (Transfer.behind w.store).newRef (u.store.newDict entries).2
    (u.store.newDict entries).1
  rw [htexts] at hdict
  dsimp only [World.atop, Transport.world, Transport.behind]
  rw [hdict]
  dsimp only
  rw [href]
  rfl

end Interpreter

/-- What shows of a run: what was written, what is in open buffers or was
collected, what went wrong, the result, and the variables of the program. -/
structure Outcome where
  written : String
  buffers : List String
  returned : Option String
  fault? : Option Fault
  result : Option (Except Fault String)
  bindings : List (String × Except Fault String)
  steps : Nat

/-- The outcome, after something was written. -/
def Outcome.after (text : String) (o : Outcome) : Outcome :=
  { o with written := text ++ o.written }

/-- The variables of the program and what is read off their values. -/
def Machine.contents {α : Type} (read : Store → Value → Except Fault α) (m : Machine) :
    List (String × Except Fault α) :=
  m.mainFrame.code.varNames.map fun name => (name, do
    read m.world.store (← m.mainFrame.load (m.mainFrame.code.slotOf name)))

/-- The variables of the program and what their values show. -/
def Machine.bindings (m : Machine) : List (String × Except Fault String) :=
  m.contents Store.displayOf

/-- What shows of a run in the end. -/
def Run.outcome (r : Run) : Outcome where
  written := r.world.written
  buffers := r.interpreter.buffers
  returned := r.returned
  fault? := r.ending.fault?
  result := match r.ending with
    | .finished v => some (r.world.store.displayOf v)
    | _ => none
  bindings := (r.course.map fun (_, last) => last.bindings).getD []
  steps := (r.course.map fun (_, last) => last.steps).getD 0

theorem Transport.mainFrame_machine {ρ : Renumbering} (T : Transport ρ) (m : Machine) :
    (T.machine m).mainFrame = m.mainFrame.renumbered ρ := by
  have hlast : ∀ (as : List Activation) (a : Activation),
      (as.map (·.renumbered ρ)).getLastD (a.renumbered ρ) = (as.getLastD a).renumbered ρ := by
    intro as
    induction as with
    | nil => exact fun _ => rfl
    | cons b bs ih =>
      intro a
      rw [map_cons, getLastD_cons, getLastD_cons, ih]
  exact congrArg Activation.frame (hlast m.callers m.current)

theorem Transport.contents_machine {α : Type} {read : Store → Value → Except Fault α}
    (hread : Store.Numberless read) {ρ : Renumbering} (T : Transport ρ) (m : Machine) :
    (T.machine m).contents read = m.contents read := by
  rw [contents, contents, mainFrame_machine]
  refine map_congr_left fun name _ => congrArg (Prod.mk name) ?_
  have hload : (m.mainFrame.renumbered ρ).load
      ((m.mainFrame.renumbered ρ).code.slotOf name) = _ := Frame.load_renumbered _
  rw [hload]
  show _ = m.mainFrame.load ((m.mainFrame.renumbered ρ).code.slotOf name) >>= _
  cases m.mainFrame.load ((m.mainFrame.renumbered ρ).code.slotOf name) with
  | error e => rfl
  | ok v => exact hread T.toTransfer m.world.store v

theorem Machine.bindings_atop : (m.atop w).bindings = m.bindings :=
  Transport.contents_machine Store.numberless_displayOf _ m

theorem Run.outcome_atop {r : Run} : (r.atop w).outcome = r.outcome.after w.written := by
  obtain ⟨world, interpreter, ending, course, returned⟩ := r
  have hresult : ∀ v : Value, (world.atop w).store.displayOf (v.renumbered (.behind w.store))
      = world.store.displayOf v := (Transfer.behind w.store).displayOf
  cases course with
  | none =>
    cases ending with
    | finished v => simp only [outcome, atop, Outcome.after, Ending.renumbered, hresult]; rfl
    | failed fault | outOfFuel => rfl
  | some course =>
    cases ending with
    | finished v =>
      simp only [outcome, atop, Outcome.after, Ending.renumbered, hresult, Option.map_some,
        bindings_atop]
      rfl
    | failed fault | outOfFuel =>
      simp only [outcome, atop, Outcome.after, Ending.renumbered, Option.map_some, bindings_atop]
      rfl

end PageScript
