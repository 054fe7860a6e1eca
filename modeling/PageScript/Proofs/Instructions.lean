/-
What instructions do to the operand stack.

Most instructions take operands off the stack, compute a value from them by a
quiet action, and put it on the stack: `Instr.operation?` says which action,
and `Instr.performs` that this is all they do.  The others have a lemma each.
-/
import Mathlib.Data.List.Basic
import PageScript.Proofs.Actions

open EStateM (Result)

namespace PageScript

open Exec List EStateM Store Instr

variable {S : Situation} {k : Control}

/-- An operation on the topmost operands, given from the bottom; its result
takes their place. -/
structure Operation where
  takes : Nat
  result : List Value → Exec Value

def Instr.operation? {L : Type} : Instr L Bytecode → Option Operation
  | .loadNamedConstant name => some ⟨0, fun _ => do
      match (← get).world.constants.get? name with
      | some v => return v
      | none => throw (.complaint (.undefinedConstant name))⟩
  | .loadVar slot name => some ⟨0, fun _ => requireVariable slot name⟩
  | .loadRef slot _ => some ⟨0, fun _ => getReference slot⟩
  | .loadFunction name => some ⟨0, fun _ => do
      match (← get).interpreter.functions.get? name with
      | some f => return f
      | none => throw (.complaint (.undefinedFunction name))⟩
  | .loadNull => some ⟨0, fun _ => return .null⟩
  | .loadBoolean value => some ⟨0, fun _ => return .bool value⟩
  | .stringSubstitution count => some ⟨count.toNat + 1, fun vs =>
      fromStore (·.substitute (vs.getLastD .unset) vs.dropLast)⟩
  | .loadArray count => some ⟨count.toNat, newList⟩
  | .loadConstant place => some ⟨0, fun _ => constantAt place⟩
  | .loadMember => some ⟨2, fun
      | [key, array] => fromStore (·.getMember array key)
      | _ => throw .checkFailed⟩
  | .loadMemberVar slot name => some ⟨1, fun
      | [key] => do
        let array ← requireVariable slot name
        fromStore (·.getMember array key)
      | _ => throw .checkFailed⟩
  | .storeMember => some ⟨3, fun
      | [v, key, array] => onStore (·.putMember array key v)
      | _ => throw .checkFailed⟩
  | .storeMemberVar slot name => some ⟨2, fun
      | [v, key] => do
        let array ← requireVariable slot name
        let array ← onStore (·.putMember array key v)
        storeVariable slot array
        return array
      | _ => throw .checkFailed⟩
  | .assign slot _ => some ⟨1, fun
      | [v] => do
        storeVariable slot v
        return v
      | _ => throw .checkFailed⟩
  | .loadIterator => some ⟨1, fun
      | [array] => onStore (·.iterate array)
      | _ => throw .checkFailed⟩
  | .print => some ⟨1, fun
      | [v] => do
        output (← textOf v)
        return v
      | _ => throw .checkFailed⟩
  | .binary op => some ⟨2, fun
      | [left, right] => op.evaluate left right
      | _ => throw .checkFailed⟩
  | .unary op => some ⟨1, fun
      | [v] => ofExcept (op.evaluate v)
      | _ => throw .checkFailed⟩
  | .declareFunction _ _ => none
  | .discardTop => none
  | .dup => none
  | .jump _ _ => none
  | .nextIterator => none
  | .returnTop => none
  | .call _ => none

variable {L : Type}

/-- What is done with the result of an operation. -/
def deliver (v : Value) : Exec (Flow L) := do
  push v
  return .next

theorem run_deliver_ok {v : Value} (h : k.stack.length < k.capacity) :
    (deliver v : Exec (Flow L)).run (S.under k)
      = .ok .next (S.under { k with stack := v :: k.stack }) := by
  rw [deliver, run_bind, run_push, if_pos h]
  rfl

theorem run_deliver_full {v : Value} (h : ¬k.stack.length < k.capacity) :
    ∃ e m, (deliver v : Exec (Flow L)).run (S.under k) = .error e m := by
  rw [deliver, run_bind, run_push, if_neg h]
  exact ⟨_, _, rfl⟩

/-- What an operation does when its operands are on the stack: it delivers its
result below them.  What a failure leaves on the stack is not said. -/
def Performs (i : Instr L Bytecode) (o : Operation) : Prop :=
  ∀ (S : Situation) (k : Control) (vs s : List Value), k.stack = vs.reverse ++ s →
    vs.length = o.takes → k.stack.length ≤ k.capacity →
    match (o.result vs).seen S with
    | .ok v T => i.exec.run (S.under k) = (deliver v).run (T.under { k with stack := s })
    | .error e T => ∃ s', i.exec.run (S.under k) = .error e (T.under { k with stack := s' })

theorem Exec.Blind.delivers {a : Exec Value} (ha : Blind a) (S : Situation) (k : Control) :
    match a.seen S with
    | .ok v T => (a >>= deliver : Exec (Flow L)).run (S.under k) = (deliver v).run (T.under k)
    | .error e T => ∃ s, (a >>= deliver : Exec (Flow L)).run (S.under k)
        = .error e (T.under { k with stack := s }) := by
  rw [run_bind, ha]
  cases a.seen S with
  | ok v T => rfl
  | error e T => exact ⟨k.stack, rfl⟩

theorem Performs.of_run {i : Instr L Bytecode} {o : Operation} (ho : ∀ vs, Blind (o.result vs))
    (h : ∀ (S : Situation) (k : Control) (vs s : List Value), vs.length = o.takes →
      i.exec.run (S.under { k with stack := vs.reverse ++ s })
        = (o.result vs >>= deliver).run (S.under { k with stack := s })) :
    Performs i o := by
  intro S k vs s hstack hlength _
  have hk : k = { k with stack := vs.reverse ++ s } := by rw [← hstack]
  rw [hk, h S k vs s hlength]
  exact (ho vs).delivers S _

theorem Instr.operation_quiet {i : Instr L Bytecode} {o : Operation} (h : i.operation? = some o)
    (vs : List Value) : Quiet (o.result vs) := by
  have hput : ∀ array key v, Quiet (onStore (·.putMember array key v)) :=
    fun _ _ _ => .onStore fun _ _ _ => putMember_codes
  cases i <;> cases h
  case loadNamedConstant name =>
    refine .of_situation (fun S => match S.world.constants.get? name with
      | some v => pure v
      | none => throw (.complaint (.undefinedConstant name))) (fun S => ?_) fun _ => rfl
    split
    · exact .pure _
    · exact .throw _
  case loadFunction name =>
    refine .of_situation (fun S => match S.interpreter.functions.get? name with
      | some f => pure f
      | none => throw (.complaint (.undefinedFunction name))) (fun S => ?_) fun _ => rfl
    split
    · exact .pure _
    · exact .throw _
  -- The others are made of actions that are quiet, one by one.
  all_goals
    try dsimp only
    try split
  all_goals first
    | exact .throw _
    | exact .pure _
    | exact .ofExcept _
    | exact .fromStore _
    | exact .requireVariable _ _
    | exact .getReference _
    | exact .newList _
    | exact .constantAt _
    | exact .operator _ _ _
    | exact hput _ _ _
    | exact .onStore fun _ _ _ => iterate_codes
    | exact .bind (.storeVariable _ _) fun _ => .pure _
    | exact .bind (.textOf _) fun _ => .bind (.output _) fun _ => .pure _
    | exact .bind (.requireVariable _ _) fun _ => .fromStore _
    | exact .bind (.requireVariable _ _) fun _ => .bind (hput _ _ _) fun _ =>
        .bind (.storeVariable _ _) fun _ => .pure _

theorem Exec.run_popN_reverse {n : Int} {vs s : List Value}
    (hstack : k.stack = vs.reverse ++ s) (hlength : vs.length = n.toNat) :
    (Exec.popN n).run (S.under k) = .ok vs (S.under { k with stack := s }) := by
  rw [run_popN, if_pos (by simp [hstack, hlength])]
  simp [hstack, ← hlength]

/-- An instruction with an operation performs it. -/
theorem Instr.performs {i : Instr L Bytecode} {o : Operation} (h : i.operation? = some o) :
    Performs i o := by
  have hblind := fun vs => (operation_quiet h vs).blind
  cases i <;> cases h
  case print =>
    intro S k vs s hstack hlength hroom
    obtain ⟨v, rfl⟩ := length_eq_one_iff.1 hlength
    have hprint : Blind (textOf v >>= output) :=
      (Quiet.bind (.textOf v) fun _ => .output _).blind
    have hexec : (Instr.print : Instr L Bytecode).exec
        = top >>= fun v => (textOf v >>= output) >>= fun _ => pure .next := by
      simp only [exec, bind_assoc]
    have hresult : (do output (← textOf v); return v)
        = (textOf v >>= output) >>= fun _ => pure v := by
      simp only [bind_assoc]
    obtain ⟨_, capacity, stack, _, _, _, _⟩ := k
    subst hstack
    have hlt : s.length < capacity := hroom
    simp only [hresult, hprint.seen_bind, hexec, run_bind, run_top, hprint _ _,
      reverse_singleton, singleton_append]
    cases (textOf v >>= output).seen S with
    | ok _ T =>
      show _ = (deliver v).run (T.under _)
      rw [run_deliver_ok hlt]
      rfl
    | error e T => exact ⟨_, rfl⟩
  case loadMemberVar slot name =>
    intro S k vs s hstack hlength hroom
    obtain ⟨key, rfl⟩ := length_eq_one_iff.1 hlength
    obtain ⟨code, capacity, _, pos, callers, steps, fault⟩ := k
    subst hstack
    have hvariable := (Quiet.requireVariable slot name).blind
    simp only [hvariable.seen_bind, exec, run_bind, hvariable _ _]
    cases (requireVariable slot name).seen S with
    | ok array T =>
      exact (Quiet.fromStore (·.getMember array key)).blind.delivers T
        ⟨code, capacity, s, pos, callers, steps, fault⟩
    | error e T => exact ⟨_, rfl⟩
  case storeMemberVar slot name =>
    intro S k vs s hstack hlength hroom
    obtain ⟨v, key, rfl⟩ := length_eq_two.1 hlength
    obtain ⟨_, capacity, _, _, _, _, _⟩ := k
    subst hstack
    have hlt : s.length < capacity := Nat.lt_of_succ_lt hroom
    have hvariable := (Quiet.requireVariable slot name).blind
    simp only [hvariable.seen_bind, exec, run_bind, hvariable _ _]
    cases (requireVariable slot name).seen S with
    | error e T => exact ⟨_, rfl⟩
    | ok array T =>
      have hput : Blind (onStore (·.putMember array key v)) :=
        (Quiet.onStore fun _ _ _ => putMember_codes).blind
      simp only [mapState, run_pop, reverse_cons, reverse_nil, nil_append,
        cons_append, hput.seen_bind, hput _ _]
      cases (onStore (·.putMember array key v)).seen T with
      | error e U => exact ⟨_, rfl⟩
      | ok array U =>
        have hstore := (Quiet.storeVariable slot array).blind
        simp only [hstore.seen_bind, run_push, if_pos hlt, hstore _ _]
        cases (storeVariable slot array).seen U with
        | error e V => exact ⟨_, rfl⟩
        | ok _ V =>
          show _ = (deliver array).run (V.under _)
          rw [run_deliver_ok hlt]
          rfl
  all_goals refine .of_run hblind fun S k vs s hlength => ?_
  case loadNamedConstant name =>
    obtain rfl := length_eq_zero_iff.1 hlength
    have hlook : ∀ k, (S.under k).world.constants = S.world.constants := fun _ => rfl
    simp only [exec, run_bind, run_get, hlook]
    cases S.world.constants.get? name <;> rfl
  case loadFunction name =>
    obtain rfl := length_eq_zero_iff.1 hlength
    have hlook : ∀ k, (S.under k).interpreter.functions = S.interpreter.functions := fun _ => rfl
    simp only [exec, run_bind, run_get, hlook]
    cases S.interpreter.functions.get? name <;> rfl
  case loadVar | loadRef | loadNull | loadBoolean | loadConstant =>
    obtain rfl := length_eq_zero_iff.1 hlength
    rfl
  case loadIterator | unary =>
    obtain ⟨v, rfl⟩ := length_eq_one_iff.1 hlength
    rfl
  case assign =>
    obtain ⟨v, rfl⟩ := length_eq_one_iff.1 hlength
    simp only [bind_assoc, pure_bind]
    rfl
  case loadMember | binary =>
    obtain ⟨v, w, rfl⟩ := length_eq_two.1 hlength
    rfl
  case storeMember =>
    obtain ⟨v, w, u, rfl⟩ := length_eq_three.1 hlength
    rfl
  case loadArray count =>
    have hpop : (Exec.popN count).run (S.under { k with stack := vs.reverse ++ s })
        = .ok vs (S.under { k with stack := s }) := run_popN_reverse rfl hlength
    simp only [exec, run_bind, hpop]
    rfl
  case stringSubstitution count =>
    obtain rfl | ⟨fillers, template, rfl⟩ := eq_nil_or_concat vs
    · cases hlength
    have hcount : fillers.length = count.toNat := by simpa using hlength
    have hrest : (fillers ++ [template]).reverse ++ s = template :: (fillers.reverse ++ s) := by simp
    have hpop : (Exec.popN count).run (S.under { k with stack := fillers.reverse ++ s })
        = .ok fillers (S.under { k with stack := s }) := run_popN_reverse rfl hcount
    simp only [exec, run_bind, run_pop, hrest, hpop, concat_eq_append,
      getLastD_concat, dropLast_concat]
    rfl

/-! ### The other instructions -/

section

variable {S : Situation} {k : Control} {v w : Value} {s : List Value} {target : L}

theorem Instr.exec_discardTop (h : k.stack = v :: s) :
    (discardTop : Instr L Bytecode).exec.run (S.under k)
      = .ok .next (S.under { k with stack := s }) := by
  simp only [exec, run_bind, run_pop, h, run_pure]

theorem Instr.exec_dup (h : k.stack = v :: s) :
    (dup : Instr L Bytecode).exec.run (S.under k) = (deliver v).run (S.under k) := by
  simp only [exec, run_bind, run_top, h]
  rfl

theorem Instr.exec_returnTop (h : k.stack = v :: s) :
    (returnTop : Instr L Bytecode).exec.run (S.under k)
      = .ok (.leave v) (S.under { k with stack := s }) := by
  simp only [exec, run_bind, run_pop, h, run_pure]

theorem Instr.exec_jump :
    (jump .always target : Instr L Bytecode).exec.run (S.under k)
      = .ok (.jump target) (S.under k) := rfl

/-- The truth value on which a jump is taken, and whether it keeps the value then. -/
def Jump.onTruth? : Jump → Option (Bool × Bool)
  | .ifFalse => some (false, false)
  | .ifFalseKeep => some (false, true)
  | .ifTrueKeep => some (true, true)
  | _ => none

theorem Instr.exec_jump_onTruth {kind : Jump} {sense keeps : Bool}
    (hkind : kind.onTruth? = some (sense, keeps)) (h : k.stack = v :: s) :
    (jump kind target : Instr L Bytecode).exec.run (S.under k) = match v.isTrue with
      | .ok c =>
        if c = sense then
          .ok (.jump target) (S.under { k with stack := if keeps then k.stack else s })
        else .ok .next (S.under { k with stack := s })
      | .error e => .error e (S.under { k with stack := if keeps then k.stack else s }) := by
  obtain ⟨_, _, _, _, _, _, _⟩ := k
  subst h
  cases kind <;> cases hkind <;>
    simp only [exec, Jump.taken, run_bind, run_pop, run_top] <;>
    rcases v.isTrue with e | (_ | _) <;> rfl

/-- Whether an iteration is at its end. -/
def Store.finished (store : Store) : Value → Except Fault Bool
  | .cursor id => .ok ((store.cursor id).index = (store.cursor id).stop)
  | _ => .error .noOperation

theorem Instr.exec_jump_ifIteratorEmpty (h : k.stack = v :: w :: s)
    (hroom : k.stack.length ≤ k.capacity) :
    (jump .ifIteratorEmpty target : Instr L Bytecode).exec.run (S.under k)
      = match S.world.store.finished w with
        | .ok true => .ok (.jump target) (S.under { k with stack := v :: s })
        | .ok false => .ok .next (S.under { k with stack := w :: s })
        | .error e => .error e (S.under { k with stack := w :: s }) := by
  obtain ⟨_, capacity, _, _, _, _, _⟩ := k
  subst h
  have hlt : s.length < capacity := Nat.lt_of_succ_lt hroom
  cases w with
  | cursor id =>
    have hcursor : ∀ k, (S.under k).world.store.cursor id = S.world.store.cursor id := fun _ => rfl
    simp only [exec, Jump.taken, run_bind, run_pop, run_top, run_get,
      finished, hcursor]
    by_cases hend : (S.world.store.cursor id).index = (S.world.store.cursor id).stop
    · simp only [if_pos hend, run_bind, run_pop, run_push, if_pos hlt, decide_eq_true hend]
      rfl
    · simp only [if_neg hend, decide_eq_false hend]
      rfl
  | _ => rfl

/-- The element an iteration stands at and its key; the iteration goes on. -/
def Exec.fetch (iteration : Value) : Exec (Value × Value) :=
  match iteration with
  | .cursor id => do
    let c := (← get).world.store.cursor id
    let element ← fromStore (·.currentElement c)
    let _ ← onStore (·.nextElement id)
    return (element, .text (currentKey c))
  | .hollow .cursor => throw .noOperation
  | _ => throw .checkFailed

theorem Exec.Quiet.fetch (iteration : Value) : Quiet (fetch iteration) := by
  cases iteration with
  | cursor id =>
    refine .of_situation (fun S => do
      let element ← Exec.fromStore (·.currentElement (S.world.store.cursor id))
      let _ ← Exec.onStore (·.nextElement id)
      return (element, .text (currentKey (S.world.store.cursor id)))) (fun S => ?_)
      fun _ => rfl
    exact .bind (.fromStore _) fun _ =>
      .bind (.onStore fun _ _ _ => nextElement_codes) fun _ => .pure _
  | hollow kind => cases kind <;> exact .throw _
  | _ => exact .throw _

theorem run_fromStore {α : Type} (f : Store → Except Fault α) (S : Situation) (k : Control) :
    (fromStore f).run (S.under k) = match f S.world.store with
      | .ok r => .ok r (S.under k)
      | .error e => .error e (S.under k) :=
  run_ofExcept (f S.world.store) (S.under k)

theorem Instr.exec_nextIterator (h : k.stack = w :: s) (hroom : s.length + 3 ≤ k.capacity) :
    match (fetch w).seen S with
    | .ok (element, key) T => (nextIterator : Instr L Bytecode).exec.run (S.under k)
        = .ok .next (T.under { k with stack := key :: element :: w :: s })
    | .error e T => ∃ s', (nextIterator : Instr L Bytecode).exec.run (S.under k)
        = .error e (T.under { k with stack := s' }) := by
  obtain ⟨_, capacity, _, _, _, _, _⟩ := k
  subst h
  have hone : (w :: s).length < capacity := Nat.lt_of_succ_lt hroom
  have htwo : ∀ v, (v :: w :: s).length < capacity := fun _ => hroom
  cases w with
  | cursor id =>
    have hstore : ∀ k, (S.under k).world.store = S.world.store := fun _ => rfl
    simp only [fetch, seen, exec, Exec.advance, run_bind, run_top, run_get,
      run_fromStore, hstore]
    cases helement : S.world.store.currentElement (S.world.store.cursor id) with
    | error e => exact ⟨_, rfl⟩
    | ok element =>
      -- The element is there, so going on cannot fail.
      have hnext : S.world.store.nextElement id = .ok (element, S.world.store.setCursor id
          { S.world.store.cursor id with index := (S.world.store.cursor id).index + 1 }) := by
        simp only [nextElement, helement]
        rfl
      simp only [run_push, if_pos hone, if_pos (htwo _), run_onStore, hstore, hnext]
      rfl
  | hollow kind => cases kind <;> exact ⟨_, rfl⟩
  | _ => exact ⟨_, rfl⟩

theorem Instr.exec_nextIterator_full (h : k.stack = w :: s) (hroom : k.capacity < s.length + 3) :
    ∃ e m, (nextIterator : Instr L Bytecode).exec.run (S.under k) = .error e m := by
  obtain ⟨_, capacity, _, _, _, _, _⟩ := k
  subst h
  cases w with
  | cursor id =>
    simp only [exec, Exec.advance, run_bind, run_top, run_get,
      run_fromStore]
    cases S.world.store.currentElement _ with
    | error e => exact ⟨_, _, rfl⟩
    | ok element =>
      by_cases hone : s.length + 1 < capacity
      · have htwo : ¬s.length + 1 + 1 < capacity := by
          dsimp only at hroom
          omega
        simp only [run_push, length_cons, if_pos hone, if_neg htwo]
        exact ⟨_, _, rfl⟩
      · simp only [run_push, length_cons, if_neg hone]
        exact ⟨_, _, rfl⟩
  | hollow kind => cases kind <;> exact ⟨_, _, rfl⟩
  | _ => exact ⟨_, _, rfl⟩

variable {args : List Value} {count : Int}

theorem Instr.exec_call (h : k.stack = v :: (args.reverse ++ s))
    (hargs : args.length = count.toNat) (hv : v.isFunction = true) :
    (call count : Instr L Bytecode).exec.run (S.under k)
      = (callFunction v args).run (S.under { k with stack := s }) := by
  have hcheck : ∀ m, (check true).run m = .ok () m := fun _ => rfl
  have hpop : (Exec.popN count).run (S.under { k with stack := args.reverse ++ s })
      = .ok args (S.under { k with stack := s }) := run_popN_reverse rfl hargs
  simp only [exec, run_bind, run_pop, h, hv, hcheck, hpop]

theorem Instr.exec_call_native {g : Native} (h : k.stack = .native g :: (args.reverse ++ s))
    (hargs : args.length = count.toNat) :
    (call count : Instr L Bytecode).exec.run (S.under k)
      = (g.call args >>= deliver).run (S.under { k with stack := s }) :=
  exec_call h hargs rfl

theorem Instr.exec_call_code {id : Nat} (h : k.stack = .code id :: (args.reverse ++ s))
    (hargs : args.length = count.toNat) :
    (call count : Instr L Bytecode).exec.run (S.under k)
      = match (enterFunction (S.world.store.code id) args).seen S with
        | .ok frame T => .ok (.enter frame) (T.under { k with stack := s })
        | .error e T => .error e (T.under { k with stack := s }) := by
  rw [exec_call h hargs rfl]
  show (enterFunction (S.world.store.code id) args >>= fun frame => pure (Flow.enter frame)).run
    (S.under { k with stack := s }) = _
  rw [run_bind, (Quiet.enterFunction _ _).blind]
  cases (enterFunction (S.world.store.code id) args).seen S <;> rfl

/-- What is wrong with a call of something that is neither native nor has
code. -/
def Value.uncallable (f : Value) : Fault := if f.isFunction then .noOperation else .checkFailed

theorem Instr.exec_call_uncallable (h : k.stack = v :: (args.reverse ++ s))
    (hargs : args.length = count.toNat) (hnative : ∀ g, v ≠ .native g) (hcode : ∀ id, v ≠ .code id) :
    ∃ s', (call count : Instr L Bytecode).exec.run (S.under k)
      = .error v.uncallable (S.under { k with stack := s' }) := by
  by_cases hv : v.isFunction = true
  · refine ⟨s, ?_⟩
    rw [exec_call h hargs hv, Value.uncallable, if_pos hv]
    cases v with
    | native g => exact absurd rfl (hnative g)
    | code id => exact absurd rfl (hcode id)
    | _ => rfl
  · refine ⟨args.reverse ++ s, ?_⟩
    have hfalse : v.isFunction = false := by simpa using hv
    simp only [exec, run_bind, run_pop, h, Value.uncallable, hfalse]
    rfl

end

/-! ### How many operands an instruction takes and leaves -/

def Jump.needs : Jump → Nat
  | .always => 0
  | .ifIteratorEmpty => 2
  | _ => 1

/-- How many of them a jump leaves if it is not taken. -/
def Jump.leaves : Jump → Nat
  | .ifIteratorEmpty => 1
  | _ => 0

def Jump.leavesTaken : Jump → Nat
  | .always => 0
  | .ifFalse => 0
  | _ => 1

/-- How many operands an instruction looks at. -/
def Instr.needs (i : Instr L Bytecode) : Nat :=
  match i.operation? with
  | some o => o.takes
  | none =>
    match i with
    | .discardTop => 1
    | .dup => 1
    | .jump kind _ => kind.needs
    | .nextIterator => 1
    | .returnTop => 1
    | .call count => count.toNat + 1
    | _ => 0

/-- How many operands are in their place where the next instruction starts. -/
def Instr.leaves (i : Instr L Bytecode) : Nat :=
  match i.operation? with
  | some _ => 1
  | none =>
    match i with
    | .dup => 2
    | .jump kind _ => kind.leaves
    | .nextIterator => 3
    | .call _ => 1
    | _ => 0

theorem Instr.needs_of_operation {i : Instr L Bytecode} {o : Operation}
    (h : i.operation? = some o) : i.needs = o.takes := by
  cases i <;> cases h <;> rfl

theorem Instr.leaves_of_operation {i : Instr L Bytecode} {o : Operation}
    (h : i.operation? = some o) : i.leaves = 1 := by
  cases i <;> cases h <;> rfl

/-! ### Steps -/

namespace Machine

def tick (m : Machine) : Machine := { m with steps := m.steps + 1 }

def ticked (m : Machine) : Control := { m.control with steps := m.steps + 1 }

theorem tick_eq (m : Machine) : m.tick = m.situation.under m.ticked := by
  conv_lhs => rw [← m.situation_under_control]
  rfl

/-- How the machine goes on from a position. -/
def proceed (pos : Nat) : Flow Nat → Exec Progress
  | .next => do
    goTo (pos + 1)
    return .running
  | .jump target => do
    goTo target
    return .running
  | .enter frame => do
    enter frame
    return .running
  | .leave v => leave v

def next? (m : Machine) : Option (Instr Nat Bytecode) :=
  m.current.frame.code.code[m.current.pos]?

theorem step_of_some {m : Machine} {i : Instr Nat Bytecode} (h : m.next? = some i) :
    step.run m = match i.exec.run m.tick with
      | .ok flow m' => (proceed m.current.pos flow).run m'
      | .error e m' => .error e m' := by
  simp only [step, run_bind, run_modify, run_get]
  have htick : { m with steps := m.steps + 1 } = m.tick := rfl
  rw [next?] at h
  rw [htick, h]
  simp only [run_bind]
  cases i.exec.run m.tick with
  | ok flow m' => cases flow <;> rfl
  | error e m' => rfl

theorem step_of_none {m : Machine} (h : m.next? = none) :
    step.run m = (leave .unset).run m.tick := by
  simp only [step, run_bind, run_modify, run_get]
  have htick : { m with steps := m.steps + 1 } = m.tick := rfl
  rw [next?] at h
  rw [htick, h]

end Machine

end PageScript
