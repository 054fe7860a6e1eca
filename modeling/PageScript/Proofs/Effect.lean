/-
What instructions do to the depth of the operand stack.

With enough operands on the stack and room for the results, an instruction changes the
depth as `needs` and `leaves` say, or fails for another reason (`Instr.exec_effect`).
It also says which functions there are afterwards and what a called function starts
with.
-/
import PageScript.Proofs.Instructions

open EStateM (Result)

namespace PageScript

open Exec List Instr

variable {m m' : Machine} {args : List Value} {code : Bytecode} {T : Situation}

/-! ### The frame of a called function -/

namespace Frame

variable {f g h : Frame} {s t : Store} {slot : Int} {v r : Value}

/-- Two frames of the same code with the same operands. -/
structure Alike (f g : Frame) : Prop where
  code : f.code = g.code
  capacity : f.capacity = g.capacity
  stack : f.stack = g.stack

theorem Alike.refl (f : Frame) : f.Alike f := ⟨rfl, rfl, rfl⟩

theorem Alike.trans (hfg : f.Alike g) (hgh : g.Alike h) : f.Alike h :=
  ⟨hfg.code.trans hgh.code, hfg.capacity.trans hgh.capacity, hfg.stack.trans hgh.stack⟩

theorem store_alike (h : f.store slot v = .ok g) : g.Alike f := by
  unfold store at h
  split at h
  · cases h
  · split at h <;> cases h
    exact ⟨rfl, rfl, rfl⟩

theorem Puts.alike {content : Value → Prop} (h : f.Puts s slot v content g t) : g.Alike f := by
  cases h with
  | cell => exact .refl f
  | slot _ _ hstore => exact store_alike hstore

theorem storeVariable_alike (h : f.storeVariable s slot v = .ok (g, t)) : g.Alike f :=
  (puts_of_storeVariable h).alike

theorem setReference_alike (h : f.setReference s slot r = .ok (g, t)) : g.Alike f := by
  obtain ⟨_, -, hputs⟩ := puts_of_setReference h
  exact hputs.alike

end Frame

namespace Exec

section

variable {α : Type} {m m' : Machine} {r : α}

theorem ok_of_run_ofExcept {x : Except Fault α} (h : (ofExcept x : Exec α).run m = .ok r m') :
    x = .ok r := by
  rw [run_ofExcept] at h
  cases x <;> cases h
  rfl

theorem ok_of_run_fromStore {f : Store → Except Fault α} (h : (fromStore f).run m = .ok r m') :
    f m.world.store = .ok r ∧ m' = m := by
  obtain ⟨_, _, hget, h⟩ := ok_of_run_bind h
  cases hget
  rw [run_ofExcept] at h
  split at h <;> cases h
  exact ⟨‹_›, rfl⟩

theorem store_of_run_onStore {f : Store → Except Fault (α × Store)}
    (h : (onStore f).run m = .ok r m') :
    ∃ t, f m.world.store = .ok (r, t) ∧ m' = { m with world := { m.world with store := t } } := by
  rw [run_onStore] at h
  split at h <;> cases h
  exact ⟨_, ‹_›, rfl⟩

end

section

variable {m m' : Machine} {v : Value}

theorem ok_of_run_requireVariable {slot : Int} {name : String}
    (h : (requireVariable slot name).run m = .ok v m') :
    m.current.frame.getVariable m.world.store slot = .ok v ∧ m' = m := by
  obtain ⟨w, m₁, hget, h⟩ := ok_of_run_bind h
  obtain ⟨_, _, hstate, hget⟩ := ok_of_run_bind hget
  cases hstate
  rw [run_ofExcept] at hget
  split at hget <;> cases hget
  cases w <;> cases h <;> exact ⟨‹_›, rfl⟩

theorem ok_of_run_constantAt {place : Int} (h : (constantAt place).run m = .ok v m') :
    v ∈ m.current.frame.code.constants ∧ m' = m := by
  obtain ⟨_, _, hstate, h⟩ := ok_of_run_bind h
  cases hstate
  dsimp only at h
  split at h <;> cases h
  obtain ⟨n, -, hn⟩ := Option.bind_eq_some_iff.1 ‹_›
  exact ⟨Array.mem_of_getElem? hn, rfl⟩

end

section Bind

variable {P : Frame → Prop} {frame frame' : Frame} {m m' : Machine}

theorem of_bindParameters {i : Nat} {parameters : List (String × Bool)}
    (hstore : ∀ {f g s t slot v}, f.storeVariable s slot v = .ok (g, t) → P f → P g)
    (h : (bindParameters frame i args parameters).run m = .ok frame' m') (hframe : P frame) :
    P frame' := by
  induction parameters generalizing frame i args m with
  | nil =>
    rw [bindParameters] at h
    cases h
    exact hframe
  | cons parameter rest ih =>
    cases args with
    | nil => cases h
    | cons v args =>
      obtain ⟨w, m₁, -, h⟩ := ok_of_run_bind h
      obtain ⟨frame₁, m₂, hrun, h⟩ := ok_of_run_bind h
      obtain ⟨s, hrun, -⟩ := store_of_run_onStore hrun
      exact ih h (hstore hrun hframe)

theorem of_bindGlobals {globals : List (String × Int)}
    (hset : ∀ {f g s t slot r}, f.setReference s slot r = .ok (g, t) → P f → P g)
    (h : (bindGlobals frame globals).run m = .ok frame' m') (hframe : P frame) : P frame' := by
  induction globals generalizing frame m with
  | nil =>
    cases h
    exact hframe
  | cons named rest ih =>
    obtain ⟨r, m₁, -, h⟩ := ok_of_run_bind h
    obtain ⟨frame₁, m₂, hrun, h⟩ := ok_of_run_bind h
    obtain ⟨s, hrun, -⟩ := store_of_run_onStore hrun
    exact ih h (hset hrun hframe)

end Bind

theorem ok_of_run_check {holds : Bool} {u : Unit}
    (h : (check holds).run m = .ok u m') : holds = true ∧ m = m' := by
  cases holds <;> cases h
  exact ⟨rfl, rfl⟩

theorem ok_of_run_enterFunction {frame : Frame}
    (h : (enterFunction code args).run m = .ok frame m') :
    ∃ first second m₁, Frame.new m.interpreter.superglobals code = .ok first ∧
      (bindParameters first 0 args code.parameters).run m = .ok second m₁ ∧
      (bindGlobals second code.globals).run m₁ = .ok frame m' ∧ code.code.isEmpty = false := by
  obtain ⟨_, _, hget, h⟩ := ok_of_run_bind h
  cases hget
  obtain ⟨first, m₀, hnew, h⟩ := ok_of_run_bind h
  obtain ⟨second, m₁, hparameters, h⟩ := ok_of_run_bind h
  obtain ⟨third, m₂, hglobals, h⟩ := ok_of_run_bind h
  obtain ⟨_, m₃, hcheck, h⟩ := ok_of_run_bind h
  obtain ⟨hcode, rfl⟩ := ok_of_run_check hcheck
  cases h
  have hfirst := ok_of_run_ofExcept hnew
  rw [hfirst] at hnew
  cases hnew
  exact ⟨first, second, m₁, hfirst, hparameters, hglobals, by simpa using hcode⟩

theorem enterFunction_frame {frame : Frame} (h : (enterFunction code args).run m = .ok frame m') :
    frame.code = code ∧ frame.capacity = code.stackSize ∧ frame.stack = [] ∧
      code.code.isEmpty = false := by
  obtain ⟨first, second, m₁, hnew, hparameters, hglobals, hcode⟩ := ok_of_run_enterFunction h
  have hsecond : second.Alike first :=
    of_bindParameters (P := (·.Alike first)) (fun h hf => (Frame.storeVariable_alike h).trans hf)
      hparameters (.refl first)
  have halike : frame.Alike first :=
    of_bindGlobals (P := (·.Alike first)) (fun h hf => (Frame.setReference_alike h).trans hf)
      hglobals hsecond
  obtain ⟨slots, -, hfirst⟩ := ok_of_bind hnew
  cases hfirst
  exact ⟨halike.code, halike.capacity, halike.stack, hcode⟩

end Exec

theorem Exec.ok_of_seen {α : Type} {a : Exec α} {S : Situation} {r : α}
    (h : a.seen S = .ok r T) : ∃ m, a.run (S.under default) = .ok r m ∧ m.situation = T := by
  rw [seen] at h
  cases hrun : a.run (S.under default) with
  | error e m =>
    rw [hrun] at h
    cases h
  | ok r' m =>
    rw [hrun] at h
    cases h
    exact ⟨m, rfl, rfl⟩

theorem Exec.Quiet.seen_codes {α : Type} {a : Exec α} (ha : Quiet a) {S : Situation} {r : α}
    (h : a.seen S = .ok r T) : T.world.store.codes = S.world.store.codes := by
  obtain ⟨m, hrun, rfl⟩ := ok_of_seen h
  exact ha.codes hrun

/-! ### The effect of an instruction -/

variable {L : Type}

/-- The next instruction may be run after this one. -/
def Instr.fallsThrough : Instr L Bytecode → Bool
  | .jump .always _ => false
  | .returnTop => false
  | _ => true

/-- What an instruction has done that succeeds: from a situation and a control
it has led to another situation, and to another stack. -/
def Instr.Succeeds (i : Instr L Bytecode) (S : Situation) (k : Control) (T : Situation)
    (s : List Value) : Flow L → Prop
  | .next => i.fallsThrough ∧ s.length + i.needs = k.stack.length + i.leaves ∧
      (T.world.store.codes = S.world.store.codes ∨ ∃ name code, i = .declareFunction name code ∧
        T.world.store.codes = S.world.store.codes.push code)
  | .jump target => ∃ kind, i = .jump kind target ∧
      s.length + kind.needs = k.stack.length + kind.leavesTaken ∧
      T.world.store.codes = S.world.store.codes
  | .enter frame => ∃ count id, i = .call count ∧
      s.length + (count.toNat + 1) = k.stack.length ∧
      T.world.store.codes = S.world.store.codes ∧ frame.code = S.world.store.code id ∧
      frame.capacity = frame.code.stackSize ∧ frame.stack = [] ∧ frame.code.code.isEmpty = false
  | .leave _ => i = .returnTop ∧ s.length + 1 = k.stack.length ∧
      T.world.store.codes = S.world.store.codes

/-- An instruction that succeeds changes nothing but the situation and the
stack; one that fails does not do so for want of operands, nor for want of
room where there is enough of it. -/
def Instr.Sound (i : Instr L Bytecode) (S : Situation) (k : Control) :
    Result Fault Machine (Flow L) → Prop
  | .ok flow m => ∃ T s, m = T.under { k with stack := s } ∧ s.length ≤ k.capacity ∧
      i.Succeeds S k T s flow
  | .error _ m => k.stack.length + i.leaves ≤ k.capacity + i.needs → m.stackFault = k.stackFault

section

variable {i : Instr L Bytecode} {S : Situation} {k : Control}

theorem Instr.sound_deliver {s : List Value} {v : Value} (hi : i.fallsThrough)
    (hexec : i.exec.run (S.under k) = (deliver v).run (T.under { k with stack := s }))
    (hs : s.length + 1 + i.needs = k.stack.length + i.leaves)
    (hcodes : T.world.store.codes = S.world.store.codes) :
    i.Sound S k (i.exec.run (S.under k)) := by
  rw [hexec]
  by_cases hlt : s.length < k.capacity
  · rw [run_deliver_ok hlt]
    exact ⟨T, v :: s, rfl, hlt, hi, hs, .inl hcodes⟩
  · obtain ⟨e, m, hrun⟩ := run_deliver_full (L := L) (v := v) (S := T) (k := { k with stack := s }) hlt
    rw [hrun]
    intro hroom
    omega

theorem Instr.sound_operation {o : Operation} (ho : i.operation? = some o)
    (hneeds : i.needs ≤ k.stack.length) (hfull : k.stack.length ≤ k.capacity) :
    i.Sound S k (i.exec.run (S.under k)) := by
  have htakes := needs_of_operation ho
  have hleaves := leaves_of_operation ho
  have hthrough : i.fallsThrough = true := by cases i <;> first | rfl | cases ho
  obtain ⟨vs, s, hstack, hvs⟩ : ∃ vs s : List Value, k.stack = vs.reverse ++ s ∧
      vs.length = o.takes := by
    refine ⟨(k.stack.take o.takes).reverse, k.stack.drop o.takes, ?_, ?_⟩
    · rw [reverse_reverse, take_append_drop]
    · rw [length_reverse, length_take]
      omega
  have hlength : k.stack.length = vs.length + s.length := by
    rw [hstack, length_append, length_reverse]
  have hperforms := performs ho S k vs s hstack hvs hfull
  revert hperforms
  cases hseen : (o.result vs).seen S with
  | ok v T =>
    intro hexec
    exact sound_deliver hthrough hexec (by omega) ((operation_quiet ho vs).seen_codes hseen)
  | error e T =>
    rintro ⟨s', hexec⟩
    rw [hexec]
    exact fun _ => rfl

theorem Instr.sound_jump {kind : Jump} {target : L} (hneeds : kind.needs ≤ k.stack.length)
    (hfull : k.stack.length ≤ k.capacity) :
    (jump kind target : Instr L Bytecode).Sound S k
      ((jump kind target : Instr L Bytecode).exec.run (S.under k)) := by
  -- No jump leaves more than it finds.
  have hlength : ∀ {v : Value} {s : List Value}, k.stack = v :: s → s.length ≤ k.capacity := by
    intro v s hstack
    rw [hstack] at hfull
    exact Nat.le_of_succ_le hfull
  cases kind with
  | always => exact ⟨S, k.stack, rfl, hfull, .always, rfl, rfl, rfl⟩
  | ifFalse =>
    obtain ⟨v, s, hstack⟩ := exists_cons_of_length_pos hneeds
    rw [exec_jump_onTruth rfl hstack]
    rcases v.isTrue with e | (_ | _)
    · exact fun _ => rfl
    · exact ⟨S, s, rfl, hlength hstack, .ifFalse, rfl, by rw [hstack]; rfl, rfl⟩
    · exact ⟨S, s, rfl, hlength hstack, rfl, by rw [hstack]; rfl, .inl rfl⟩
  | ifFalseKeep =>
    obtain ⟨v, s, hstack⟩ := exists_cons_of_length_pos hneeds
    rw [exec_jump_onTruth rfl hstack]
    rcases v.isTrue with e | (_ | _)
    · exact fun _ => rfl
    · exact ⟨S, k.stack, rfl, hfull, .ifFalseKeep, rfl, rfl, rfl⟩
    · exact ⟨S, s, rfl, hlength hstack, rfl, by rw [hstack]; rfl, .inl rfl⟩
  | ifTrueKeep =>
    obtain ⟨v, s, hstack⟩ := exists_cons_of_length_pos hneeds
    rw [exec_jump_onTruth rfl hstack]
    rcases v.isTrue with e | (_ | _)
    · exact fun _ => rfl
    · exact ⟨S, s, rfl, hlength hstack, rfl, by rw [hstack]; rfl, .inl rfl⟩
    · exact ⟨S, k.stack, rfl, hfull, .ifTrueKeep, rfl, rfl, rfl⟩
  | ifIteratorEmpty =>
    obtain ⟨v, rest, hrest⟩ := exists_cons_of_length_pos (Nat.lt_of_succ_lt hneeds)
    obtain ⟨w, s, rfl⟩ : ∃ w s, rest = w :: s := by
      rw [hrest] at hneeds
      exact exists_cons_of_length_pos (Nat.lt_of_succ_le (Nat.le_of_succ_le_succ hneeds))
    rw [exec_jump_ifIteratorEmpty hrest hfull]
    rcases S.world.store.finished w with e | (_ | _)
    · exact fun _ => rfl
    · exact ⟨S, w :: s, rfl, hlength hrest, rfl, by rw [hrest]; rfl, .inl rfl⟩
    · exact ⟨S, v :: s, rfl, hlength (s := w :: s) hrest, .ifIteratorEmpty, rfl, by rw [hrest]; rfl, rfl⟩

theorem Instr.sound_declareFunction {name : String} (hfull : k.stack.length ≤ k.capacity) :
    (declareFunction name code : Instr L Bytecode).Sound S k
      ((declareFunction name code : Instr L Bytecode).exec.run (S.under k)) := by
  have hfunctions : (S.under k).interpreter.functions = S.interpreter.functions := rfl
  simp only [exec, Exec.declareFunction, EStateM.run_bind, run_onStore, EStateM.run_get,
    pure, Except.pure, hfunctions]
  cases S.interpreter.functions.get? name with
  | some f => exact fun _ => rfl
  | none =>
    exact ⟨{ S with
      world := { S.world with store := (S.world.store.newCode code).2 }
      interpreter := { S.interpreter with
        functions := (name, (S.world.store.newCode code).1) :: S.interpreter.functions } },
      k.stack, rfl, hfull, rfl, rfl, .inr ⟨name, code, rfl, rfl⟩⟩

theorem Instr.sound_nextIterator (hneeds : 1 ≤ k.stack.length) :
    (nextIterator : Instr L Bytecode).Sound S k
      ((nextIterator : Instr L Bytecode).exec.run (S.under k)) := by
  obtain ⟨w, s, hstack⟩ := exists_cons_of_length_pos hneeds
  by_cases hroom : s.length + 3 ≤ k.capacity
  · have hexec := exec_nextIterator (L := L) (S := S) hstack hroom
    revert hexec
    cases hseen : (fetch w).seen S with
    | ok p T =>
      intro hexec
      rw [hexec]
      refine ⟨T, _, rfl, hroom, rfl, ?_, .inl ((Quiet.fetch w).seen_codes hseen)⟩
      rw [hstack]
      rfl
    | error e T =>
      rintro ⟨s', hexec⟩
      rw [hexec]
      exact fun _ => rfl
  · obtain ⟨e, m, hexec⟩ := exec_nextIterator_full (L := L) (S := S) hstack
      (Nat.lt_of_not_le hroom)
    rw [hexec]
    intro h
    rw [hstack] at h
    exact absurd (Nat.le_of_succ_le_succ h) hroom

theorem Instr.sound_call {count : Int} (hneeds : count.toNat + 1 ≤ k.stack.length)
    (hfull : k.stack.length ≤ k.capacity) :
    (call count : Instr L Bytecode).Sound S k
      ((call count : Instr L Bytecode).exec.run (S.under k)) := by
  obtain ⟨v, rest, hrest⟩ := exists_cons_of_length_pos (Nat.lt_of_lt_of_le (Nat.succ_pos _) hneeds)
  obtain ⟨args, s, rfl, hargs⟩ : ∃ args s : List Value, rest = args.reverse ++ s ∧
      args.length = count.toNat := by
    rw [hrest, length_cons] at hneeds
    refine ⟨(rest.take count.toNat).reverse, rest.drop count.toNat, ?_, ?_⟩
    · rw [reverse_reverse, take_append_drop]
    · rw [length_reverse, length_take]
      omega
  have hlength : k.stack.length = s.length + (count.toNat + 1) := by
    rw [hrest, length_cons, length_append, length_reverse]
    omega
  cases v with
  | native g =>
    rw [exec_call_native hrest hargs]
    have hdelivers := (Quiet.native g args).blind.delivers (L := L) S { k with stack := s }
    revert hdelivers
    cases hseen : (g.call args).seen S with
    | ok v T =>
      intro hexec
      rw [← exec_call_native hrest hargs] at hexec ⊢
      refine sound_deliver rfl hexec ?_ ((Quiet.native g args).seen_codes hseen)
      show s.length + 1 + (count.toNat + 1) = k.stack.length + 1
      omega
    | error e T =>
      rintro ⟨s', hexec⟩
      rw [hexec]
      exact fun _ => rfl
  | code id =>
    rw [exec_call_code hrest hargs]
    cases hseen : (enterFunction (S.world.store.code id) args).seen S with
    | ok frame T =>
      obtain ⟨m, hrun, -⟩ := ok_of_seen hseen
      obtain ⟨hcode, hcapacity, hstack, hempty⟩ := enterFunction_frame hrun
      refine ⟨T, s, rfl, by omega, count, id, rfl, hlength.symm,
        (Quiet.enterFunction _ _).seen_codes hseen, hcode, ?_, hstack, ?_⟩
      · rw [hcapacity, hcode]
      · rw [hcode, hempty]
    | error e T => exact fun _ => rfl
  | _ =>
    obtain ⟨s', hexec⟩ := exec_call_uncallable (L := L) (S := S) hrest hargs
      (by rintro _ ⟨⟩) (by rintro _ ⟨⟩)
    rw [hexec]
    exact fun _ => rfl

/-- What every instruction does. -/
theorem Instr.exec_effect (i : Instr L Bytecode) (S : Situation) (k : Control)
    (hneeds : i.needs ≤ k.stack.length) (hfull : k.stack.length ≤ k.capacity) :
    i.Sound S k (i.exec.run (S.under k)) := by
  cases ho : i.operation? with
  | some o => exact sound_operation ho hneeds hfull
  | none =>
    cases i with
    | declareFunction name code => exact sound_declareFunction hfull
    | discardTop =>
      obtain ⟨v, s, hstack⟩ := exists_cons_of_length_pos hneeds
      rw [exec_discardTop hstack]
      rw [hstack] at hfull
      exact ⟨S, s, rfl, Nat.le_of_succ_le hfull, rfl, by rw [hstack]; rfl, .inl rfl⟩
    | dup =>
      obtain ⟨v, s, hstack⟩ := exists_cons_of_length_pos hneeds
      exact sound_deliver rfl (exec_dup hstack) rfl rfl
    | jump kind target => exact sound_jump hneeds hfull
    | nextIterator => exact sound_nextIterator hneeds
    | returnTop =>
      obtain ⟨v, s, hstack⟩ := exists_cons_of_length_pos hneeds
      rw [exec_returnTop hstack]
      rw [hstack] at hfull
      exact ⟨S, s, rfl, Nat.le_of_succ_le hfull, rfl, by rw [hstack]; rfl, rfl⟩
    | call count => exact sound_call hneeds hfull
    | _ => cases ho

end

end PageScript
