/-
What instructions do with the output.

* An action is `Mute` if it neither looks at the output nor changes it.  All instructions
  are, but for `PRINT` and for calls of five native functions.
* `Machine.printing?` says what the next step does with the output.
* `step_mute` and `step_printing` say what a step does, for all outputs at once.

A native function answers after it has printed, and there is room for the answer: whatever
the code, the operands fit on the stack (`InCapacity`).
-/
import PageScript.Proofs.Isolation

open EStateM (Result)

namespace PageScript

open List EStateM Instr Exec

/-! ### The output of a machine -/

/-- What was written, and the texts of the open buffers, innermost first. -/
structure Output where
  written : String
  buffers : List String
  deriving DecidableEq

namespace Output

/-- What was written, then the open buffers from the outermost to the
innermost. -/
def transcript (o : Output) : String := o.written ++ String.join o.buffers.reverse

/-- Text goes into the innermost buffer, or is written if none is open. -/
def print (o : Output) (text : String) : Output :=
  match o.buffers with
  | [] => { o with written := o.written ++ text }
  | buffer :: rest => { o with buffers := (buffer ++ text) :: rest }

theorem transcript_print (o : Output) (text : String) :
    (o.print text).transcript = o.transcript ++ text := by
  obtain ⟨written, buffers⟩ := o
  cases buffers with
  | nil => simp [print, transcript]
  | cons buffer rest => simp [print, transcript, String.append_assoc]

theorem length_buffers_print (o : Output) (text : String) :
    (o.print text).buffers.length = o.buffers.length := by
  obtain ⟨written, buffers⟩ := o
  cases buffers <;> rfl

end Output

/-- What a step does to the output. -/
inductive Printing where
  | prints (text : String)
  | opens
  /-- The innermost buffer is closed, its text is printed. -/
  | flushes
  /-- The innermost buffer is closed, its text is gone. -/
  | cleans
  deriving DecidableEq

namespace Printing

/-- What becomes of the output; there has to be a buffer for one to be
closed. -/
def apply (p : Printing) (o : Output) : Except Fault Output :=
  match p, o.buffers with
  | .prints text, _ => .ok (o.print text)
  | .opens, buffers => .ok { o with buffers := "" :: buffers }
  | .flushes, buffer :: rest => .ok ({ o with buffers := rest }.print buffer)
  | .cleans, _ :: rest => .ok { o with buffers := rest }
  | _, [] => .error .outOfRange

variable {o o' : Output} {innermost : String} {outer : List String}

theorem apply_flushes (ho : o.buffers = innermost :: outer) :
    flushes.apply o = .ok ({ o with buffers := outer }.print innermost) := by
  obtain ⟨written, buffers⟩ := o
  cases ho
  rfl

theorem apply_cleans (ho : o.buffers = innermost :: outer) :
    cleans.apply o = .ok { o with buffers := outer } := by
  obtain ⟨written, buffers⟩ := o
  cases ho
  rfl

theorem apply_of_nil {p : Printing} (hp : p = flushes ∨ p = cleans) (ho : o.buffers = []) :
    p.apply o = .error .outOfRange := by
  obtain ⟨written, buffers⟩ := o
  cases ho
  rcases hp with rfl | rfl <;> rfl

theorem transcript_of_opens (h : opens.apply o = .ok o') : o'.transcript = o.transcript := by
  obtain ⟨written, buffers⟩ := o
  cases h
  simp [Output.transcript]

theorem transcript_of_flushes (h : flushes.apply o = .ok o') : o'.transcript = o.transcript := by
  obtain ⟨written, buffers⟩ := o
  cases buffers with
  | nil => cases h
  | cons buffer rest =>
    cases h
    rw [Output.transcript_print]
    simp [Output.transcript, String.append_assoc]

theorem transcript_of_cleans (ho : o.buffers = innermost :: outer) (h : cleans.apply o = .ok o') :
    o'.transcript ++ innermost = o.transcript := by
  rw [apply_cleans ho] at h
  cases h
  simp [Output.transcript, ho, String.append_assoc]

end Printing

def Frame.InCapacity (f : Frame) : Prop := f.stack.length ≤ f.capacity

namespace Machine

def output (m : Machine) : Output := ⟨m.world.written, m.interpreter.buffers⟩

def withOutput (o : Output) (m : Machine) : Machine :=
  { m with
    world := { m.world with written := o.written }
    interpreter := { m.interpreter with buffers := o.buffers } }

@[simp] theorem withOutput_output (m : Machine) : m.withOutput m.output = m := rfl

theorem transcript_eq (m : Machine) : m.transcript = m.output.transcript := rfl

def InCapacity (m : Machine) : Prop := ∀ a ∈ m.current :: m.callers, a.frame.InCapacity

end Machine

open Machine (withOutput)

/-! ### Actions that have nothing to do with the output -/

namespace Exec

variable {α β : Type}

/-- The action leaves no more operands than fit on the stack. -/
def InCapacity (a : Exec α) : Prop :=
  ∀ m r m', m.current.frame.InCapacity → a.run m = .ok r m' → m'.current.frame.InCapacity

theorem InCapacity.pure (r : α) : InCapacity (Pure.pure r) := by
  intro m r' m' hm h
  cases h
  exact hm

theorem InCapacity.throw (fault : Fault) : InCapacity (throw fault : Exec α) := by
  intro m r m' _ h
  cases h

theorem InCapacity.bind {x : Exec α} {f : α → Exec β} (hx : InCapacity x)
    (hf : ∀ r, InCapacity (f r)) : InCapacity (x >>= f) := by
  intro m r m' hm h
  obtain ⟨r₁, m₁, hfirst, h⟩ := ok_of_run_bind h
  exact hf r₁ m₁ r m' (hx m r₁ m₁ hm hfirst) h

theorem Blind.inCapacity {a : Exec α} (ha : Blind a) : InCapacity a := by
  intro m r m' hm h
  rw [← m.situation_under_control, ha] at h
  cases hseen : a.seen m.situation with
  | error e T =>
    rw [hseen] at h
    cases h
  | ok r' T =>
    rw [hseen] at h
    cases h
    exact hm

/-- The action neither looks at the output nor changes it, and leaves no more
operands than fit. -/
structure Mute (a : Exec α) : Prop where
  run_withOutput : ∀ o m, a.run (m.withOutput o) = mapState (withOutput o) (a.run m)
  inCapacity : InCapacity a

namespace Mute

theorem pure (r : α) : Mute (Pure.pure r) where
  run_withOutput _ _ := rfl
  inCapacity := .pure r

theorem throw (fault : Fault) : Mute (throw fault : Exec α) where
  run_withOutput _ _ := rfl
  inCapacity := .throw fault

theorem bind {x : Exec α} {f : α → Exec β} (hx : Mute x) (hf : ∀ r, Mute (f r)) :
    Mute (x >>= f) where
  run_withOutput o m := by
    rw [run_bind, run_bind, hx.run_withOutput]
    cases x.run m with
    | ok r m' => exact (hf r).run_withOutput o m'
    | error e m' => rfl
  inCapacity := hx.inCapacity.bind fun r => (hf r).inCapacity

theorem get {f : Machine → Exec β} (hsame : ∀ o m, f (m.withOutput o) = f m)
    (hf : ∀ m, Mute (f m)) : Mute (MonadState.get >>= f) where
  run_withOutput o m := by
    show (f (m.withOutput o)).run (m.withOutput o) = mapState (withOutput o) ((f m).run m)
    rw [hsame]
    exact (hf m).run_withOutput o m
  inCapacity m := (hf m).inCapacity m

theorem of_blind {a : Exec α} (ha : Blind a)
    (h : ∀ o m, a.run (m.withOutput o) = mapState (withOutput o) (a.run m)) : Mute a :=
  ⟨h, ha.inCapacity⟩

theorem ofExcept (x : Except Fault α) : Mute (ofExcept x) := by
  cases x with
  | error e => exact .throw e
  | ok r => exact .pure r

theorem fromStore (f : Store → Except Fault α) : Mute (fromStore f) :=
  .get (fun _ _ => rfl) fun _ => .ofExcept _

theorem onStore (f : Store → Except Fault (α × Store)) : Mute (onStore f) where
  run_withOutput o m := by
    have hstore : (m.withOutput o).world.store = m.world.store := rfl
    rw [run_onStore, run_onStore, hstore]
    cases f m.world.store <;> rfl
  inCapacity m r m' hm h := by
    rw [run_onStore] at h
    cases hf : f m.world.store with
    | error e =>
      rw [hf] at h
      cases h
    | ok p =>
      rw [hf] at h
      cases h
      exact hm

theorem push (v : Value) : Mute (push v) where
  run_withOutput o m := by
    by_cases hroom : m.current.frame.stack.length < m.current.frame.capacity
    · rw [run_push_of_lt hroom, run_push_of_lt (m := m.withOutput o) hroom]
      rfl
    · rw [run_push_of_not_lt hroom, run_push_of_not_lt (m := m.withOutput o) hroom]
      rfl
  inCapacity m r m' _ h := by
    by_cases hroom : m.current.frame.stack.length < m.current.frame.capacity
    · rw [run_push_of_lt hroom] at h
      cases h
      exact hroom
    · rw [run_push_of_not_lt hroom] at h
      cases h

theorem pop : Mute pop where
  run_withOutput o m := by
    obtain ⟨_, _, ⟨⟨_, _, stack, _⟩, _⟩, _, _, _⟩ := m
    cases stack <;> rfl
  inCapacity m v m' hm h := by
    obtain ⟨rest, hstack, rfl⟩ := ok_of_run_pop h
    have hm : m.current.frame.stack.length ≤ m.current.frame.capacity := hm
    rw [hstack] at hm
    exact Nat.le_of_succ_le hm

theorem top : Mute top where
  run_withOutput o m := by
    obtain ⟨_, _, ⟨⟨_, _, stack, _⟩, _⟩, _, _, _⟩ := m
    cases stack <;> rfl
  inCapacity m v m' hm h := by
    obtain ⟨_, _, ⟨⟨_, _, stack, _⟩, _⟩, _, _, _⟩ := m
    cases stack <;> cases h
    exact hm

theorem popN (n : Int) : Mute (popN n) where
  run_withOutput o m := by
    simp only [Exec.popN, run_bind, run_get]
    rw [Frame.popN_eq, Frame.popN_eq]
    show (fromStack (if n.toNat ≤ m.current.frame.stack.length then _ else _)).run _
      = mapState _ ((fromStack (if n.toNat ≤ m.current.frame.stack.length then _ else _)).run _)
    by_cases h : n.toNat ≤ m.current.frame.stack.length
    · rw [if_pos h, if_pos h]
      rfl
    · rw [if_neg h, if_neg h]
      rfl
  inCapacity m vs m' hm h := by
    obtain ⟨-, -, rfl⟩ := ok_of_run_popN h
    have hdrop := length_drop (i := n.toNat) (l := m.current.frame.stack)
    show (m.current.frame.stack.drop n.toNat).length ≤ m.current.frame.capacity
    have hm : m.current.frame.stack.length ≤ m.current.frame.capacity := hm
    omega

theorem getVariable (slot : Int) : Mute (getVariable slot) :=
  .get (fun _ _ => rfl) fun _ => .ofExcept _

theorem storeVariable (slot : Int) (v : Value) : Mute (storeVariable slot v) := by
  refine .of_blind (Quiet.storeVariable slot v).blind fun o m => ?_
  have hsame : (m.withOutput o).current.frame.storeVariable (m.withOutput o).world.store slot v
      = m.current.frame.storeVariable m.world.store slot v := rfl
  rw [run_storeVariable, run_storeVariable, hsame]
  cases m.current.frame.storeVariable m.world.store slot v <;> rfl

theorem getReference (slot : Int) : Mute (getReference slot) := by
  refine .of_blind (Quiet.getReference slot).blind fun o m => ?_
  have hsame : (m.withOutput o).current.frame.getReference (m.withOutput o).world.store slot
      = m.current.frame.getReference m.world.store slot := rfl
  rw [run_getReference, run_getReference, hsame]
  cases m.current.frame.getReference m.world.store slot <;> rfl

theorem check (holds : Bool) : Mute (check holds) := by
  cases holds
  · exact .throw _
  · exact .pure _

theorem putConstant (name : String) (v : Value) : Mute (putConstant name v) :=
  .of_blind (Quiet.putConstant name v).blind fun _ _ => rfl

theorem declareFunction (name : String) (code : Bytecode) : Mute (declareFunction name code) := by
  refine .of_blind (.declareFunction name code) fun o m => ?_
  have hfunctions : (m.withOutput o).interpreter.functions = m.interpreter.functions := rfl
  rw [Exec.declareFunction]
  simp only [run_bind, run_onStore, run_get, Pure.pure, Except.pure, hfunctions]
  cases m.interpreter.functions.get? name <;> rfl

end Mute

theorem MadeOf.mute {a : Exec α} (h : MadeOf (· ≠ .printing) a) : Mute a := by
  induction h with
  | pure r => exact .pure r
  | throw fault => exact .throw fault
  | bind _ _ ihx ihf => exact .bind ihx ihf
  | look _ ih => exact .get (fun _ _ => rfl) fun m => ih m.situation.sight
  | onStore => exact .onStore _
  | getVariable slot => exact .getVariable slot
  | storeVariable slot v => exact .storeVariable slot v
  | getReference slot => exact .getReference slot
  | push v => exact .push v
  | pop => exact .pop
  | top => exact .top
  | popN n => exact .popN n
  | putConstant name v => exact .putConstant name v
  | declareFunction name => exact .declareFunction name _
  | output _ h | startBuffering h | endBuffer h => exact absurd rfl h

theorem Mute.enterFunction (code : Bytecode) (args : List Value) :
    Mute (enterFunction code args) := (MadeOf.enterFunction code args).mute

end Exec

/-! ### Native functions -/

theorem Exec.run_output (text : String) (m : Machine) :
    (output text).run m = .ok () (m.withOutput (m.output.print text)) := by
  obtain ⟨_, ⟨_, buffers, _⟩, _, _, _, _⟩ := m
  cases buffers <;> rfl

namespace Native

/-- The text that `printf` prints. -/
def formatted (s : Store) (args : List Value) : Except Fault String := do
  match args with
  | [] => throw .outOfRange
  | template :: items =>
    if template.isText then
      let items ← items.mapM s.valueOf
      let t ← s.textOf template
      return (← s.format t items).1
    else throw .checkFailed

def printing? (f : Native) (s : Store) (args : List Value) : Option (Except Fault Printing) :=
  match f with
  | .printf => some ((formatted s args).map .prints)
  | .printR => some ((argumentIn s args 0 >>= s.fullTextOf).map .prints)
  | .obStart => some (.ok .opens)
  | .obFlush => some (.ok .flushes)
  | .obEndClean => some (.ok .cleans)
  | _ => none

/-- The machine with what becomes of its output, and the null that the native
functions answer which do something with it. -/
def printed (m : Machine) (p : Except Fault Printing) : Result Fault Machine Value :=
  match p >>= fun p => p.apply m.output with
  | .ok o => .ok .null (m.withOutput o)
  | .error e => .error e m

theorem run_output_null (text : String) (m : Machine) :
    (output text >>= fun _ => pure Value.null).run m = printed m (.ok (.prints text)) := by
  rw [run_bind, run_output]
  rfl

theorem run_valuesOf (vs : List Value) (m : Machine) :
    (valuesOf vs).run m = match vs.mapM m.world.store.valueOf with
      | .ok r => .ok r m
      | .error e => .error e m := by
  induction vs with
  | nil => rfl
  | cons v vs ih =>
    rw [valuesOf, run_bind, run_fromStore, mapM_cons]
    cases m.world.store.valueOf v with
    | error e => rfl
    | ok w =>
      show (valuesOf vs >>= fun ws => pure (w :: ws)).run m = _
      rw [run_bind, ih]
      simp only [bind, Except.bind]
      cases vs.mapM m.world.store.valueOf <;> rfl

theorem run_printf (args : List Value) (m : Machine) :
    (Native.printf.call args).run m
      = printed m ((formatted m.world.store args).map .prints) := by
  cases args with
  | nil => rfl
  | cons template items =>
    show (check template.isText >>= fun _ => valuesOf items >>= fun items =>
      textOf template >>= fun t => fromStore (·.format t items) >>= fun r =>
      output r.1 >>= fun _ => pure Value.null).run m = _
    cases htext : template.isText with
    | false =>
      simp only [formatted, htext]
      rfl
    | true =>
      show (valuesOf items >>= fun items =>
        textOf template >>= fun t => fromStore (·.format t items) >>= fun r =>
        output r.1 >>= fun _ => pure Value.null).run m = _
      simp only [formatted, htext, ↓reduceIte]
      rw [run_bind, run_valuesOf]
      cases items.mapM m.world.store.valueOf with
      | error e => rfl
      | ok vs =>
        show (textOf template >>= fun t => fromStore (·.format t vs) >>= fun r =>
          output r.1 >>= fun _ => pure Value.null).run m = _
        rw [run_bind, textOf, run_fromStore]
        dsimp only [bind, Except.bind]
        cases m.world.store.textOf template with
        | error e => rfl
        | ok t =>
          show (fromStore (·.format t vs) >>= fun r =>
            output r.1 >>= fun _ => pure Value.null).run m = _
          rw [run_bind, run_fromStore]
          dsimp only
          cases m.world.store.format t vs with
          | error e => rfl
          | ok r => exact run_output_null r.1 m

theorem run_printR (args : List Value) (m : Machine) :
    (Native.printR.call args).run m
      = printed m ((argumentIn m.world.store args 0 >>= m.world.store.fullTextOf).map .prints) := by
  rw [Native.call, run_bind, run_argumentValue]
  cases argumentIn m.world.store args 0 with
  | error e => rfl
  | ok v =>
    show (fromStore (·.fullTextOf v) >>= fun text =>
      output text >>= fun _ => pure Value.null).run m
      = printed m ((m.world.store.fullTextOf v).map .prints)
    rw [run_bind, run_fromStore]
    cases m.world.store.fullTextOf v with
    | error e => rfl
    | ok text => exact run_output_null text m

theorem run_call_of_printing {f : Native} {args : List Value} {m : Machine}
    {p : Except Fault Printing} (h : f.printing? m.world.store args = some p) :
    (f.call args).run m = printed m p := by
  have hclosing : ∀ g : Native, g = .obFlush ∨ g = .obEndClean → ∀ q,
      g.printing? m.world.store args = some q → (g.call args).run m = printed m q := by
    rintro g hg q hq
    obtain ⟨_, ⟨_, buffers, _⟩, _, _, _, _⟩ := m
    rcases hg with rfl | rfl <;> cases hq
    · cases buffers with
      | nil => rfl
      | cons buffer rest => cases rest <;> rfl
    · cases buffers <;> rfl
  cases f with
  | printf =>
    cases h
    exact run_printf args m
  | printR =>
    cases h
    exact run_printR args m
  | obStart =>
    cases h
    rfl
  | obFlush => exact hclosing _ (.inl rfl) p h
  | obEndClean => exact hclosing _ (.inr rfl) p h
  | _ => cases h

open Exec in
theorem mute_of_printing {f : Native} {s : Store} {args : List Value}
    (h : f.printing? s args = none) : Mute (f.call args) := by
  have hquiet : f.prints = false := by
    cases f with
    | printf | printR | obStart | obEndClean | obFlush => cases h
    | _ => rfl
  refine (MadeOf.native f args (fun _ => Deed.noConfusion) fun hprints => ?_).mute
  rw [hquiet] at hprints
  cases hprints

end Native

/-! ### Instructions -/

open Exec in
theorem Instr.exec_mute {L : Type} {i : Instr L Bytecode} (hprint : i ≠ .print)
    (hcall : ∀ count, i ≠ .call count) : Mute i.exec :=
  (i.exec_madeOf Deed.noConfusion (absurd · hprint) (fun count hi => absurd hi (hcall count))
    fun _ _ _ => Deed.noConfusion).mute

/-! ### Steps -/

namespace Machine

variable {m m' : Machine}

/-- What the next step does with the output, if that is its job: an error, if
the text to print cannot be had or operands are missing. -/
def printing? (m : Machine) : Option (Except Fault Printing) :=
  match m.next?, m.current.frame.stack with
  | some .print, [] => some (.error .checkFailed)
  | some .print, v :: _ => some ((m.world.store.textOf v).map .prints)
  | some (.call count), .native f :: stack =>
    if count.toNat ≤ stack.length then
      f.printing? m.world.store (stack.take count.toNat).reverse
    else some (.error .checkFailed)
  | _, _ => none

def printed? (m : Machine) : Option String :=
  match m.printing? with
  | some (.ok (.prints text)) => some text
  | _ => none

theorem leave_withOutput (v : Value) (o : Output) (m : Machine) :
    (leave v).run (m.withOutput o) = mapState (withOutput o) ((leave v).run m) :=
  leave_commute v (fun h => h) fun h => ⟨_, _, h, rfl, rfl, rfl, rfl⟩

theorem proceed_withOutput (pos : Nat) (flow : Flow Nat) (o : Output) (m : Machine) :
    (proceed pos flow).run (m.withOutput o) = mapState (withOutput o) ((proceed pos flow).run m) := by
  cases flow with
  | leave v => exact leave_withOutput v o m
  | next | jump target | enter frame => rfl

theorem step_withOutput (o : Output) (h : ∀ i, m.next? = some i →
      i.exec.run (m.tick.withOutput o) = mapState (withOutput o) (i.exec.run m.tick)) :
    step.run (m.withOutput o) = mapState (withOutput o) (step.run m) := by
  cases hi : m.next? with
  | none =>
    rw [step_of_none hi, step_of_none (m := m.withOutput o) hi]
    exact leave_withOutput .unset o m.tick
  | some i =>
    have hexec : i.exec.run (m.withOutput o).tick = _ := h i hi
    rw [step_of_some hi, step_of_some (m := m.withOutput o) hi, hexec]
    cases i.exec.run m.tick with
    | error e m' => rfl
    | ok flow m' => exact proceed_withOutput m.current.pos flow o m'

end Machine

theorem Instr.run_print_of_stack {m : Machine} {v : Value} {rest : List Value}
    (hstack : m.current.frame.stack = v :: rest) :
    (Instr.print : Instr Nat Bytecode).exec.run m = match m.world.store.textOf v with
      | .ok text => .ok .next (m.withOutput (m.output.print text))
      | .error e => .error e m := by
  have htop : top.run m = .ok v m := by
    obtain ⟨_, _, ⟨⟨_, _, _, _⟩, _⟩, _, _, _⟩ := m
    cases hstack
    rfl
  rw [exec, run_bind, htop]
  simp only [run_bind, textOf, Native.run_fromStore]
  cases m.world.store.textOf v with
  | error e => rfl
  | ok text =>
    simp only [run_output]
    rfl

theorem Instr.run_call_short {m : Machine} {count : Int} {f : Value} {stack : List Value}
    (hstack : m.current.frame.stack = f :: stack) (hf : f.isFunction = true)
    (hcount : ¬count.toNat ≤ stack.length) :
    (call count : Instr Nat Bytecode).exec.run m
      = .error .checkFailed { m.withStack (stack.drop count.toNat) with stackFault := true } := by
  rw [← m.situation_under_control]
  have hstack' : m.control.stack = f :: stack := hstack
  have hcheck : ∀ m, (check true).run m = .ok () m := fun _ => rfl
  simp only [exec, run_bind, run_pop, hstack', hf, hcheck, run_popN,
    if_neg hcount]
  rfl

open Exec in
theorem Exec.Mute.callFunction {L : Type} {s : Store} {f : Value} {args : List Value}
    (h : ∀ g, f = .native g → g.printing? s args = none) :
    Mute (callFunction f args : Exec (Flow L)) := by
  cases f with
  | native g => exact .bind (Native.mute_of_printing (h g rfl)) fun _ => .bind (.push _) fun _ => .pure _
  | code id => exact .get (fun _ _ => rfl) fun _ => .bind (.enterFunction _ _) fun _ => .pure _
  | _ => exact .throw _

namespace Machine

variable {m m' : Machine}

open Exec in
theorem step_mute (h : m.printing? = none) (o : Output) :
    step.run (m.withOutput o) = mapState (withOutput o) (step.run m) := by
  refine step_withOutput o fun i hi => ?_
  by_cases hcall : ∃ count, i = .call count
  case neg =>
    refine (exec_mute ?_ fun count heq => hcall ⟨count, heq⟩).run_withOutput o m.tick
    rintro rfl
    rw [printing?, hi] at h
    cases hstack : m.current.frame.stack <;> rw [hstack] at h <;> cases h
  case pos =>
    obtain ⟨count, rfl⟩ := hcall
    -- Which function is called with which arguments is told by the machine.
    rw [exec, run_bind, run_bind, Mute.pop.run_withOutput]
    cases hpop : pop.run m.tick with
    | error e m₁ => rfl
    | ok f m₁ =>
      obtain ⟨stack, hstack, rfl⟩ := ok_of_run_pop hpop
      have hrest : (popN count >>= fun args => callFunction f args : Exec (Flow Nat)).run
            ((m.tick.withStack stack).withOutput o)
          = mapState (withOutput o) ((popN count >>= fun args => callFunction f args :
              Exec (Flow Nat)).run (m.tick.withStack stack)) := by
        rw [run_bind, run_bind, (Mute.popN count).run_withOutput]
        cases hargs : (popN count).run (m.tick.withStack stack) with
        | error e m₂ => rfl
        | ok args m₂ =>
          obtain ⟨hcount, rfl, -⟩ := ok_of_run_popN hargs
          refine (Mute.callFunction (s := m.world.store) fun g hg => ?_).run_withOutput o m₂
          subst hg
          rw [printing?, hi, show m.current.frame.stack = _ from hstack] at h
          dsimp only at h
          rwa [if_pos (by exact hcount)] at h
      show (check f.isFunction >>= fun _ => popN count >>= fun args => callFunction f args :
          Exec (Flow Nat)).run ((m.tick.withStack stack).withOutput o)
        = mapState (withOutput o) ((check f.isFunction >>= fun _ => popN count >>= fun args =>
            callFunction f args : Exec (Flow Nat)).run (m.tick.withStack stack))
      cases f.isFunction
      · rfl
      · exact hrest

/-- What a step does whose job is the output, for all outputs at once: there is
a machine that it leads to and one that it fails in, and the output is changed
as is said. -/
theorem step_printing {p : Except Fault Printing} (h : m.printing? = some p)
    (hm : m.current.frame.InCapacity) :
    ∃ next failing : Machine, ∀ o, step.run (m.withOutput o)
      = match p >>= fun p => p.apply o with
        | .ok o' => .ok .running (next.withOutput o')
        | .error e => .error e (failing.withOutput o) := by
  unfold printing? at h
  split at h
  case h_1 hi hstack =>
    cases h
    refine ⟨m, { m.tick with stackFault := true }, fun o => ?_⟩
    rw [step_of_some (m := m.withOutput o) hi]
    obtain ⟨_, _, ⟨⟨_, _, _, _⟩, _⟩, _, _, _⟩ := m
    cases hstack
    rfl
  case h_2 v rest hi hstack =>
    cases h
    refine ⟨{ m.tick with current := { m.current with pos := m.current.pos + 1 } }, m.tick,
      fun o => ?_⟩
    rw [step_of_some (m := m.withOutput o) hi,
      run_print_of_stack (m := (m.withOutput o).tick) hstack]
    have hstore : (m.withOutput o).tick.world.store = m.world.store := rfl
    rw [hstore]
    cases m.world.store.textOf v <;> rfl
  case h_3 count f stack hi hstack =>
    split at h
    case isFalse hcount =>
      cases h
      refine ⟨m, { m.tick.withStack (stack.drop count.toNat) with stackFault := true }, fun o => ?_⟩
      rw [step_of_some (m := m.withOutput o) hi,
        run_call_short (m := (m.withOutput o).tick) hstack rfl hcount]
      rfl
    case isTrue hcount =>
      have hroom : (stack.drop count.toNat).length < m.current.frame.capacity := by
        rw [Frame.InCapacity, hstack, length_cons] at hm
        rw [length_drop]
        omega
      refine ⟨{ m.tick.withStack (.null :: stack.drop count.toNat) with
        current := { (m.withStack (.null :: stack.drop count.toNat)).current with
          pos := m.current.pos + 1 } }, m.tick.withStack (stack.drop count.toNat), fun o => ?_⟩
      rw [step_of_some (m := m.withOutput o) hi,
        run_call_of_stack (m := (m.withOutput o).tick) hstack rfl hcount]
      -- The function is called on the operands below, which leaves room for its answer.
      have hcall := Native.run_call_of_printing
        (m := (m.withOutput o).tick.withStack (stack.drop count.toNat)) h
      have ho : ((m.withOutput o).tick.withStack (stack.drop count.toNat)).output = o := rfl
      rw [callFunction, run_bind, hcall, Native.printed, ho]
      cases p >>= fun p => p.apply o with
      | error e => rfl
      | ok o' =>
        dsimp only
        rw [run_bind, run_push_of_lt (by exact hroom)]
        rfl
  case h_4 => cases h

end Machine

/-! ### Operands fit on the stack -/

open Exec in
theorem Instr.exec_inCapacity (i : Instr Nat Bytecode) : InCapacity i.exec := by
  by_cases hprint : i = .print
  · subst hprint
    exact .bind Mute.top.inCapacity fun _ => .bind (Mute.fromStore _).inCapacity fun _ =>
      .bind (Quiet.output _).blind.inCapacity fun _ => .pure _
  by_cases hcall : ∃ count, i = .call count
  · obtain ⟨count, rfl⟩ := hcall
    refine .bind Mute.pop.inCapacity fun f => .bind (Mute.check _).inCapacity fun _ =>
      .bind (Mute.popN _).inCapacity fun args => ?_
    cases f with
    | native g =>
      exact .bind (Quiet.native g args).blind.inCapacity fun _ =>
        .bind (Mute.push _).inCapacity fun _ => .pure _
    | code id =>
      exact (Mute.get (fun _ _ => rfl) fun _ => .bind (.enterFunction _ _) fun _ =>
        .pure _).inCapacity
    | _ => exact .throw _
  · exact (exec_mute hprint fun count h => hcall ⟨count, h⟩).inCapacity

namespace Machine

variable {m m' : Machine}

theorem InCapacity.step (h : m.InCapacity) (hstep : step.run m = .ok .running m') :
    m'.InCapacity := by
  obtain ⟨i, flow, m₁, -, hexec, hgoes⟩ := step_goes hstep
  obtain ⟨hcurrent, hcallers⟩ := forall_mem_cons.1 h
  have hcurrent₁ := i.exec_inCapacity m.tick flow m₁ hcurrent hexec
  rw [show m.callers = m₁.callers from (keeps_of_exec hexec).2.2.symm] at hcallers
  cases hgoes with
  | next | jump => exact forall_mem_cons.2 ⟨hcurrent₁, hcallers⟩
  | enter =>
    obtain ⟨count, id, args, rest, -, -, -, henter⟩ := enter_of_exec hexec
    refine forall_mem_cons.2 ⟨?_, forall_mem_cons.2 ⟨hcurrent₁, hcallers⟩⟩
    show length _ ≤ _
    rw [(enterFunction_frame henter).2.2.1]
    exact Nat.zero_le _
  | leave hwaiting _ hroom =>
    rw [hwaiting] at hcallers
    exact forall_mem_cons.2 ⟨hroom, (forall_mem_cons.1 hcallers).2⟩

theorem InCapacity.course (h : m.InCapacity) {P : Machine → Prop} {n : Nat}
    (hcourse : Course P n m m') : m'.InCapacity := by
  induction hcourse with
  | stay m => exact h
  | next _ hstep _ ih => exact ih (h.step hstep)

theorem InCapacity.launch {world : World} {interpreter : Interpreter} {b : Bytecode}
    (h : Machine.launch world interpreter b = .ok m) : m.InCapacity := by
  obtain ⟨_, _, -, rfl, rfl⟩ := ok_of_launch h
  exact forall_mem_cons.2 ⟨Nat.zero_le _, nofun⟩

end Machine

end PageScript
