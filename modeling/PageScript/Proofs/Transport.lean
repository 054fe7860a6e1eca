/-
Machines with other numbers.

`Transport.machine` takes a machine to one where everything has its other number.  An action is
carried over (`Carries`) if after that it does the same, renumbered.  An instruction that looks
up a constant is carried over if the table gives the same answer for this name
(`Transport.Knows`), and one that declares a function if it gets its other number
(`Transport.Ready`).  Apart from that `Transport.step` says it of every step.
-/
import PageScript.Proofs.Places
import PageScript.Proofs.Renumbering

open EStateM (Result)

namespace PageScript

open List Machine Value Exec

/-! ### Frames -/

/-- A frame with other numbers for entries. -/
def Frame.renumbered (ρ : Renumbering) (f : Frame) : Frame :=
  { f with stack := f.stack.map (·.renumbered ρ), slots := f.slots.map (·.renumbered ρ) }

namespace Frame

variable {ρ : Renumbering} (T : Transfer ρ) {s : Store} {f : Frame}

theorem load_renumbered (slot : Int) :
    (f.renumbered ρ).load slot = (f.load slot).map (·.renumbered ρ) := by
  rw [load, load]
  simp only [renumbered, Array.getElem?_map]
  split
  · rfl
  · cases f.slots[slot.toNat]? <;> rfl

theorem store_renumbered (slot : Int) (v : Value) :
    (f.renumbered ρ).store slot (v.renumbered ρ) = (f.store slot v).map (·.renumbered ρ) := by
  rw [store, store]
  simp only [renumbered, Array.size_map]
  split
  · rfl
  · split
    · exact congrArg Except.ok (by simp)
    · rfl

theorem getVariable_renumbered (slot : Int) :
    (f.renumbered ρ).getVariable (T.store s) slot
      = (f.getVariable s slot).map (·.renumbered ρ) := by
  rw [getVariable, getVariable, load_renumbered]
  refine bind_map_congr fun v => ?_
  rw [isRef_renumbered, T.valueOf]
  split <;> rfl

theorem putThrough_renumbered {r v : Value} :
    putThrough (T.store s) (r.renumbered ρ) (v.renumbered ρ)
      = (putThrough s r v).map T.store := by
  cases r with
  | ref id => exact congrArg Except.ok (T.setRef _ id v)
  | _ => rfl

theorem storeVariable_renumbered (slot : Int) (v : Value) :
    (f.renumbered ρ).storeVariable (T.store s) slot (v.renumbered ρ)
      = (f.storeVariable s slot v).map (T.carry (·.renumbered ρ)) := by
  rw [storeVariable, storeVariable, load_renumbered]
  refine bind_map_congr fun old => ?_
  rw [isRef_renumbered, putThrough_renumbered T, store_renumbered]
  split
  · exact bind_map_congr fun _ => rfl
  · exact bind_map_congr fun _ => rfl

theorem getReference_renumbered (slot : Int) :
    (f.renumbered ρ).getReference (T.store s) slot
      = (f.getReference s slot).map fun (r, g, t) => (r.renumbered ρ, g.renumbered ρ, T.store t) := by
  rw [getReference, getReference, load_renumbered]
  refine bind_map_congr fun v => ?_
  rw [isRef_renumbered, T.newRef]
  split
  · rfl
  · show (f.renumbered ρ).store slot ((s.newRef v).1.renumbered ρ) >>= _ = _
    rw [store_renumbered]
    exact bind_map_congr fun _ => rfl

theorem setReference_renumbered (slot : Int) (r : Value) :
    (f.renumbered ρ).setReference (T.store s) slot (r.renumbered ρ)
      = (f.setReference s slot r).map (T.carry (·.renumbered ρ)) := by
  rw [setReference, setReference, load_renumbered, isRef_renumbered]
  split
  · rfl
  · refine bind_map_congr fun old => ?_
    rw [isRef_renumbered, T.valueOf, store_renumbered]
    split
    · refine bind_map_congr fun v => ?_
      rw [putThrough_renumbered T]
      exact bind_map_congr fun _ => rfl
    · exact bind_map_congr fun _ => rfl

theorem push_renumbered (v : Value) :
    (f.renumbered ρ).push (v.renumbered ρ) = (f.push v).map (·.renumbered ρ) := by
  have hdepth : (f.renumbered ρ).depth = f.depth := length_map _
  have hcapacity : (f.renumbered ρ).capacity = f.capacity := rfl
  rw [push, push, hdepth, hcapacity]
  by_cases h : f.depth < f.capacity
  · rw [if_pos h, if_pos h]
    rfl
  · rw [if_neg h, if_neg h]
    rfl

theorem pop_renumbered :
    (f.renumbered ρ).pop = f.pop.map fun (v, g) => (v.renumbered ρ, g.renumbered ρ) := by
  obtain ⟨_, _, stack, _⟩ := f
  cases stack <;> rfl

theorem top_renumbered : (f.renumbered ρ).top = f.top.map (·.renumbered ρ) := by
  obtain ⟨_, _, stack, _⟩ := f
  cases stack <;> rfl

theorem popN_renumbered (n : Nat) :
    (f.renumbered ρ).popN n
      = ((f.popN n).1.map (·.map (·.renumbered ρ)), (f.popN n).2.renumbered ρ) := by
  rw [popN_eq, popN_eq]
  simp only [renumbered, length_map, map_drop]
  split
  · simp [Except.map]
  · rfl

theorem fillSuperglobals_renumbered (values : List Value) (slots : Array Value) (places : List Int) :
    fillSuperglobals (values.map (·.renumbered ρ)) (slots.map (·.renumbered ρ)) places
      = (fillSuperglobals values slots places).map (·.map (·.renumbered ρ)) := by
  induction places generalizing values slots with
  | nil =>
    unfold fillSuperglobals
    rfl
  | cons place rest ih =>
    unfold fillSuperglobals
    split
    · rw [← map_drop, ih]
    · cases values with
      | nil => rfl
      | cons v values =>
        rw [← ih]
        simp

theorem new_renumbered (superglobals : List Value) (code : Bytecode) :
    Frame.new (superglobals.map (·.renumbered ρ)) code
      = (Frame.new superglobals code).map (·.renumbered ρ) := by
  have hunset : Array.replicate code.symbolSize unset
      = (Array.replicate code.symbolSize unset).map (·.renumbered ρ) := by
    rw [Array.map_replicate]
    rfl
  rw [Frame.new, Frame.new]
  nth_rewrite 1 [hunset]
  rw [fillSuperglobals_renumbered]
  exact bind_map_congr fun _ => rfl

end Frame

/-! ### Machines -/

def Activation.renumbered (ρ : Renumbering) (a : Activation) : Activation :=
  { a with frame := a.frame.renumbered ρ }

/-- How the machine goes on, with other numbers for what it goes on with. -/
def Flow.renumbered {L : Type} (ρ : Renumbering) : Flow L → Flow L
  | .next => .next
  | .jump target => .jump target
  | .enter frame => .enter (frame.renumbered ρ)
  | .leave v => .leave (v.renumbered ρ)

/-- Takes every world and every table of functions to one where everything has
its other number.  There may be other named constants there, something may have
been written before, and the functions may be in another order. -/
structure Transport (ρ : Renumbering) extends Transfer ρ where
  constants : Entries Value → Entries Value
  written : String → String
  written_append : ∀ t u, written (t ++ u) = written t ++ u
  functions : Entries Value → Entries Value
  functions_get? : ∀ es name, (functions es).get? name = (es.get? name).map (·.renumbered ρ)
  /-- Where code and functions are as here, a new function gets its other
  number. -/
  Ready : Store → Entries Value → Prop
  newCode : ∀ s es b, Ready s es → (store s).newCode b
    = ((s.newCode b).1.renumbered ρ, store (s.newCode b).2)
  functions_cons : ∀ s es name v, Ready s es →
    functions ((name, v) :: es) = (name, v.renumbered ρ) :: functions es

namespace Transport

variable {ρ : Renumbering} (T : Transport ρ)

def world (u : World) : World where
  store := T.store u.store
  constants := T.constants u.constants
  written := T.written u.written
  clock := u.clock

def interpreter (i : Interpreter) : Interpreter where
  functions := T.functions i.functions
  buffers := i.buffers
  superglobals := i.superglobals.map (·.renumbered ρ)

/-- The machine that corresponds. -/
def machine (m : Machine) : Machine where
  world := T.world m.world
  interpreter := T.interpreter m.interpreter
  current := m.current.renumbered ρ
  callers := m.callers.map (·.renumbered ρ)
  steps := m.steps
  stackFault := m.stackFault

end Transport

namespace Exec

open Native (callDefine)

variable {α β : Type} {ρ : Renumbering} {T : Transport ρ} {m : Machine} {g : α → α} {h : β → β}

/-- An outcome that is taken elsewhere, the result by `g`. -/
def carried (T : Transport ρ) (g : α → α) : Result Fault Machine α → Result Fault Machine α
  | .ok r m => .ok (g r) (T.machine m)
  | .error e m => .error e (T.machine m)

/-- What an action does with a machine, another one does with the machine that
it is taken to. -/
def CarriesAt (T : Transport ρ) (g : α → α) (a a' : Exec α) (m : Machine) : Prop :=
  a'.run (T.machine m) = carried T g (a.run m)

/-- The same for all machines. -/
def Carries (T : Transport ρ) (g : α → α) (a a' : Exec α) : Prop := ∀ m, CarriesAt T g a a' m

theorem CarriesAt.bind {x x' : Exec α} {f f' : α → Exec β} (hx : CarriesAt T g x x' m)
    (hf : ∀ r m', x.run m = .ok r m' → CarriesAt T h (f r) (f' (g r)) m') :
    CarriesAt T h (x >>= f) (x' >>= f') m := by
  unfold CarriesAt at hx ⊢
  rw [EStateM.run_bind, EStateM.run_bind, hx]
  cases hrun : x.run m with
  | error e m' => rfl
  | ok r m' => exact hf r m' hrun

theorem CarriesAt.get {f f' : Machine → Exec α} (hf : CarriesAt T g (f m) (f' (T.machine m)) m) :
    CarriesAt T g (MonadState.get >>= f) (MonadState.get >>= f') m :=
  hf

theorem CarriesAt.onStore {f f' : Store → Except Fault (α × Store)}
    (hf : f' (T.store m.world.store) = (f m.world.store).map (T.carry g)) :
    CarriesAt T g (onStore f) (onStore f') m := by
  rw [CarriesAt, run_onStore, run_onStore]
  have hstore : (T.machine m).world.store = T.store m.world.store := rfl
  rw [hstore, hf]
  cases f m.world.store <;> rfl

theorem CarriesAt.here {a a' : Exec α} (ha : Carries T g a a') : CarriesAt T g a a' m := ha m

namespace Carries

theorem pure (r : α) : Carries T g (Pure.pure r) (Pure.pure (g r)) := fun _ => rfl

theorem throw (fault : Fault) : Carries T g (throw fault) (throw fault) := fun _ => rfl

theorem bind {x x' : Exec α} {f f' : α → Exec β} (hx : Carries T g x x')
    (hf : ∀ r, Carries T h (f r) (f' (g r))) : Carries T h (x >>= f) (x' >>= f') :=
  fun m => (hx m).bind fun r m' _ => hf r m'

theorem get {f f' : Machine → Exec β} (hf : ∀ m, CarriesAt T h (f m) (f' (T.machine m)) m) :
    Carries T h (MonadState.get >>= f) (MonadState.get >>= f') :=
  hf

theorem ofExcept (x : Except Fault α) :
    Carries T g (MonadExcept.ofExcept x) (MonadExcept.ofExcept (x.map g)) := by
  cases x with
  | error e => exact .throw e
  | ok r => exact .pure r

theorem ofExcept_id (x : Except Fault α) :
    Carries T id (MonadExcept.ofExcept x) (MonadExcept.ofExcept x) := by
  cases x with
  | error e => exact .throw e
  | ok r => exact .pure r

theorem check (holds : Bool) : Carries T id (check holds) (check holds) := by
  cases holds
  · exact .throw _
  · exact .pure _

theorem fromStore {f f' : Store → Except Fault α} (hf : ∀ s, f' (T.store s) = (f s).map g) :
    Carries T g (fromStore f) (fromStore f') := by
  refine .get fun m => ?_
  show CarriesAt T g (MonadExcept.ofExcept (f m.world.store))
    (MonadExcept.ofExcept (f' (T.store m.world.store))) m
  rw [hf]
  exact .here (.ofExcept _)

theorem fromStore_id {f f' : Store → Except Fault α} (hf : ∀ s, f' (T.store s) = f s) :
    Carries T id (Exec.fromStore f) (Exec.fromStore f') :=
  .fromStore fun s => (hf s).trans (id_map (f s)).symm

theorem onStore {f f' : Store → Except Fault (α × Store)}
    (hf : ∀ s, f' (T.store s) = (f s).map (T.carry g)) :
    Carries T g (onStore f) (onStore f') :=
  fun m => .onStore (hf m.world.store)

/-! ### The running frame -/

theorem fromStack (x : Except Fault α) : Carries T g (fromStack x) (fromStack (x.map g)) := by
  cases x with
  | error e => exact fun _ => rfl
  | ok r => exact .pure r

theorem setFrame (frame : Frame) :
    Carries T id (setFrame frame) (setFrame (frame.renumbered ρ)) := fun _ => rfl

theorem keep (frame : Frame) (store : Store) :
    Carries T id (keep frame store)
      (keep (frame.renumbered ρ) (T.store store)) := fun _ => rfl

theorem push (v : Value) : Carries T id (push v) (push (v.renumbered ρ)) := by
  refine .get fun m => ?_
  show CarriesAt T id _ (Exec.fromStack ((m.current.frame.renumbered ρ).push (v.renumbered ρ)) >>= _) m
  rw [Frame.push_renumbered]
  exact .here (.bind (.fromStack _) fun frame => .setFrame frame)

theorem deliver (v : Value) : Carries T (Flow.renumbered ρ)
    (Exec.push v >>= fun _ => Pure.pure (.next : Flow Nat))
    (Exec.push (v.renumbered ρ) >>= fun _ => Pure.pure .next) :=
  .bind (.push v) fun _ => .pure Flow.next

theorem pop : Carries T (·.renumbered ρ) pop pop := by
  refine .get fun m => ?_
  show CarriesAt T _ _ (Exec.fromStack (m.current.frame.renumbered ρ).pop >>= _) m
  rw [Frame.pop_renumbered]
  exact .here (.bind (.fromStack _) fun r => .bind (.setFrame r.2) fun _ => .pure r.1)

theorem top : Carries T (·.renumbered ρ) top top := by
  refine .get fun m => ?_
  show CarriesAt T _ _ (Exec.fromStack (m.current.frame.renumbered ρ).top) m
  rw [Frame.top_renumbered]
  exact .here (.fromStack _)

theorem popN (n : Int) : Carries T (·.map (·.renumbered ρ)) (popN n) (popN n) := by
  refine .get fun m => ?_
  show CarriesAt T _ (Exec.setFrame (m.current.frame.popN n.toNat).2 >>= fun _ =>
      Exec.fromStack (m.current.frame.popN n.toNat).1)
    (Exec.setFrame ((m.current.frame.renumbered ρ).popN n.toNat).2 >>= fun _ =>
      Exec.fromStack ((m.current.frame.renumbered ρ).popN n.toNat).1) m
  rw [Frame.popN_renumbered]
  exact .here (.bind (.setFrame _) fun _ => .fromStack _)

theorem getVariable (slot : Int) :
    Carries T (·.renumbered ρ) (getVariable slot) (getVariable slot) := by
  refine .get fun m => ?_
  show CarriesAt T _ _ (MonadExcept.ofExcept ((m.current.frame.renumbered ρ).getVariable
    (T.store m.world.store) slot)) m
  rw [Frame.getVariable_renumbered T.toTransfer]
  exact .here (.ofExcept _)

theorem requireVariable (slot : Int) (name : String) :
    Carries T (·.renumbered ρ) (requireVariable slot name) (requireVariable slot name) := by
  refine .bind (.getVariable slot) fun v => ?_
  cases v with
  | unset => exact .throw _
  | _ => exact .pure _

theorem storeVariable (slot : Int) (v : Value) :
    Carries T id (storeVariable slot v) (storeVariable slot (v.renumbered ρ)) := by
  refine .get fun m => ?_
  show CarriesAt T _ _ (MonadExcept.ofExcept ((m.current.frame.renumbered ρ).storeVariable
    (T.store m.world.store) slot (v.renumbered ρ)) >>= _) m
  rw [Frame.storeVariable_renumbered T.toTransfer]
  exact .here (.bind (.ofExcept _) fun r => .keep r.1 r.2)

theorem getReference (slot : Int) :
    Carries T (·.renumbered ρ) (getReference slot) (getReference slot) := by
  refine .get fun m => ?_
  show CarriesAt T _ _ (MonadExcept.ofExcept ((m.current.frame.renumbered ρ).getReference
    (T.store m.world.store) slot) >>= _) m
  rw [Frame.getReference_renumbered T.toTransfer]
  exact .here (.bind (.ofExcept _) fun r => .bind (.keep r.2.1 r.2.2) fun _ => .pure r.1)

theorem getReferenceByName (name : String) :
    Carries T (·.renumbered ρ) (getReferenceByName name) (getReferenceByName name) :=
  fun m => getReference (m.current.frame.code.slotOf name) m

/-! ### Output and native functions -/

theorem output (text : String) : Carries T id (output text) (output text) := by
  intro m
  obtain ⟨world, ⟨functions, buffers, superglobals⟩, _, _, _, _⟩ := m
  cases buffers with
  | nil =>
    show Result.ok () _ = Result.ok () _
    simp only [Transport.machine, Transport.interpreter, Transport.world, World.write,
      T.written_append]
  | cons buffer rest => rfl

theorem startBuffering : Carries T id startBuffering startBuffering := fun _ => rfl

theorem endBuffer : Carries T id endBuffer endBuffer := by
  intro m
  obtain ⟨_, ⟨_, buffers, _⟩, _, _, _, _⟩ := m
  cases buffers <;> rfl

theorem argument (args : List Value) (i : Nat) :
    Carries T (·.renumbered ρ) (argument args i)
      (argument (args.map (·.renumbered ρ)) i) := by
  rw [Exec.argument, Exec.argument, getElem?_map]
  cases args[i]? with
  | none => exact .throw _
  | some v => exact .pure v

theorem valueOf (v : Value) :
    Carries T (·.renumbered ρ) (Exec.fromStore (·.valueOf v))
      (Exec.fromStore (·.valueOf (v.renumbered ρ))) :=
  .fromStore fun _ => T.valueOf v

theorem argumentValue (args : List Value) (i : Nat) :
    Carries T (·.renumbered ρ) (argumentValue args i)
      (argumentValue (args.map (·.renumbered ρ)) i) :=
  .bind (.argument args i) fun v => .valueOf v

theorem valuesOf (args : List Value) :
    Carries T (·.map (·.renumbered ρ)) (valuesOf args)
      (valuesOf (args.map (·.renumbered ρ))) := by
  induction args with
  | nil => exact .pure []
  | cons v vs ih => exact .bind (.valueOf v) fun v => .bind ih fun vs => .pure (v :: vs)

theorem textOf (v : Value) : Carries T id (textOf v) (textOf (v.renumbered ρ)) :=
  .fromStore_id fun _ => T.textOf v

theorem newList (items : List Value) :
    Carries T (·.renumbered ρ) (newList items)
      (newList (items.map (·.renumbered ρ))) := by
  refine .onStore fun s => ?_
  show Except.ok ((T.store s).newList (items.map (·.renumbered ρ)).toArray) = _
  rw [← map_toArray, T.newList]
  rfl

theorem native {f : Native} (hf : f ≠ .define) (args : List Value) :
    Carries T (·.renumbered ρ) (f.call args) (f.call (args.map (·.renumbered ρ))) := by
  have hnull : Carries T (renumbered ρ) (Pure.pure .null) (Pure.pure .null) := .pure null
  cases f with
  | define => exact absurd rfl hf
  | strlen =>
    refine .bind (.argumentValue args 0) fun v => ?_
    rw [isText_renumbered]
    exact .bind (.check _) fun _ => .bind (.fromStore_id fun _ => T.lengthOf _) fun n =>
      .pure (int n)
  | strRepeat =>
    refine .bind (.argumentValue args 0) fun v => .bind (.argumentValue args 1) fun count => ?_
    rw [isText_renumbered, isInt_renumbered, getInt_renumbered]
    exact .bind (.check _) fun _ => .bind (.check _) fun _ => .bind (.textOf v) fun t =>
      .bind (.ofExcept_id _) fun n => .bind (.ofExcept_id _) fun t => .pure (text t)
  | printf =>
    refine .bind (.argument args 0) fun template => ?_
    rw [isText_renumbered, ← map_drop]
    exact .bind (.check _) fun _ => .bind (.valuesOf _) fun items => .bind (.textOf template) fun t =>
      .bind (.fromStore_id fun _ => T.format t items) fun r => .bind (.output _) fun _ => hnull
  | printR =>
    exact .bind (.argumentValue args 0) fun v => .bind (.fromStore_id fun _ => T.fullTextOf _)
      fun t => .bind (.output t) fun _ => hnull
  | dechex =>
    refine .bind (.argumentValue args 0) fun v => ?_
    rw [isInt_renumbered, getInt_renumbered]
    exact .bind (.check _) fun _ => .bind (.ofExcept_id _) fun n => .pure (text _)
  | numberFormat =>
    refine .bind (.argumentValue args 0) fun v => ?_
    rw [isFloat_renumbered, toNumber_renumbered]
    refine .bind (.check _) fun _ => .bind (.argumentValue args 1) fun places => ?_
    rw [isInt_renumbered, getInt_renumbered]
    exact .bind (.check _) fun _ => .bind (.ofExcept_id _) fun x => .bind (.ofExcept_id _) fun n =>
      .bind (.ofExcept_id _) fun t => .pure (text t)
  | range =>
    refine .bind (.argumentValue args 0) fun start => .bind (.argumentValue args 1) fun finish => ?_
    rw [isInt_renumbered, isInt_renumbered, getInt_renumbered, getInt_renumbered]
    refine .bind (.check _) fun _ => .bind (.check _) fun _ => .bind (.ofExcept_id _) fun a =>
      .bind (.ofExcept_id _) fun b => ?_
    have hnumbers : ((Native.interval a b).map int).map (·.renumbered ρ)
        = (Native.interval a b).map .int := by
      simp [renumbered]
    have hlist := newList (T := T) ((Native.interval a b).map .int)
    rwa [hnumbers] at hlist
  | getTimeOfDay =>
    refine .get fun m => ?_
    refine .here (.bind (.ofExcept_id _) fun r => .onStore fun s => ?_)
    exact congrArg Except.ok (T.newDict _ [("sec", .int r.1), ("usec", .int r.2)])
  | obStart => exact .bind .startBuffering fun _ => hnull
  | obEndClean => exact .bind .endBuffer fun _ => hnull
  | obFlush => exact .bind .endBuffer fun text => .bind (.output text) fun _ => hnull

theorem operator (op : Operator) (left right : Value) :
    Carries T (·.renumbered ρ) (op.evaluate left right)
      (op.evaluate (left.renumbered ρ) (right.renumbered ρ)) := by
  cases op with
  | comma => exact .pure right
  | concat =>
    rw [Operator.evaluate, Operator.evaluate]
    exact .onStore fun _ => T.concatenate _ _
  | eq | gt | ge | lt | le =>
    exact .bind (.fromStore_id fun _ => Comparison.holds_renumbered T.toTransfer _) fun b => .pure (bool b)
  | add | sub | mul | div | mod =>
    rw [Operator.evaluate, Operator.evaluate, ArithOp.apply_renumbered]
    exact .ofExcept _
  | ursh | rsh =>
    rw [Operator.evaluate, Operator.evaluate, shiftRight_renumbered]
    exact .ofExcept _
  | lsh =>
    rw [Operator.evaluate, Operator.evaluate, shiftLeft_renumbered]
    exact .ofExcept _

theorem taken (kind : Jump) : Carries T id kind.taken kind.taken := by
  cases kind with
  | always => exact .pure true
  | ifFalse =>
    refine .bind .pop fun v => ?_
    rw [isTrue_renumbered]
    exact .bind (.ofExcept_id _) fun b => .pure (!b)
  | ifFalseKeep =>
    refine .bind .top fun v => ?_
    rw [isTrue_renumbered]
    refine .bind (.ofExcept_id _) fun b => ?_
    cases b
    · exact .pure true
    · exact .bind .pop fun _ => .pure false
  | ifTrueKeep =>
    refine .bind .top fun v => ?_
    rw [isTrue_renumbered]
    refine .bind (.ofExcept_id _) fun b => ?_
    cases b
    · exact .bind .pop fun _ => .pure false
    · exact .pure true
  | ifIteratorEmpty =>
    refine .bind .pop fun last => .bind .top fun v => ?_
    cases v with
    | cursor n =>
      refine .get fun m => ?_
      have hcursor : (T.machine m).world.store.cursor (ρ.cursor n)
          = (m.world.store.cursor n).renumbered ρ := T.cursor _ n
      show CarriesAt T id (if _ then _ else _) (if _ then _ else _) m
      rw [hcursor]
      show CarriesAt T id _
        (if (m.world.store.cursor n).index = (m.world.store.cursor n).stop then _ else _) m
      split
      · exact .here (.bind .pop fun _ => .bind (.push last) fun _ => .pure true)
      · exact .here (.pure false)
    | _ => exact .throw _

/-! ### Calls -/

theorem bindArgument (byValue : Bool) (v : Value) :
    Carries T (·.renumbered ρ) (bindArgument byValue v)
      (bindArgument byValue (v.renumbered ρ)) := by
  rw [Exec.bindArgument, Exec.bindArgument, isRef_renumbered]
  split
  · split
    · exact .bind (.valueOf v) fun v => .onStore fun _ => T.copy _
    · exact .bind (.pure v) fun v => .onStore fun _ => T.copy _
  · split
    · exact .pure v
    · exact .throw _

theorem bindParameters (frame : Frame) (i : Nat) (args : List Value)
    (parameters : List (String × Bool)) :
    Carries T (·.renumbered ρ) (bindParameters frame i args parameters)
      (bindParameters (frame.renumbered ρ) i (args.map (·.renumbered ρ)) parameters) := by
  induction parameters generalizing frame i args with
  | nil =>
    rw [Exec.bindParameters, Exec.bindParameters]
    exact .pure frame
  | cons parameter rest ih =>
    cases args with
    | nil => exact .throw _
    | cons v args =>
      exact .bind (.bindArgument _ v) fun v =>
        .bind (.onStore fun _ => Frame.storeVariable_renumbered T.toTransfer i v) fun frame => ih frame _ args

theorem bindGlobals (frame : Frame) (globals : List (String × Int)) :
    Carries T (·.renumbered ρ) (bindGlobals frame globals)
      (bindGlobals (frame.renumbered ρ) globals) := by
  induction globals generalizing frame with
  | nil => exact .pure frame
  | cons named rest ih =>
    exact .bind (.getReferenceByName _) fun r =>
      .bind (.onStore fun _ => Frame.setReference_renumbered T.toTransfer named.2 r) fun frame => ih frame

theorem enterFunction (code : Bytecode) (args : List Value) :
    Carries T (·.renumbered ρ) (enterFunction code args)
      (enterFunction code (args.map (·.renumbered ρ))) := by
  refine .get fun m => ?_
  show CarriesAt T _ _ (MonadExcept.ofExcept (Frame.new
    (m.interpreter.superglobals.map (·.renumbered ρ)) code) >>= _) m
  rw [Frame.new_renumbered]
  exact .here (.bind (.ofExcept _) fun frame => .bind (.bindParameters frame 0 args _) fun frame =>
    .bind (.bindGlobals frame _) fun frame => .bind (.check _) fun _ => .pure frame)

theorem callFunction {f : Value} (hf : f ≠ .native .define) (args : List Value) :
    Carries T (·.renumbered ρ) (callFunction f args : Exec (Flow Nat))
      (callFunction (f.renumbered ρ) (args.map (·.renumbered ρ))) := by
  cases f with
  | native f =>
    exact .bind (.native (fun h => hf (congrArg _ h)) args) fun v => .deliver v
  | code id =>
    refine .get fun m => ?_
    have hcode : (T.machine m).world.store.code (ρ.code id) = m.world.store.code id :=
      T.code _ id
    dsimp only [renumbered]
    rw [hcode]
    exact .here (.bind (.enterFunction _ args) fun frame => .pure (Flow.enter frame))
  | _ => exact .throw _

theorem declareFunction (name : String) (code : Bytecode)
    (hready : T.Ready m.world.store m.interpreter.functions) :
    CarriesAt T id (declareFunction name code) (declareFunction name code) m := by
  have hnew : CarriesAt T (·.renumbered ρ) (Exec.onStore fun s => return s.newCode code)
      (Exec.onStore fun s => return s.newCode code) m :=
    .onStore (congrArg Except.ok (T.newCode _ _ code hready))
  refine hnew.bind fun f m₁ hrun => ?_
  have hsame : m₁.interpreter = m.interpreter := by
    rw [run_onStore] at hrun
    cases hrun
    rfl
  have hfunctions : (T.machine m₁).interpreter.functions.get? name
      = (m₁.interpreter.functions.get? name).map (·.renumbered ρ) := T.functions_get? _ _
  have hcons := T.functions_cons _ _ name f hready
  rw [← hsame] at hcons
  refine CarriesAt.get ?_
  dsimp only
  rw [hfunctions]
  cases m₁.interpreter.functions.get? name with
  | some g => exact .here (.throw _)
  | none =>
    show Result.ok () { T.machine m₁ with interpreter := { (T.machine m₁).interpreter with
      functions := (name, f.renumbered ρ) :: T.functions m₁.interpreter.functions } } = _
    rw [← hcons]
    rfl

theorem advance : Carries T id advance advance := by
  refine .bind .top fun v => ?_
  cases v with
  | cursor n =>
    refine .get fun m => ?_
    have hcursor : (T.machine m).world.store.cursor (ρ.cursor n)
        = (m.world.store.cursor n).renumbered ρ := T.cursor _ n
    dsimp only [renumbered]
    rw [hcursor]
    exact .here (.bind (.fromStore fun _ => T.currentElement _) fun element =>
      .bind (.push element) fun _ => .bind (.push (text _)) fun _ =>
      .bind (.onStore fun _ => T.nextElement n) fun _ => .pure ())
  | hollow kind => cases kind <;> exact .throw _
  | _ => exact .throw _

end Carries

end Exec

/-! ### Named constants -/

namespace Native

def argumentIn (s : Store) (args : List Value) (i : Nat) : Except Fault Value :=
  match args[i]? with
  | some v => s.valueOf v
  | none => .error .outOfRange

def definition (s : Store) (args : List Value) : Except Fault (String × Value) := do
  let name ← argumentIn s args 0
  if name.isText then
    let v ← argumentIn s args 1
    let t ← s.textOf name
    return (t, v)
  else throw .checkFailed

def defineConstant (name : String) (v : Value) : Exec Value := do
  let m ← get
  match m.world.constants.get? name with
  | some _ => return .bool false
  | none =>
    check v.isScript
    set { m with world := { m.world with constants := m.world.constants.put name v } }
    return .bool true

theorem run_fromStore {α : Type} (f : Store → Except Fault α) (m : Machine) :
    (fromStore f).run m = match f m.world.store with
      | .ok r => .ok r m
      | .error e => .error e m :=
  run_ofExcept (f m.world.store) m

theorem run_argumentValue (args : List Value) (i : Nat) (m : Machine) :
    (argumentValue args i).run m = match argumentIn m.world.store args i with
      | .ok v => .ok v m
      | .error e => .error e m := by
  unfold argumentValue argument argumentIn
  cases args[i]? with
  | none => rfl
  | some v =>
    show (fromStore (·.valueOf v)).run m = _
    rw [run_fromStore]
    dsimp only
    cases m.world.store.valueOf v <;> rfl

theorem run_callDefine (args : List Value) (m : Machine) :
    (callDefine args).run m = match definition m.world.store args with
      | .ok (name, v) => (defineConstant name v).run m
      | .error e => .error e m := by
  rw [callDefine, EStateM.run_bind, run_argumentValue, definition]
  cases argumentIn m.world.store args 0 with
  | error e => rfl
  | ok name =>
    cases htext : name.isText with
    | false =>
      simp only [htext, bind, Except.bind]
      rfl
    | true =>
      show (check name.isText >>= fun _ => argumentValue args 1 >>= fun v =>
        textOf name >>= fun t => defineConstant t v).run m = _
      simp only [htext, bind, Except.bind, ↓reduceIte]
      show (argumentValue args 1 >>= fun v => textOf name >>= fun t =>
        defineConstant t v).run m = _
      rw [EStateM.run_bind, run_argumentValue]
      cases argumentIn m.world.store args 1 with
      | error e => rfl
      | ok v =>
        show (textOf name >>= fun t => defineConstant t v).run m = _
        rw [EStateM.run_bind, textOf]
        rw [run_fromStore]
        cases m.world.store.textOf name <;> rfl

variable {ρ : Renumbering} (T : Transfer ρ) {s : Store}

theorem argumentIn_renumbered (args : List Value) (i : Nat) :
    argumentIn (T.store s) (args.map (·.renumbered ρ)) i
      = (argumentIn s args i).map (·.renumbered ρ) := by
  rw [argumentIn, argumentIn, getElem?_map]
  cases args[i]? with
  | none => rfl
  | some v => exact T.valueOf v

theorem definition_renumbered (args : List Value) :
    definition (T.store s) (args.map (·.renumbered ρ))
      = (definition s args).map fun (name, v) => (name, v.renumbered ρ) := by
  rw [definition, definition, argumentIn_renumbered, argumentIn_renumbered]
  refine bind_map_congr fun name => ?_
  rw [isText_renumbered, T.textOf]
  split
  · refine bind_map_congr fun v => ?_
    cases s.textOf name <;> rfl
  · rfl

end Native

open Native (definition defineConstant)

/-- The name of a constant that the next step looks up: to load it, or to see
whether it can be defined. -/
def Machine.consulted (m : Machine) : Option String :=
  match m.next?, m.current.frame.stack with
  | some (.loadNamedConstant name), _ => some name
  | some (.call count), .native .define :: stack =>
    if count.toNat ≤ stack.length then
      (definition m.world.store (stack.take count.toNat).reverse).toOption.map Prod.fst
    else none
  | _, _ => none

namespace Machine

variable {m : Machine} {name : String} {count : Int} {stack : List Value} {v : Value}

theorem consulted_of_define (hi : m.next? = some (.call count))
    (hstack : m.current.frame.stack = .native .define :: stack) (hcount : count.toNat ≤ stack.length)
    (h : definition m.world.store (stack.take count.toNat).reverse = .ok (name, v)) :
    m.consulted = some name := by
  rw [consulted, hi, hstack]
  dsimp only
  rw [if_pos hcount, h]
  rfl

theorem cases_of_consulted (h : m.consulted = some name) :
    m.next? = some (.loadNamedConstant name) ∨
      ∃ count stack v, m.next? = some (.call count) ∧
        m.current.frame.stack = .native .define :: stack ∧ count.toNat ≤ stack.length ∧
        definition m.world.store (stack.take count.toNat).reverse = .ok (name, v) := by
  unfold consulted at h
  split at h
  case h_1 hi =>
    cases h
    exact .inl hi
  case h_2 count stack hi hstack =>
    split at h
    case isFalse => cases h
    case isTrue hcount =>
      cases hdefinition : definition m.world.store (stack.take count.toNat).reverse with
      | error e =>
        rw [hdefinition] at h
        cases h
      | ok r =>
        rw [hdefinition] at h
        cases h
        exact .inr ⟨count, stack, r.2, hi, hstack, hcount, hdefinition⟩
  case h_3 => cases h

end Machine

/-- The table of named constants, taken elsewhere, gives the same answer for a
name, and it can be given a value. -/
structure Transport.Knows {ρ : Renumbering} (T : Transport ρ) (es : Entries Value) (name : String) :
    Prop where
  get? : (T.constants es).get? name = (es.get? name).map (·.renumbered ρ)
  put : ∀ v, es.get? name = none →
    (T.constants es).put name (v.renumbered ρ) = T.constants (es.put name v)

/-- How far a step has come, with another number for the result. -/
def Progress.renumbered (ρ : Renumbering) : Progress → Progress
  | .running => .running
  | .done v => .done (v.renumbered ρ)

/-- How a run has ended, with another number for the result. -/
def Ending.renumbered (ρ : Renumbering) : Ending → Ending
  | .finished v => .finished (v.renumbered ρ)
  | .failed fault => .failed fault
  | .outOfFuel => .outOfFuel

theorem Value.renumbered_of_isLiteral {v : Value} {ρ : Renumbering} (h : v.isLiteral) :
    v.renumbered ρ = v := by
  cases v with
  | int | float | text | template => rfl
  | _ => cases h

namespace Exec.CarriesAt

variable {ρ : Renumbering} {T : Transport ρ} {m : Machine} {name : String}

theorem defineConstant (h : T.Knows m.world.constants name) (v : Value) :
    CarriesAt T (·.renumbered ρ) (defineConstant name v) (defineConstant name (v.renumbered ρ)) m := by
  have hget : (T.machine m).world.constants.get? name = _ := h.get?
  refine CarriesAt.get ?_
  rw [hget, isScript_renumbered]
  cases hold : m.world.constants.get? name with
  | some old => exact .here (.pure (bool false))
  | none =>
    refine CarriesAt.bind (.here (.check _)) fun _ m₁ hcheck => ?_
    obtain ⟨-, rfl⟩ := ok_of_run_check hcheck
    have hput : (T.machine m).world.constants.put name (v.renumbered ρ) = _ := h.put v hold
    show Result.ok (bool true) { T.machine m with world := { (T.machine m).world with
      constants := (T.machine m).world.constants.put name (v.renumbered ρ) } } = _
    rw [hput]
    rfl

theorem callDefine {args : List Value}
    (h : ∀ name v, definition m.world.store args = .ok (name, v) →
      T.Knows m.world.constants name) :
    CarriesAt T (·.renumbered ρ) (Native.callDefine args)
      (Native.callDefine (args.map (·.renumbered ρ))) m := by
  have hdefinition : definition (T.machine m).world.store (args.map (·.renumbered ρ)) = _ :=
    Native.definition_renumbered T.toTransfer args
  rw [CarriesAt, Native.run_callDefine, Native.run_callDefine, hdefinition]
  cases hargs : definition m.world.store args with
  | error e => rfl
  | ok r => exact CarriesAt.defineConstant (h r.1 r.2 hargs) r.2

end Exec.CarriesAt

/-! ### Instructions -/

open Exec

namespace Instr

variable {ρ : Renumbering} {T : Transport ρ} {m : Machine}

theorem loadNamedConstant_carriesAt {name : String} (h : T.Knows m.world.constants name) :
    CarriesAt T (·.renumbered ρ) (loadNamedConstant name : Instr Nat Bytecode).exec
      (loadNamedConstant name : Instr Nat Bytecode).exec m := by
  have hget : (T.machine m).world.constants.get? name = _ := h.get?
  refine CarriesAt.get ?_
  rw [hget]
  cases m.world.constants.get? name with
  | none => exact .here (.throw _)
  | some v => exact .here (.deliver v)

theorem loadConstant_carriesAt (place : Int)
    (h : ∀ v ∈ m.current.frame.code.constants, v.isLiteral) :
    CarriesAt T (·.renumbered ρ) (loadConstant place : Instr Nat Bytecode).exec
      (loadConstant place : Instr Nat Bytecode).exec m := by
  have hplace : CarriesAt T (·.renumbered ρ) (constantAt place) (constantAt place) m := by
    show CarriesAt T (·.renumbered ρ)
      (match (Store.place? m.current.frame.code.constants.size place).bind
        fun n => m.current.frame.code.constants[n]? with
        | some v => pure v
        | none => throw .outOfRange)
      (match (Store.place? m.current.frame.code.constants.size place).bind
        fun n => m.current.frame.code.constants[n]? with
        | some v => pure v
        | none => throw .outOfRange) m
    cases hv : (Store.place? m.current.frame.code.constants.size place).bind
        fun n => m.current.frame.code.constants[n]? with
    | none => exact .here (.throw _)
    | some v =>
      obtain ⟨n, -, hn⟩ := Option.bind_eq_some_iff.1 hv
      have hsame : v.renumbered ρ = v :=
        renumbered_of_isLiteral (h v (Array.mem_of_getElem? hn))
      show Result.ok v (T.machine m) = .ok (v.renumbered ρ) (T.machine m)
      rw [hsame]
  exact hplace.bind fun v m₁ _ => .here (.deliver v)

theorem call_carriesAt (count : Int)
    (h : ∀ stack name v, m.current.frame.stack = .native .define :: stack →
      count.toNat ≤ stack.length →
      definition m.world.store (stack.take count.toNat).reverse = .ok (name, v) →
      T.Knows m.world.constants name) :
    CarriesAt T (·.renumbered ρ) (call count : Instr Nat Bytecode).exec
      (call count : Instr Nat Bytecode).exec m := by
  refine CarriesAt.bind (.here .pop) fun f m₁ hpop => ?_
  obtain ⟨stack, hstack, rfl⟩ := ok_of_run_pop hpop
  rw [isFunction_renumbered]
  refine CarriesAt.bind (.here (.check _)) fun _ m₁ hcheck => ?_
  obtain ⟨-, rfl⟩ := ok_of_run_check hcheck
  refine CarriesAt.bind (.here (.popN _)) fun args m₁ hargs => ?_
  obtain ⟨hcount, rfl, rfl⟩ := ok_of_run_popN hargs
  by_cases hf : f = .native .define
  · subst hf
    exact CarriesAt.bind
      (CarriesAt.callDefine fun name v hdefinition => h stack name v hstack hcount hdefinition)
      fun v _ _ => .here (.deliver v)
  · exact Carries.callFunction hf _ _

theorem declareFunction_carriesAt (name : String) (code : Bytecode)
    (hready : T.Ready m.world.store m.interpreter.functions) :
    CarriesAt T (·.renumbered ρ) (declareFunction name code : Instr Nat Bytecode).exec
      (declareFunction name code : Instr Nat Bytecode).exec m :=
  CarriesAt.bind (Carries.declareFunction name code hready) fun _ _ _ =>
    .here (.pure Flow.next)

/-- An instruction is carried over if the constant that it looks up is known and
the function that it declares gets its other number. -/
theorem exec_carriesAt {i : Instr Nat Bytecode} (hi : m.next? = some i)
    (hliteral : ∀ v ∈ m.current.frame.code.constants, v.isLiteral)
    (hready : T.Ready m.world.store m.interpreter.functions)
    (hknows : ∀ name, m.consulted = some name → T.Knows m.world.constants name) :
    CarriesAt T (·.renumbered ρ) i.exec i.exec m.tick := by
  have hnext : Exec.Carries T (Flow.renumbered ρ) (Pure.pure (.next : Flow Nat)) (Pure.pure .next) :=
    .pure Flow.next
  cases i with
  | loadNamedConstant name =>
    refine loadNamedConstant_carriesAt (hknows name ?_)
    rw [consulted, hi]
  | loadConstant place => exact loadConstant_carriesAt place hliteral
  | call count =>
    exact call_carriesAt count fun stack name v hstack hcount hdefinition =>
      hknows name (consulted_of_define hi hstack hcount hdefinition)
  | declareFunction name code => exact declareFunction_carriesAt name code hready
  | loadVar slot name => exact .here (.bind (.requireVariable _ _) fun v => .deliver v)
  | loadRef slot name => exact .here (.bind (.getReference _) fun r => .deliver r)
  | loadFunction name =>
    refine .here (.get fun m => ?_)
    have hfunctions : (T.machine m).interpreter.functions.get? name
        = (m.interpreter.functions.get? name).map (·.renumbered ρ) := T.functions_get? _ _
    rw [hfunctions]
    cases m.interpreter.functions.get? name with
    | none => exact .here (.throw _)
    | some f => exact .here (.deliver f)
  | loadNull => exact .here (.deliver null)
  | loadBoolean value => exact .here (.deliver (bool value))
  | stringSubstitution count =>
    exact .here (.bind .pop fun template => .bind (.popN _) fun fillers =>
      .bind (.fromStore fun _ => T.substitute _ fillers) fun v => .deliver v)
  | loadArray count =>
    exact .here (.bind (.popN _) fun items => .bind (.newList items) fun v => .deliver v)
  | loadMember =>
    exact .here (.bind .pop fun array => .bind .pop fun key =>
      .bind (.fromStore fun _ => T.getMember _ _) fun v => .deliver v)
  | loadMemberVar slot name =>
    exact .here (.bind (.requireVariable _ _) fun array => .bind .pop fun key =>
      .bind (.fromStore fun _ => T.getMember _ _) fun v => .deliver v)
  | storeMember =>
    exact .here (.bind .pop fun array => .bind .pop fun key => .bind .pop fun v =>
      .bind (.onStore fun _ => T.putMember _ _ _) fun v => .deliver v)
  | storeMemberVar slot name =>
    exact .here (.bind (.requireVariable _ _) fun array => .bind .pop fun key =>
      .bind .pop fun v => .bind (.onStore fun _ => T.putMember _ _ _) fun array =>
      .bind (.push array) fun _ => .bind (.storeVariable _ array) fun _ => hnext)
  | assign slot name =>
    exact .here (.bind .pop fun v => .bind (.storeVariable _ v) fun _ => .deliver v)
  | discardTop => exact .here (.bind .pop fun _ => hnext)
  | dup => exact .here (.bind .top fun v => .deliver v)
  | jump kind target =>
    refine .here (.bind (.taken kind) fun taken => ?_)
    cases taken
    · exact hnext
    · exact .pure (Flow.jump target)
  | loadIterator =>
    exact .here (.bind .pop fun array => .bind (.onStore fun _ => T.iterate _) fun v =>
      .deliver v)
  | nextIterator => exact .here (.bind .advance fun _ => hnext)
  | returnTop => exact .here (.bind .pop fun v => .pure (Flow.leave v))
  | print =>
    exact .here (.bind .top fun v => .bind (.textOf v) fun t => .bind (.output t) fun _ => hnext)
  | binary op =>
    exact .here (.bind .pop fun right => .bind .pop fun left =>
      .bind (.operator op left right) fun v => .deliver v)
  | unary op =>
    refine .here (.bind .pop fun v => ?_)
    rw [UnaryOperator.evaluate_renumbered]
    exact .bind (.ofExcept _) fun v => .deliver v

end Instr

/-! ### Steps -/

namespace Transport

variable {ρ : Renumbering} {T : Transport ρ} {m : Machine}

theorem leave (v : Value) :
    CarriesAt T (Progress.renumbered ρ) (leave v) (leave (v.renumbered ρ)) m := by
  rw [CarriesAt]
  cases hcallers : m.callers with
  | nil =>
    have htaken : (T.machine m).callers = [] := congrArg (map _) hcallers
    rw [leave_nil hcallers, leave_nil htaken]
    rfl
  | cons caller rest =>
    have htaken : (T.machine m).callers = caller.renumbered ρ :: rest.map (·.renumbered ρ) :=
      congrArg (map _) hcallers
    by_cases hv : v = .unset
    · subst hv
      have hwaits : m.callers ≠ [] := by simp [hcallers]
      have hwaits' : (T.machine m).callers ≠ [] := by simp [htaken]
      exact (leave_unset hwaits').trans (congrArg (carried T _) (leave_unset hwaits)).symm
    · have hv' : v.renumbered ρ ≠ .unset := fun h => hv (renumbered_eq_unset.1 h)
      rw [leave_of_callers hcallers hv, leave_of_callers htaken hv']
      have hpush : (push (v.renumbered ρ)).run { T.machine m with
          current := caller.renumbered ρ, callers := rest.map (·.renumbered ρ) } = _ :=
        Carries.push v { m with current := caller, callers := rest }
      rw [hpush]
      cases (push v).run { m with current := caller, callers := rest } <;> rfl

theorem proceed (pos : Nat) (flow : Flow Nat) :
    CarriesAt T (Progress.renumbered ρ) (proceed pos flow)
      (proceed pos (flow.renumbered ρ)) m := by
  cases flow with
  | next | jump target | enter frame => rfl
  | leave v => exact leave v

theorem step (hliteral : ∀ v ∈ m.current.frame.code.constants, v.isLiteral)
    (hready : T.Ready m.world.store m.interpreter.functions)
    (hknows : ∀ name, m.consulted = some name → T.Knows m.world.constants name) :
    step.run (T.machine m)
      = carried T (Progress.renumbered ρ) (step.run m) := by
  cases hi : m.next? with
  | none =>
    have htaken : (T.machine m).next? = none := hi
    rw [step_of_none hi, step_of_none htaken]
    exact leave (T := T) (m := m.tick) .unset
  | some i =>
    have htaken : (T.machine m).next? = some i := hi
    have hexec : i.exec.run (T.machine m).tick = _ := i.exec_carriesAt hi hliteral hready hknows
    rw [step_of_some hi, step_of_some htaken, hexec]
    cases i.exec.run m.tick with
    | error e m' => rfl
    | ok flow m' => exact proceed m.current.pos flow

end Transport

end PageScript
