/-
What actions look at.

A machine is the data of a program, its `Situation`, under a `Control`: the code
that runs, the operand stack, the position, the callers and what is counted.

* `Blind a` — the action `a` neither looks at the control nor changes it;
* `Quiet a` — moreover it declares no function;
* `Local a` — it may use the operand stack, but no other part of the control.

The three hold of everything that is put together from small actions (`MadeOf`);
`exec_local` says that every instruction is local.
-/
import PageScript.Machine.Run

open EStateM (Result)

namespace PageScript

open EStateM Store Frame

/-- The state of a program, apart from where it stands and from its
operands. -/
structure Situation where
  world : World
  interpreter : Interpreter
  constants : Array Value
  symbols : SymbolMap
  slots : Array Value
  deriving Inhabited

/-- What a machine has beside the state of the program. -/
structure Control where
  code : Bytecode
  capacity : Nat
  stack : List Value
  pos : Nat
  callers : List Activation
  steps : Nat
  stackFault : Bool
  deriving Inhabited

/-- The machine that is in a situation under a control.  Constants and names
of the running code are those of the situation. -/
def Situation.under (S : Situation) (k : Control) : Machine where
  world := S.world
  interpreter := S.interpreter
  current :=
    { frame :=
        { code := { k.code with constants := S.constants, symbols := S.symbols }
          capacity := k.capacity
          stack := k.stack
          slots := S.slots }
      pos := k.pos }
  callers := k.callers
  steps := k.steps
  stackFault := k.stackFault

def Machine.situation (m : Machine) : Situation where
  world := m.world
  interpreter := m.interpreter
  constants := m.current.frame.code.constants
  symbols := m.current.frame.code.symbols
  slots := m.current.frame.slots

def Machine.control (m : Machine) : Control where
  code := m.current.frame.code
  capacity := m.current.frame.capacity
  stack := m.current.frame.stack
  pos := m.current.pos
  callers := m.callers
  steps := m.steps
  stackFault := m.stackFault

theorem Machine.situation_under_control (m : Machine) : m.situation.under m.control = m := by
  obtain ⟨_, _, ⟨⟨code, _, _, _⟩, _⟩, _, _, _⟩ := m
  cases code
  rfl

/-- The outcome of an action with its state seen through a function. -/
def mapState {ε σ τ α : Type} (f : σ → τ) : Result ε σ α → Result ε τ α
  | .ok a s => .ok a (f s)
  | .error e s => .error e (f s)

namespace Exec

variable {α β : Type}

/-- What an action does to a situation, under no control in particular. -/
def seen (a : Exec α) (S : Situation) : Result Fault Situation α :=
  mapState Machine.situation (a.run (S.under default))

/-- An action that neither reads nor changes what controls the run. -/
def Blind (a : Exec α) : Prop :=
  ∀ S k, a.run (S.under k) = mapState (·.under k) (a.seen S)

theorem run_ofExcept (x : Except Fault α) (m : Machine) :
    (ofExcept x : Exec α).run m = match x with
      | .ok r => .ok r m
      | .error e => .error e m := by
  cases x <;> rfl

theorem run_onStore (f : Store → Except Fault (α × Store)) (m : Machine) :
    (onStore f).run m = match f m.world.store with
      | .ok (r, s) => .ok r { m with world := { m.world with store := s } }
      | .error e => .error e m := by
  simp only [onStore, run_bind, run_get, run_ofExcept]
  cases f m.world.store <;> rfl

theorem Blind.pure (r : α) : Blind (Pure.pure r) := fun _ _ => rfl

theorem Blind.throw (fault : Fault) : Blind (throw fault : Exec α) := fun _ _ => rfl

theorem Blind.seen_bind {x : Exec α} (hx : Blind x) (f : α → Exec β) (S : Situation) :
    (x >>= f).seen S = match x.seen S with
      | .ok r T => (f r).seen T
      | .error e T => .error e T := by
  rw [seen, run_bind, hx S default]
  cases x.seen S <;> rfl

theorem Blind.bind {x : Exec α} {f : α → Exec β} (hx : Blind x) (hf : ∀ r, Blind (f r)) :
    Blind (x >>= f) := by
  intro S k
  rw [run_bind, hx S k, hx.seen_bind]
  cases x.seen S with
  | ok r T => exact hf r T k
  | error e T => rfl

theorem Blind.of_situation {a : Exec α} (g : Situation → Exec α) (hg : ∀ S, Blind (g S))
    (h : ∀ m, a.run m = (g m.situation).run m) : Blind a := by
  intro S k
  rw [seen, h (S.under k), h (S.under default)]
  exact hg S S k

theorem Blind.ofExcept (x : Except Fault α) : Blind (ofExcept x) := by
  intro S k
  cases x <;> rfl

/-- A blind action that makes no code. -/
structure Quiet (a : Exec α) : Prop where
  blind : Blind a
  codes : ∀ {m r m'}, a.run m = .ok r m' → m'.world.store.codes = m.world.store.codes

theorem Quiet.pure (r : α) : Quiet (Pure.pure r) where
  blind := .pure r
  codes h := by
    cases h
    rfl

theorem Quiet.throw (fault : Fault) : Quiet (throw fault : Exec α) where
  blind := .throw fault
  codes h := by cases h

theorem Quiet.bind {x : Exec α} {f : α → Exec β} (hx : Quiet x) (hf : ∀ r, Quiet (f r)) :
    Quiet (x >>= f) where
  blind := hx.blind.bind fun r => (hf r).blind
  codes {m _ _} h := by
    rw [run_bind] at h
    cases hrun : x.run m with
    | ok r₁ m₁ =>
      rw [hrun] at h
      rw [(hf r₁).codes h, hx.codes hrun]
    | error e m₁ =>
      rw [hrun] at h
      cases h

theorem Quiet.of_situation {a : Exec α} (g : Situation → Exec α) (hg : ∀ S, Quiet (g S))
    (h : ∀ m, a.run m = (g m.situation).run m) : Quiet a where
  blind := .of_situation g (fun S => (hg S).blind) h
  codes {m _ _} hrun := (hg m.situation).codes ((h m).symm.trans hrun)

theorem Quiet.ofExcept (x : Except Fault α) : Quiet (ofExcept x) where
  blind := .ofExcept x
  codes h := by
    cases x <;> cases h
    rfl

theorem Quiet.fromStore (f : Store → Except Fault α) : Quiet (Exec.fromStore f) :=
  .of_situation (fun S => MonadExcept.ofExcept (f S.world.store)) (fun _ => .ofExcept _)
    fun _ => rfl

theorem Quiet.onStore {f : Store → Except Fault (α × Store)}
    (hf : ∀ s r s', f s = .ok (r, s') → s'.codes = s.codes) : Quiet (Exec.onStore f) where
  blind := by
    intro S k
    rw [seen, run_onStore, run_onStore]
    show (match f S.world.store with | .ok (r, s) => _ | .error e => _)
      = mapState _ (mapState _ (match f S.world.store with | .ok (r, s) => _ | .error e => _))
    cases f S.world.store <;> rfl
  codes {m _ _} h := by
    rw [run_onStore] at h
    cases hrun : f m.world.store with
    | ok p =>
      rw [hrun] at h
      cases h
      exact hf _ _ _ hrun
    | error e =>
      rw [hrun] at h
      cases h

end Exec

/-! ### Variables -/

namespace Frame

variable {f g : Frame}

def withSlots (f g : Frame) : Frame := { f with slots := g.slots }

variable (h : f.slots = g.slots) (s : Store) (slot : Int) (v : Value)

include h

theorem withSlots_of_eq : f.withSlots g = f := by
  rw [withSlots, ← h]

theorem load_congr : f.load slot = g.load slot := by
  rw [load, load, h]

theorem getVariable_congr : f.getVariable s slot = g.getVariable s slot := by
  rw [getVariable, getVariable, load_congr h]

theorem store_congr : f.store slot v = (g.store slot v).map f.withSlots := by
  rw [store, store, h]
  split
  · rfl
  · split <;> rfl

theorem storeVariable_congr : f.storeVariable s slot v
      = (g.storeVariable s slot v).map fun p => (f.withSlots p.1, p.2) := by
  rw [storeVariable, storeVariable, load_congr h, store_congr h]
  cases g.load slot with
  | error e => rfl
  | ok old =>
    simp only [bind, Except.bind]
    split
    · cases putThrough s old v with
      | error e => rfl
      | ok s =>
        simp only [Except.map, pure, Except.pure]
        rw [withSlots_of_eq h]
    · cases g.store slot v <;> rfl

theorem getReference_congr : f.getReference s slot
      = (g.getReference s slot).map fun p => (p.1, f.withSlots p.2.1, p.2.2) := by
  rw [getReference, getReference, load_congr h]
  cases g.load slot with
  | error e => rfl
  | ok old =>
    simp only [bind, Except.bind]
    split
    · simp only [Except.map, pure, Except.pure]
      rw [withSlots_of_eq h]
    · rw [store_congr h]
      cases g.store slot (s.newRef old).1 <;> rfl

end Frame

theorem Frame.popN_eq (f : Frame) (n : Nat) :
    f.popN n = (if n ≤ f.stack.length then .ok (f.stack.take n).reverse else .error .checkFailed,
      { f with stack := f.stack.drop n }) := by
  induction n generalizing f with
  | zero => rfl
  | succ n ih =>
    obtain ⟨code, capacity, stack, slots⟩ := f
    cases stack with
    | nil => rfl
    | cons v rest =>
      simp only [popN, pop, ih, List.length_cons, Nat.add_le_add_iff_right, List.take_succ_cons,
        List.reverse_cons, List.drop_succ_cons]
      by_cases h : n ≤ rest.length
      · simp only [if_pos h]
      · simp only [if_neg h]

/-! ### Operations that leave the functions alone -/

theorem ok_of_bind {ε α β : Type} {x : Except ε α} {f : α → Except ε β} {b : β}
    (h : x >>= f = .ok b) : ∃ a, x = .ok a ∧ f a = .ok b := by
  cases x with
  | error e => cases h
  | ok a => exact ⟨a, rfl, h⟩

theorem ok_of_run_bind {ε σ α β : Type} {x : EStateM ε σ α} {f : α → EStateM ε σ β} {s t : σ}
    {b : β} (h : (x >>= f).run s = .ok b t) : ∃ a u, x.run s = .ok a u ∧ (f a).run u = .ok b t := by
  rw [run_bind] at h
  cases hx : x.run s with
  | error e u =>
    rw [hx] at h
    cases h
  | ok a u =>
    rw [hx] at h
    exact ⟨a, u, rfl, h⟩

namespace Frame

variable {f g : Frame} {s t : Store} {slot : Int} {v r : Value}

/-- How something is put into a variable: into the cell that its slot refers to, or
else into the slot.  What is put into a cell may be another value. -/
inductive Puts (f : Frame) (s : Store) (slot : Int) (v : Value) (content : Value → Prop) :
    Frame → Store → Prop where
  | cell {id : Nat} {w : Value} : f.load slot = .ok (.ref id) → content w →
      Puts f s slot v content f (s.setRef id w)
  | slot {old : Value} {g : Frame} : f.load slot = .ok old → old.isRef = false →
      f.store slot v = .ok g → Puts f s slot v content g s

theorem puts_of_storeVariable (h : f.storeVariable s slot v = .ok (g, t)) :
    f.Puts s slot v (· = v) g t := by
  obtain ⟨old, hload, h⟩ := ok_of_bind h
  split at h
  case isTrue hold =>
    cases old with
    | ref id =>
      cases h
      exact .cell hload rfl
    | _ => cases hold
  case isFalse hold =>
    obtain ⟨g', hstore, h⟩ := ok_of_bind h
    cases h
    exact .slot hload (Bool.eq_false_iff.2 hold) hstore

theorem puts_of_setReference (h : f.setReference s slot r = .ok (g, t)) :
    ∃ id, r = .ref id ∧ f.Puts s slot r (s.valueOf r = .ok ·) g t := by
  cases r with
  | ref id =>
    refine ⟨id, rfl, ?_⟩
    obtain ⟨-, -, h⟩ := ok_of_bind h
    obtain ⟨old, hload, h⟩ := ok_of_bind h
    split at h
    case isTrue hold =>
      obtain ⟨w, hw, h⟩ := ok_of_bind h
      cases old with
      | ref id =>
        cases h
        exact .cell hload hw
      | _ => cases hold
    case isFalse hold =>
      obtain ⟨g', hstore, h⟩ := ok_of_bind h
      cases h
      exact .slot hload (Bool.eq_false_iff.2 hold) hstore
  | _ => cases h

/-- How a reference to a variable is come by: it is in the slot, or it is put there. -/
inductive Refers (f : Frame) (s : Store) (slot : Int) : Value → Frame → Store → Prop where
  | found {id : Nat} : f.load slot = .ok (.ref id) → Refers f s slot (.ref id) f s
  | made {old : Value} {g : Frame} : f.load slot = .ok old → old.isRef = false →
      f.store slot (s.newRef old).1 = .ok g → Refers f s slot (s.newRef old).1 g (s.newRef old).2

theorem refers_of_getReference (h : f.getReference s slot = .ok (r, g, t)) :
    f.Refers s slot r g t := by
  obtain ⟨old, hload, h⟩ := ok_of_bind h
  split at h
  case isTrue hold =>
    cases old with
    | ref id =>
      cases h
      exact .found hload
    | _ => cases hold
  case isFalse hold =>
    obtain ⟨g', hstore, h⟩ := ok_of_bind h
    cases h
    exact .made hload (Bool.eq_false_iff.2 hold) hstore

theorem storeVariable_codes (h : f.storeVariable s slot v = .ok (g, t)) : t.codes = s.codes := by
  cases puts_of_storeVariable h <;> rfl

theorem getReference_codes (h : f.getReference s slot = .ok (r, g, t)) : t.codes = s.codes := by
  cases refers_of_getReference h <;> rfl

theorem setReference_codes (h : f.setReference s slot r = .ok (g, t)) : t.codes = s.codes := by
  obtain ⟨_, -, hputs⟩ := puts_of_setReference h
  cases hputs <;> rfl

end Frame

namespace Store

variable {s t : Store} {v key element left right : Value}

theorem putMember_codes (h : s.putMember v key element = .ok (right, t)) : t.codes = s.codes := by
  unfold putMember at h
  split at h
  · split at h <;> obtain ⟨u, -, h⟩ := ok_of_bind h <;> cases h <;> rfl
  · obtain ⟨u, -, h⟩ := ok_of_bind h
    cases h
    rfl
  · cases h

theorem ok_of_concatenate (h : s.concatenate left right = .ok (v, t)) :
    ∃ id n texts, v = .concat id n ∧ t = { s with builders := texts } := by
  unfold concatenate at h
  split at h
  case h_3 => cases h
  all_goals
    obtain ⟨u, -, h⟩ := ok_of_bind h
    cases h
    exact ⟨_, _, _, rfl, rfl⟩

theorem iterate_codes (h : s.iterate v = .ok (right, t)) : t.codes = s.codes := by
  unfold iterate at h
  split at h <;> cases h <;> rfl

theorem nextElement_codes {id : Nat} (h : s.nextElement id = .ok (v, t)) : t.codes = s.codes := by
  obtain ⟨u, -, h⟩ := ok_of_bind h
  cases h
  rfl

theorem copy_codes (h : s.copy v = .ok (right, t)) : t.codes = s.codes := by
  unfold copy at h
  split at h <;> cases h <;> rfl

end Store

/-! ### Quiet actions -/

namespace Exec

def bareFrame (S : Situation) : Frame := { code := default, capacity := 0, slots := S.slots }

theorem Quiet.getVariable (slot : Int) : Quiet (Exec.getVariable slot) := by
  refine .of_situation (fun S => MonadExcept.ofExcept
    ((bareFrame S).getVariable S.world.store slot)) (fun _ => .ofExcept _) fun m => ?_
  rw [← getVariable_congr (f := m.current.frame) (g := bareFrame m.situation) rfl]
  rfl

theorem run_storeVariable (slot : Int) (v : Value) (m : Machine) :
    (Exec.storeVariable slot v).run m
      = match m.current.frame.storeVariable m.world.store slot v with
        | .ok (frame, store) => (keep frame store).run m
        | .error e => .error e m := by
  simp only [Exec.storeVariable, run_bind, run_get, run_ofExcept]
  cases m.current.frame.storeVariable m.world.store slot v <;> rfl

theorem run_getReference (slot : Int) (m : Machine) :
    (Exec.getReference slot).run m
      = match m.current.frame.getReference m.world.store slot with
        | .ok (r, frame, store) => (keep frame store >>= fun _ => Pure.pure r).run m
        | .error e => .error e m := by
  simp only [Exec.getReference, run_bind, run_get, run_ofExcept]
  cases m.current.frame.getReference m.world.store slot <;> rfl

theorem ok_of_run_storeVariable {slot : Int} {v : Value} {m m' : Machine} {u : Unit}
    (h : (Exec.storeVariable slot v).run m = .ok u m') :
    ∃ frame store, m.current.frame.storeVariable m.world.store slot v = .ok (frame, store) ∧
      m' = { m with
        world := { m.world with store := store }
        current := { m.current with frame := frame } } := by
  rw [run_storeVariable] at h
  split at h <;> cases h
  exact ⟨_, _, ‹_›, rfl⟩

theorem ok_of_run_getReference {slot : Int} {r : Value} {m m' : Machine}
    (h : (Exec.getReference slot).run m = .ok r m') :
    ∃ frame store, m.current.frame.getReference m.world.store slot = .ok (r, frame, store) ∧
      m' = { m with
        world := { m.world with store := store }
        current := { m.current with frame := frame } } := by
  rw [run_getReference] at h
  split at h <;> cases h
  exact ⟨_, _, ‹_›, rfl⟩

theorem Quiet.storeVariable (slot : Int) (v : Value) : Quiet (Exec.storeVariable slot v) where
  blind := by
    intro S k
    -- Both frames act as the bare frame of the situation does.
    have hcongr : ∀ k, (S.under k).current.frame.storeVariable (S.under k).world.store slot v
        = ((bareFrame S).storeVariable S.world.store slot v).map
            fun p => ((S.under k).current.frame.withSlots p.1, p.2) := fun k =>
      storeVariable_congr (f := (S.under k).current.frame) (g := bareFrame S) rfl _ slot v
    rw [seen, run_storeVariable, run_storeVariable, hcongr, hcongr]
    cases (bareFrame S).storeVariable S.world.store slot v <;> rfl
  codes h := by
    obtain ⟨_, _, hstore, rfl⟩ := ok_of_run_storeVariable h
    exact storeVariable_codes hstore

theorem Quiet.getReference (slot : Int) : Quiet (Exec.getReference slot) where
  blind := by
    intro S k
    have hcongr : ∀ k, (S.under k).current.frame.getReference (S.under k).world.store slot
        = ((bareFrame S).getReference S.world.store slot).map
            fun p => (p.1, (S.under k).current.frame.withSlots p.2.1, p.2.2) := fun k =>
      getReference_congr (f := (S.under k).current.frame) (g := bareFrame S) rfl _ slot
    rw [seen, run_getReference, run_getReference, hcongr, hcongr]
    cases (bareFrame S).getReference S.world.store slot <;> rfl
  codes h := by
    obtain ⟨_, _, href, rfl⟩ := ok_of_run_getReference h
    exact getReference_codes href

theorem Quiet.output (text : String) : Quiet (Exec.output text) where
  blind := by
    intro S k
    unfold seen Exec.output
    simp only [run_modify]
    obtain ⟨_, ⟨_, buffers, _⟩, _, _, _⟩ := S
    cases buffers <;> rfl
  codes {m _ _} h := by
    obtain ⟨_, ⟨_, buffers, _⟩, _, _, _, _⟩ := m
    cases buffers <;> cases h <;> rfl

theorem Quiet.startBuffering : Quiet Exec.startBuffering where
  blind _ _ := rfl
  codes h := by
    cases h
    rfl

theorem Quiet.endBuffer : Quiet Exec.endBuffer where
  blind := by
    intro S k
    obtain ⟨_, ⟨_, buffers, _⟩, _, _, _⟩ := S
    cases buffers <;> rfl
  codes {m _ _} h := by
    obtain ⟨_, ⟨_, buffers, _⟩, _, _, _, _⟩ := m
    cases buffers <;> cases h
    rfl

def putConstant (name : String) (v : Value) : Exec Unit :=
  modify fun m => { m with world := { m.world with constants := m.world.constants.put name v } }

theorem Quiet.putConstant (name : String) (v : Value) : Quiet (putConstant name v) where
  blind _ _ := rfl
  codes h := by
    cases h
    rfl

end Exec

/-! ### What actions are made of -/

/-- What an action may do beside looking at the program and working on its
variables and its data. -/
inductive Deed where
  | operands
  | printing
  | naming
  | declaring (code : Bytecode)

def Deed.isQuiet : Deed → Prop
  | .printing | .naming => True
  | .operands | .declaring _ => False

/-- The situation as it is seen by an action: without the output. -/
def Situation.sight (S : Situation) : Situation :=
  { S with
    world := { S.world with written := "" }
    interpreter := { S.interpreter with buffers := [] } }

/-- The native functions that have to do with the output. -/
def Native.prints : Native → Bool
  | .printf | .printR | .obStart | .obEndClean | .obFlush => true
  | _ => false

namespace Exec

variable {α β : Type}

/-- The action is put together from small ones, which do nothing but what they
may. -/
inductive MadeOf (may : Deed → Prop) : {α : Type} → Exec α → Prop where
  | pure {α : Type} (r : α) : MadeOf may (Pure.pure r : Exec α)
  | throw {α : Type} (fault : Fault) : MadeOf may (throw fault : Exec α)
  | bind {α β : Type} {x : Exec α} {f : α → Exec β} : MadeOf may x →
      (∀ r, MadeOf may (f r)) → MadeOf may (x >>= f)
  | look {α : Type} {f : Situation → Exec α} : (∀ S, MadeOf may (f S)) →
      MadeOf may (get >>= fun m => f m.situation.sight)
  | onStore {α : Type} {f : Store → Except Fault (α × Store)} :
      (∀ s r s', f s = .ok (r, s') → s'.codes = s.codes) → MadeOf may (Exec.onStore f)
  | getVariable (slot : Int) : MadeOf may (Exec.getVariable slot)
  | storeVariable (slot : Int) (v : Value) : MadeOf may (Exec.storeVariable slot v)
  | getReference (slot : Int) : MadeOf may (Exec.getReference slot)
  | push (v : Value) : may .operands → MadeOf may (Exec.push v)
  | pop : may .operands → MadeOf may Exec.pop
  | top : may .operands → MadeOf may Exec.top
  | popN (n : Int) : may .operands → MadeOf may (Exec.popN n)
  | output (text : String) : may .printing → MadeOf may (Exec.output text)
  | startBuffering : may .printing → MadeOf may Exec.startBuffering
  | endBuffer : may .printing → MadeOf may Exec.endBuffer
  | putConstant (name : String) (v : Value) : may .naming → MadeOf may (Exec.putConstant name v)
  | declareFunction (name : String) {code : Bytecode} : may (.declaring code) →
      MadeOf may (Exec.declareFunction name code)

namespace MadeOf

variable {may : Deed → Prop}

theorem of_sight {a : Exec α} (g : Situation → Exec α) (hg : ∀ S, MadeOf may (g S))
    (h : ∀ m, a.run m = (g m.situation.sight).run m) : MadeOf may a := by
  rw [show a = get >>= fun m => g m.situation.sight from funext h]
  exact .look hg

theorem ofExcept (x : Except Fault α) : MadeOf may (ofExcept x) := by
  cases x with
  | error e => exact .throw e
  | ok r => exact .pure r

theorem fromStore (f : Store → Except Fault α) : MadeOf may (Exec.fromStore f) :=
  .of_sight (fun S => MonadExcept.ofExcept (f S.world.store)) (fun _ => .ofExcept _) fun _ => rfl

theorem check (holds : Bool) : MadeOf may (Exec.check holds) := by
  cases holds
  · exact .throw _
  · exact .pure _

theorem getReferenceByName (name : String) : MadeOf may (Exec.getReferenceByName name) :=
  .of_sight (fun S => Exec.getReference (S.symbols.lookup (some name)))
    (fun _ => .getReference _) fun _ => rfl

theorem requireVariable (slot : Int) (name : String) :
    MadeOf may (Exec.requireVariable slot name) := by
  refine .bind (.getVariable slot) fun v => ?_
  cases v with
  | unset => exact .throw _
  | _ => exact .pure _

theorem argument (args : List Value) (i : Nat) : MadeOf may (Exec.argument args i) := by
  unfold Exec.argument
  split
  · exact .pure _
  · exact .throw _

theorem argumentValue (args : List Value) (i : Nat) : MadeOf may (Exec.argumentValue args i) :=
  .bind (.argument args i) fun _ => .fromStore _

theorem valuesOf (args : List Value) : MadeOf may (Exec.valuesOf args) := by
  induction args with
  | nil => exact .pure _
  | cons v vs ih => exact .bind (.fromStore _) fun _ => .bind ih fun _ => .pure _

theorem newList (items : List Value) : MadeOf may (Exec.newList items) :=
  .onStore fun _ _ _ h => by
    cases h
    rfl

theorem callDefine (args : List Value) (h : may .naming) : MadeOf may (Native.callDefine args) := by
  refine .bind (.argumentValue _ _) fun name => .bind (.check _) fun _ =>
    .bind (.argumentValue _ _) fun v => .bind (.fromStore _) fun name => ?_
  refine .of_sight (fun S => (S.world.constants.get? name).elim
    (do
      Exec.check v.isScript
      Exec.putConstant name v
      return .bool true)
    fun _ => Pure.pure (.bool false)) (fun S => ?_) fun m => ?_
  · cases S.world.constants.get? name with
    | some _ => exact .pure _
    | none => exact .bind (.check _) fun _ => .bind (.putConstant name v h) fun _ => .pure _
  · have hworld : m.situation.sight.world.constants = m.world.constants := rfl
    simp only [run_bind, run_get, hworld]
    cases m.world.constants.get? name with
    | some _ => rfl
    | none => cases hscript : v.isScript <;> rfl

theorem native (f : Native) (args : List Value) (hdefine : f = .define → may .naming)
    (hprints : f.prints → may .printing) : MadeOf may (f.call args) := by
  cases f with
  | define => exact .callDefine args (hdefine rfl)
  | strlen =>
    exact .bind (.argumentValue _ _) fun _ => .bind (.check _) fun _ =>
      .bind (.fromStore _) fun _ => .pure _
  | strRepeat =>
    exact .bind (.argumentValue _ _) fun _ => .bind (.argumentValue _ _) fun _ =>
      .bind (.check _) fun _ => .bind (.check _) fun _ => .bind (.fromStore _) fun _ =>
      .bind (.ofExcept _) fun _ => .bind (.ofExcept _) fun _ => .pure _
  | printf =>
    exact .bind (.argument _ _) fun _ => .bind (.check _) fun _ => .bind (.valuesOf _) fun _ =>
      .bind (.fromStore _) fun _ => .bind (.fromStore _) fun _ =>
      .bind (.output _ (hprints rfl)) fun _ => .pure _
  | printR =>
    exact .bind (.argumentValue _ _) fun _ => .bind (.fromStore _) fun _ =>
      .bind (.output _ (hprints rfl)) fun _ => .pure _
  | dechex =>
    exact .bind (.argumentValue _ _) fun _ => .bind (.check _) fun _ =>
      .bind (.ofExcept _) fun _ => .pure _
  | numberFormat =>
    exact .bind (.argumentValue _ _) fun _ => .bind (.check _) fun _ =>
      .bind (.argumentValue _ _) fun _ => .bind (.check _) fun _ => .bind (.ofExcept _) fun _ =>
      .bind (.ofExcept _) fun _ => .bind (.ofExcept _) fun _ => .pure _
  | range =>
    exact .bind (.argumentValue _ _) fun _ => .bind (.argumentValue _ _) fun _ =>
      .bind (.check _) fun _ => .bind (.check _) fun _ => .bind (.ofExcept _) fun _ =>
      .bind (.ofExcept _) fun _ => .newList _
  | getTimeOfDay =>
    refine .of_sight (fun S => do
      let time ← MonadExcept.ofExcept (Native.secondsAndMicros S.world.clock)
      Exec.onStore fun s => return s.newDict [("sec", .int time.1), ("usec", .int time.2)])
      (fun S => .bind (.ofExcept _) fun _ => .onStore fun _ _ _ h => ?_) fun m => ?_
    · cases h
      rfl
    · have hclock : m.situation.sight.world.clock = m.world.clock := rfl
      simp only [Native.call, run_bind, run_get, hclock]
  | obStart => exact .bind (.startBuffering (hprints rfl)) fun _ => .pure _
  | obEndClean => exact .bind (.endBuffer (hprints rfl)) fun _ => .pure _
  | obFlush =>
    exact .bind (.endBuffer (hprints rfl)) fun _ => .bind (.output _ (hprints rfl)) fun _ =>
      .pure _

theorem operator (op : Operator) (left right : Value) : MadeOf may (op.evaluate left right) := by
  cases op with
  | comma => exact .pure _
  | concat =>
    exact .onStore fun _ _ _ h => by
      obtain ⟨_, _, _, -, rfl⟩ := ok_of_concatenate h
      rfl
  | eq | gt | ge | lt | le => exact .bind (.fromStore _) fun _ => .pure _
  | add | sub | mul | div | mod | ursh | rsh | lsh => exact .ofExcept _

theorem constantAt (place : Int) : MadeOf may (Exec.constantAt place) := by
  refine .of_sight (fun S =>
    ((place? S.constants.size place).bind fun n => S.constants[n]?).elim
      (MonadExcept.throw .outOfRange) Pure.pure) (fun S => ?_) fun m => ?_
  · cases (place? S.constants.size place).bind fun n => S.constants[n]? with
    | some v => exact .pure v
    | none => exact .throw _
  · have hpool : m.situation.sight.constants = m.current.frame.code.constants := rfl
    simp only [Exec.constantAt, run_bind, run_get, hpool]
    cases (place? _ place).bind fun n => m.current.frame.code.constants[n]? <;> rfl

theorem bindArgument (byValue : Bool) (v : Value) : MadeOf may (Exec.bindArgument byValue v) := by
  unfold Exec.bindArgument
  split
  · dsimp only
    split
    · exact .bind (.fromStore _) fun _ => .onStore fun _ _ _ => copy_codes
    · exact .onStore fun _ _ _ => copy_codes
  · split
    · exact .pure _
    · exact .throw _

theorem bindParameters (frame : Frame) (i : Nat) (args : List Value)
    (parameters : List (String × Bool)) :
    MadeOf may (Exec.bindParameters frame i args parameters) := by
  induction parameters generalizing frame i args with
  | nil =>
    rw [Exec.bindParameters]
    exact .pure _
  | cons parameter rest ih =>
    cases args with
    | nil => exact .throw _
    | cons v args =>
      exact .bind (.bindArgument _ _) fun _ =>
        .bind (.onStore fun _ _ _ => storeVariable_codes) fun _ => ih _ _ _

theorem bindGlobals (frame : Frame) (globals : List (String × Int)) :
    MadeOf may (Exec.bindGlobals frame globals) := by
  induction globals generalizing frame with
  | nil => exact .pure _
  | cons named rest ih =>
    exact .bind (.getReferenceByName _) fun _ =>
      .bind (.onStore fun _ _ _ => setReference_codes) fun _ => ih _

theorem enterFunction (code : Bytecode) (args : List Value) :
    MadeOf may (Exec.enterFunction code args) := by
  refine .of_sight (fun S => do
    let frame ← MonadExcept.ofExcept (new S.interpreter.superglobals code)
    let frame ← Exec.bindParameters frame 0 args code.parameters
    let frame ← Exec.bindGlobals frame code.globals
    Exec.check (!code.code.isEmpty)
    return frame) (fun S => ?_) fun _ => rfl
  exact .bind (.ofExcept _) fun _ => .bind (.bindParameters _ _ _ _) fun _ =>
    .bind (.bindGlobals _ _) fun _ => .bind (.check _) fun _ => .pure _

theorem callFunction {L : Type} {f : Value} (args : List Value) (hoperands : may .operands)
    (hdefine : f = .native .define → may .naming)
    (hprints : ∀ g : Native, f = .native g → g.prints → may .printing) :
    MadeOf may (Exec.callFunction f args : Exec (Flow L)) := by
  cases f with
  | native g =>
    exact .bind (.native g args (fun h => hdefine (congrArg _ h)) (hprints g rfl)) fun _ =>
      .bind (.push _ hoperands) fun _ => .pure _
  | code id =>
    exact .of_sight (fun S => do
      return .enter (← Exec.enterFunction (S.world.store.code id) args))
      (fun S => .bind (.enterFunction _ _) fun _ => .pure _) fun _ => rfl
  | _ => exact .throw _

variable (h : may .operands)

include h

theorem taken (kind : Jump) : MadeOf may kind.taken := by
  cases kind with
  | always => exact .pure _
  | ifFalse => exact .bind (.pop h) fun _ => .bind (.ofExcept _) fun _ => .pure _
  | ifFalseKeep =>
    refine .bind (.top h) fun _ => .bind (.ofExcept _) fun holds => ?_
    cases holds
    · exact .pure _
    · exact .bind (.pop h) fun _ => .pure _
  | ifTrueKeep =>
    refine .bind (.top h) fun _ => .bind (.ofExcept _) fun holds => ?_
    cases holds
    · exact .bind (.pop h) fun _ => .pure _
    · exact .pure _
  | ifIteratorEmpty =>
    refine .bind (.pop h) fun last => .bind (.top h) fun v => ?_
    cases v with
    | cursor id =>
      refine .of_sight (fun S =>
        if (S.world.store.cursor id).index = (S.world.store.cursor id).stop then do
          let _ ← Exec.pop
          Exec.push last
          return true
        else return false) (fun S => ?_) fun _ => rfl
      split
      · exact .bind (.pop h) fun _ => .bind (.push _ h) fun _ => .pure _
      · exact .pure _
    | _ => exact .throw _

theorem advance : MadeOf may Exec.advance := by
  refine .bind (.top h) fun v => ?_
  cases v with
  | cursor id =>
    exact .of_sight (fun S => do
      let element ← Exec.fromStore (·.currentElement (S.world.store.cursor id))
      Exec.push element
      Exec.push (.text (currentKey (S.world.store.cursor id)))
      let _ ← Exec.onStore (·.nextElement id))
      (fun S => .bind (.fromStore _) fun _ => .bind (.push _ h) fun _ => .bind (.push _ h) fun _ =>
        .bind (.onStore fun _ _ _ => nextElement_codes) fun _ => .pure _)
      fun _ => rfl
  | hollow kind => cases kind <;> exact .throw _
  | _ => exact .throw _

variable {L : Type}

theorem deliver (v : Value) : MadeOf may (Exec.push v >>= fun _ => Pure.pure (.next : Flow L)) :=
  .bind (.push v h) fun _ => .pure _

theorem lookup {f : Machine → Entries Value} (g : Situation → Entries Value)
    (hf : ∀ m, f m = g m.situation.sight) {name : String} {fault : Fault} :
    MadeOf may (do
      match (f (← get)).get? name with
      | some v => do
        Exec.push v
        return (.next : Flow L)
      | none => MonadExcept.throw fault) := by
  refine .of_sight (fun S => ((g S).get? name).elim (MonadExcept.throw fault) fun v => do
    Exec.push v
    return .next) (fun S => ?_) fun m => ?_
  · cases (g S).get? name with
    | some v => exact .deliver h v
    | none => exact .throw _
  · simp only [run_bind, run_get, hf]
    cases (g m.situation.sight).get? name <;> rfl

end MadeOf

end Exec

open Exec in
/-- Instructions work with operands.  Only `print` and calls print, only calls
give names to constants, and only a declaration declares a function. -/
theorem Instr.exec_madeOf {L : Type} {may : Deed → Prop} (i : Instr L Bytecode)
    (h : may .operands) (hprint : i = .print → may .printing)
    (hcall : ∀ count, i = .call count → may .printing ∧ may .naming)
    (hdeclare : ∀ name code, i = .declareFunction name code → may (.declaring code)) :
    MadeOf may i.exec := by
  cases i with
  | loadNamedConstant name => exact .lookup h (·.world.constants) fun _ => rfl
  | loadVar slot name =>
    exact .bind (.requireVariable _ _) fun _ => .deliver h _
  | loadRef slot name => exact .bind (.getReference _) fun _ => .deliver h _
  | loadFunction name => exact .lookup h (·.interpreter.functions) fun _ => rfl
  | declareFunction name code =>
    exact .bind (.declareFunction name (hdeclare name code rfl)) fun _ => .pure _
  | loadNull | loadBoolean value => exact .deliver h _
  | stringSubstitution count =>
    exact .bind (.pop h) fun _ => .bind (.popN _ h) fun _ => .bind (.fromStore _) fun _ =>
      .deliver h _
  | loadArray count =>
    exact .bind (.popN _ h) fun _ => .bind (.newList _) fun _ => .deliver h _
  | loadConstant place =>
    exact .bind (.constantAt _) fun _ => .deliver h _
  | loadMember =>
    exact .bind (.pop h) fun _ => .bind (.pop h) fun _ => .bind (.fromStore _) fun _ =>
      .deliver h _
  | loadMemberVar slot name =>
    exact .bind (.requireVariable _ _) fun _ => .bind (.pop h) fun _ =>
      .bind (.fromStore _) fun _ => .deliver h _
  | storeMember =>
    exact .bind (.pop h) fun _ => .bind (.pop h) fun _ => .bind (.pop h) fun _ =>
      .bind (.onStore fun _ _ _ => putMember_codes) fun _ => .deliver h _
  | storeMemberVar slot name =>
    exact .bind (.requireVariable _ _) fun _ => .bind (.pop h) fun _ => .bind (.pop h) fun _ =>
      .bind (.onStore fun _ _ _ => putMember_codes) fun _ => .bind (.push _ h) fun _ =>
      .bind (.storeVariable _ _) fun _ => .pure _
  | assign slot name =>
    exact .bind (.pop h) fun _ => .bind (.storeVariable _ _) fun _ => .deliver h _
  | discardTop => exact .bind (.pop h) fun _ => .pure _
  | dup => exact .bind (.top h) fun _ => .deliver h _
  | jump kind target =>
    refine .bind (.taken h kind) fun taken => ?_
    cases taken <;> exact .pure _
  | loadIterator =>
    exact .bind (.pop h) fun _ => .bind (.onStore fun _ _ _ => iterate_codes) fun _ =>
      .deliver h _
  | nextIterator => exact .bind (.advance h) fun _ => .pure _
  | returnTop => exact .bind (.pop h) fun _ => .pure _
  | print =>
    exact .bind (.top h) fun _ => .bind (.fromStore _) fun _ =>
      .bind (.output _ (hprint rfl)) fun _ => .pure _
  | call count =>
    obtain ⟨hprints, hnames⟩ := hcall count rfl
    exact .bind (.pop h) fun _ => .bind (.check _) fun _ => .bind (.popN _ h) fun _ =>
      .callFunction _ h (fun _ => hnames) fun _ _ _ => hprints
  | binary op =>
    exact .bind (.pop h) fun _ => .bind (.pop h) fun _ => .bind (.operator _ _ _) fun _ =>
      .deliver h _
  | unary op =>
    exact .bind (.pop h) fun _ => .bind (.ofExcept _) fun _ => .deliver h _

namespace Exec

variable {α β : Type}

theorem MadeOf.quiet {a : Exec α} (h : MadeOf Deed.isQuiet a) : Quiet a := by
  induction h with
  | pure r => exact .pure r
  | throw fault => exact .throw fault
  | bind _ _ ihx ihf => exact .bind ihx ihf
  | look _ ih => exact .of_situation (fun S => _) (fun S => ih S.sight) fun _ => rfl
  | onStore hf => exact .onStore hf
  | getVariable slot => exact .getVariable slot
  | storeVariable slot v => exact .storeVariable slot v
  | getReference slot => exact .getReference slot
  | output text => exact .output text
  | startBuffering => exact .startBuffering
  | endBuffer => exact .endBuffer
  | putConstant name v => exact .putConstant name v
  | push _ h | pop h | top h | popN _ h | declareFunction _ h => exact h.elim

theorem Quiet.check (holds : Bool) : Quiet (Exec.check holds) := (MadeOf.check holds).quiet

theorem Quiet.textOf (v : Value) : Quiet (Exec.textOf v) := .fromStore _

theorem Quiet.requireVariable (slot : Int) (name : String) :
    Quiet (Exec.requireVariable slot name) := (MadeOf.requireVariable slot name).quiet

theorem Quiet.newList (items : List Value) : Quiet (Exec.newList items) :=
  (MadeOf.newList items).quiet

theorem Quiet.native (f : Native) (args : List Value) : Quiet (f.call args) :=
  (MadeOf.native f args (fun _ => trivial) fun _ => trivial).quiet

theorem Quiet.operator (op : Operator) (left right : Value) : Quiet (op.evaluate left right) :=
  (MadeOf.operator op left right).quiet

theorem Quiet.constantAt (place : Int) : Quiet (Exec.constantAt place) :=
  (MadeOf.constantAt place).quiet

theorem Quiet.enterFunction (code : Bytecode) (args : List Value) :
    Quiet (Exec.enterFunction code args) := (MadeOf.enterFunction code args).quiet

theorem Blind.declareFunction (name : String) (code : Bytecode) :
    Blind (Exec.declareFunction name code) := by
  intro S k
  have hfunctions : ∀ k, (S.under k).interpreter.functions = S.interpreter.functions :=
    fun _ => rfl
  rw [seen, Exec.declareFunction]
  simp only [run_bind, run_onStore, run_get, Pure.pure, Except.pure, hfunctions]
  cases S.interpreter.functions.get? name <;> rfl

end Exec

/-! ### Local actions -/

/-- A control with its own operands that otherwise is another one.  What has
failed before stays on record. -/
def Control.on (k b : Control) : Control :=
  { b with
    capacity := k.capacity
    stack := k.stack
    stackFault := k.stackFault || b.stackFault }

/-- A machine with its own situation and operands that otherwise stands where
a control says. -/
def Machine.rebase (b : Control) (m : Machine) : Machine :=
  m.situation.under (m.control.on b)

namespace Exec

variable {α β : Type}

/-- The action neither looks at the code, the position and the callers nor
changes them. -/
def Local (a : Exec α) : Prop :=
  ∀ b m, a.run (m.rebase b) = mapState (Machine.rebase b) (a.run m)

theorem Local.pure (r : α) : Local (Pure.pure r) := fun _ _ => rfl

theorem Local.throw (fault : Fault) : Local (throw fault : Exec α) := fun _ _ => rfl

theorem Local.bind {x : Exec α} {f : α → Exec β} (hx : Local x) (hf : ∀ r, Local (f r)) :
    Local (x >>= f) := by
  intro b m
  rw [run_bind, run_bind, hx b m]
  cases x.run m with
  | ok r m' => exact hf r b m'
  | error e m' => rfl

theorem Local.of_under {a : Exec α}
    (h : ∀ (S : Situation) (k b : Control),
      a.run (S.under (k.on b)) = mapState (Machine.rebase b) (a.run (S.under k))) :
    Local a := by
  intro b m
  have hm := h m.situation m.control b
  rw [m.situation_under_control] at hm
  exact hm

theorem Blind.local {a : Exec α} (h : Blind a) : Local a := by
  refine .of_under fun S k b => ?_
  rw [h, h]
  cases a.seen S <;> rfl

theorem Quiet.local {a : Exec α} (h : Quiet a) : Local a := h.blind.local

theorem Local.of_situation {a : Exec α} (g : Situation → Exec α) (hg : ∀ S, Local (g S))
    (h : ∀ m, a.run m = (g m.situation).run m) : Local a := by
  intro b m
  rw [h, h]
  exact hg m.situation b m

theorem run_push (v : Value) (S : Situation) (k : Control) :
    (Exec.push v).run (S.under k) =
      if k.stack.length < k.capacity then .ok () (S.under { k with stack := v :: k.stack })
      else .error .checkFailed (S.under { k with stackFault := true }) := by
  have hpush : (S.under k).current.frame.push v = if k.stack.length < k.capacity then
      .ok { (S.under k).current.frame with stack := v :: k.stack } else .error .checkFailed := rfl
  simp only [Exec.push, run_bind, run_get, hpush]
  by_cases h : k.stack.length < k.capacity
  · simp only [if_pos h]
    rfl
  · simp only [if_neg h]
    rfl

theorem run_pop (S : Situation) (k : Control) :
    Exec.pop.run (S.under k) = match k.stack with
      | [] => .error .checkFailed (S.under { k with stackFault := true })
      | v :: rest => .ok v (S.under { k with stack := rest }) := by
  obtain ⟨_, _, stack, _, _, _, _⟩ := k
  cases stack <;> rfl

theorem run_top (S : Situation) (k : Control) :
    Exec.top.run (S.under k) = match k.stack with
      | [] => .error .checkFailed (S.under { k with stackFault := true })
      | v :: _ => .ok v (S.under k) := by
  obtain ⟨_, _, stack, _, _, _, _⟩ := k
  cases stack <;> rfl

theorem run_popN (n : Int) (S : Situation) (k : Control) :
    (Exec.popN n).run (S.under k) =
      if n.toNat ≤ k.stack.length then
        .ok (k.stack.take n.toNat).reverse (S.under { k with stack := k.stack.drop n.toNat })
      else .error .checkFailed
        (S.under { k with stack := k.stack.drop n.toNat, stackFault := true }) := by
  have hpop : (S.under k).current.frame.popN n.toNat = (if n.toNat ≤ k.stack.length then
      .ok (k.stack.take n.toNat).reverse else .error .checkFailed,
      { (S.under k).current.frame with stack := k.stack.drop n.toNat }) := popN_eq _ _
  simp only [Exec.popN, run_bind, run_get, hpop]
  by_cases h : n.toNat ≤ k.stack.length
  · simp only [if_pos h]
    rfl
  · simp only [if_neg h]
    rfl

theorem Local.push (v : Value) : Local (Exec.push v) := by
  refine .of_under fun S k b => ?_
  rw [run_push, run_push]
  by_cases h : k.stack.length < k.capacity
  · rw [if_pos h, if_pos (show (k.on b).stack.length < (k.on b).capacity from h)]
    rfl
  · rw [if_neg h, if_neg (show ¬(k.on b).stack.length < (k.on b).capacity from h)]
    rfl

theorem Local.pop : Local Exec.pop := by
  refine .of_under fun S k b => ?_
  rw [run_pop, run_pop]
  obtain ⟨_, _, stack, _, _, _, _⟩ := k
  cases stack <;> rfl

theorem Local.top : Local Exec.top := by
  refine .of_under fun S k b => ?_
  rw [run_top, run_top]
  obtain ⟨_, _, stack, _, _, _, _⟩ := k
  cases stack <;> rfl

theorem Local.popN (n : Int) : Local (Exec.popN n) := by
  refine .of_under fun S k b => ?_
  rw [run_popN, run_popN]
  by_cases h : n.toNat ≤ k.stack.length
  · rw [if_pos h, if_pos (show n.toNat ≤ (k.on b).stack.length from h)]
    rfl
  · rw [if_neg h, if_neg (show ¬n.toNat ≤ (k.on b).stack.length from h)]
    rfl

theorem MadeOf.local {may : Deed → Prop} {a : Exec α} (h : MadeOf may a) : Local a := by
  induction h with
  | pure r => exact .pure r
  | throw fault => exact .throw fault
  | bind _ _ ihx ihf => exact .bind ihx ihf
  | look _ ih => exact .of_situation (fun S => _) (fun S => ih S.sight) fun _ => rfl
  | onStore hf => exact (Quiet.onStore hf).local
  | getVariable slot => exact (Quiet.getVariable slot).local
  | storeVariable slot v => exact (Quiet.storeVariable slot v).local
  | getReference slot => exact (Quiet.getReference slot).local
  | push v => exact .push v
  | pop => exact .pop
  | top => exact .top
  | popN n => exact .popN n
  | output text => exact (Quiet.output text).local
  | startBuffering => exact Quiet.startBuffering.local
  | endBuffer => exact Quiet.endBuffer.local
  | putConstant name v => exact (Quiet.putConstant name v).local
  | declareFunction name => exact (Blind.declareFunction name _).local

end Exec

theorem Instr.exec_local {L : Type} (i : Instr L Bytecode) : Exec.Local i.exec := by
  have h : Exec.MadeOf (fun _ => True) i.exec :=
    i.exec_madeOf trivial (fun _ => trivial) (fun _ _ => ⟨trivial, trivial⟩) fun _ _ _ => trivial
  exact h.local

end PageScript
