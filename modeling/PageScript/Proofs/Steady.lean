/-
What instructions leave as it is.

`Machine.Settles` says of two machines that the running frame has the same code and as many
slots, and that slots that are bound stay bound; no check of the stack has failed, no code
was added but that of a declared function, and no constant got a name but by a call.
`Instr.exec_settles` says it of every instruction.  A call is the one instruction that enters
a frame (`Instr.enter_of_exec`), so a machine runs only code with a property that the code it
declares has, too (`Machine.RunsOnly`).
-/
import PageScript.Proofs.Compliance
import PageScript.Proofs.Texts

namespace PageScript

open List Exec Frame

/-- Slots of a frame some time later: as many, and each that is bound to a
cell is bound to it still. -/
structure Settled (slots slots' : Array Value) : Prop where
  size : slots'.size = slots.size
  bound : ∀ n id : Nat, slots[n]? = some (Value.ref id) → slots'[n]? = some (Value.ref id)

namespace Settled

variable {slots slots₁ slots₂ : Array Value}

theorem refl (slots : Array Value) : Settled slots slots := ⟨rfl, fun _ _ => id⟩

theorem trans (h : Settled slots slots₁) (h₁ : Settled slots₁ slots₂) : Settled slots slots₂ :=
  ⟨h₁.size.trans h.size, fun n id hn => h₁.bound n id (h.bound n id hn)⟩

end Settled

namespace Frame

variable {f g : Frame} {s t : Store} {slot : Int} {v r : Value}

/-- A frame is replaced by one with the same code and settled slots. -/
structure Settles (f g : Frame) : Prop where
  code : g.code = f.code
  slots : Settled f.slots g.slots

theorem Settles.refl (f : Frame) : f.Settles f := ⟨rfl, .refl _⟩

theorem Settles.trans {h : Frame} (hfg : f.Settles g) (hgh : g.Settles h) : f.Settles h :=
  ⟨hgh.code.trans hfg.code, hfg.slots.trans hgh.slots⟩

theorem store_settles {old : Value} (hload : f.load slot = .ok old) (hold : old.isRef = false)
    (h : f.store slot v = .ok g) : f.Settles g := by
  unfold load at hload
  unfold store at h
  split at hload
  case isTrue => cases hload
  case isFalse hslot =>
    rw [if_neg hslot] at h
    split at h
    case isFalse => cases h
    case isTrue hlt =>
      cases h
      refine ⟨rfl, by simp, fun n id hn => ?_⟩
      -- The slot itself held no reference.
      by_cases hne : slot.toNat = n
      · subst hne
        rw [hn] at hload
        cases hload
        cases hold
      · simpa [Array.getElem?_setIfInBounds_ne hne] using hn

theorem Puts.settles {content : Value → Prop} (h : f.Puts s slot v content g t) : f.Settles g := by
  cases h with
  | cell => exact .refl f
  | slot hload hold hstore => exact store_settles hload hold hstore

theorem storeVariable_settles (h : f.storeVariable s slot v = .ok (g, t)) : f.Settles g :=
  (puts_of_storeVariable h).settles

theorem getReference_settles (h : f.getReference s slot = .ok (r, g, t)) : f.Settles g := by
  cases refers_of_getReference h with
  | found => exact .refl f
  | made hload hold hstore => exact store_settles hload hold hstore

theorem setReference_settles (h : f.setReference s slot r = .ok (g, t)) : f.Settles g := by
  obtain ⟨_, -, hputs⟩ := puts_of_setReference h
  exact hputs.settles

theorem size_of_fillSuperglobals {values : List Value} {slots slots' : Array Value}
    {places : List Int} (h : fillSuperglobals values slots places = .ok slots') :
    slots'.size = slots.size := by
  induction places generalizing values slots with
  | nil =>
    cases h
    rfl
  | cons place rest ih =>
    unfold fillSuperglobals at h
    split at h
    · exact ih h
    · split at h
      · cases h
      · rw [ih h, Array.size_setIfInBounds]

theorem size_of_new {superglobals : List Value} {code : Bytecode}
    (h : new superglobals code = .ok f) : f.slots.size = code.symbolSize := by
  obtain ⟨slots, hslots, h⟩ := ok_of_bind h
  cases h
  rw [size_of_fillSuperglobals hslots, Array.size_replicate]

end Frame

theorem Machine.code_under (m : Machine) {k : Control} (h : k.code = m.current.frame.code) :
    (m.situation.under k).current.frame.code = m.current.frame.code := by
  obtain ⟨_, _, ⟨⟨code, _, _, _⟩, _⟩, _, _, _⟩ := m
  obtain ⟨_, _, _, _, _, _, _⟩ := k
  cases h
  cases code
  rfl

/-- The running frame is settled, no check of its stack has failed, and all
code that is new to the store and all names of constants that are new have a
property.  Code and functions that are there stay. -/
structure Machine.Settles (new : Bytecode → Prop) (named : String → Prop) (m m' : Machine) :
    Prop where
  frame : m.current.frame.Settles m'.current.frame
  stackFault : m'.stackFault = m.stackFault
  codes : ∀ code ∈ m'.world.store.codes, code ∈ m.world.store.codes ∨ new code
  constants : ∀ name ∈ m'.world.constants.keys, name ∈ m.world.constants.keys ∨ named name
  added : m.world.store.codes.size ≤ m'.world.store.codes.size
  functions : m.interpreter.functions <:+ m'.interpreter.functions

namespace Machine.Settles

variable {new : Bytecode → Prop} {named : String → Prop} {m m₁ m₂ : Machine}

theorem of_same (hframe : m.current.frame.Settles m₁.current.frame)
    (hfault : m₁.stackFault = m.stackFault)
    (hcodes : m₁.world.store.codes = m.world.store.codes)
    (hconstants : m₁.world.constants = m.world.constants)
    (hfunctions : m₁.interpreter.functions = m.interpreter.functions) : Settles new named m m₁ where
  frame := hframe
  stackFault := hfault
  codes code hcode := .inl (by rwa [← hcodes])
  constants name hname := .inl (by rwa [← hconstants])
  added := Nat.le_of_eq (congrArg Array.size hcodes.symm)
  functions := hfunctions ▸ suffix_rfl

theorem refl (m : Machine) : Settles new named m m := .of_same (.refl _) rfl rfl rfl rfl

theorem trans (h : Settles new named m m₁) (h₁ : Settles new named m₁ m₂) :
    Settles new named m m₂ where
  frame := h.frame.trans h₁.frame
  stackFault := h₁.stackFault.trans h.stackFault
  codes code hcode := (h₁.codes code hcode).elim (h.codes code) .inr
  constants name hname := (h₁.constants name hname).elim (h.constants name) .inr
  added := Nat.le_trans h.added h₁.added
  functions := h.functions.trans h₁.functions

end Machine.Settles

namespace Exec

open Native (callDefine)

variable {α β : Type} {new : Bytecode → Prop} {named : String → Prop}

/-- Where the action succeeds, it settles the machine. -/
def Settles (new : Bytecode → Prop) (named : String → Prop) (a : Exec α) : Prop :=
  ∀ m r m', a.run m = .ok r m' → Machine.Settles new named m m'

namespace Settles

theorem pure (r : α) : Settles new named (Pure.pure r) := by
  intro m r' m' h
  cases h
  exact .refl m

theorem throw (fault : Fault) : Settles new named (throw fault : Exec α) := by
  intro m r m' h
  cases h

theorem bind {x : Exec α} {f : α → Exec β} (hx : Settles new named x) (hf : ∀ r, Settles new named (f r)) :
    Settles new named (x >>= f) := by
  intro m r m' h
  obtain ⟨a, m₁, hxrun, hfrun⟩ := ok_of_run_bind h
  exact (hx m a m₁ hxrun).trans (hf a m₁ r m' hfrun)

theorem get {f : Machine → Exec β} (hf : ∀ m, Settles new named (f m)) :
    Settles new named (MonadState.get >>= f) :=
  fun m r m' h => hf m m r m' h

theorem ofExcept (x : Except Fault α) : Settles new named (ofExcept x) := by
  cases x with
  | error e => exact .throw e
  | ok r => exact .pure r

theorem onStore {f : Store → Except Fault (α × Store)}
    (hf : ∀ s r s', f s = .ok (r, s') → s'.codes = s.codes) : Settles new named (onStore f) := by
  intro m r m' h
  rw [run_onStore] at h
  split at h
  case h_2 => cases h
  case h_1 s hs =>
    cases h
    exact .of_same (.refl _) rfl (hf _ _ _ hs) rfl rfl

theorem push (v : Value) : Settles new named (push v) := by
  intro m r m' h
  rw [← m.situation_under_control, run_push] at h
  split at h
  · cases h
    exact .of_same ⟨m.code_under rfl, .refl _⟩ rfl rfl rfl rfl
  · cases h

theorem pop : Settles new named pop := by
  intro m r m' h
  rw [← m.situation_under_control, run_pop] at h
  split at h
  · cases h
  · cases h
    exact .of_same ⟨m.code_under rfl, .refl _⟩ rfl rfl rfl rfl

theorem top : Settles new named top := by
  intro m r m' h
  rw [← m.situation_under_control, run_top] at h
  split at h
  · cases h
  · cases h
    exact .of_same ⟨m.code_under rfl, .refl _⟩ rfl rfl rfl rfl

theorem popN (n : Int) : Settles new named (popN n) := by
  intro m r m' h
  rw [← m.situation_under_control, run_popN] at h
  split at h
  · cases h
    exact .of_same ⟨m.code_under rfl, .refl _⟩ rfl rfl rfl rfl
  · cases h

theorem storeVariable (slot : Int) (v : Value) : Settles new named (storeVariable slot v) := by
  intro m r m' h
  obtain ⟨_, _, hstore, rfl⟩ := ok_of_run_storeVariable h
  exact .of_same (storeVariable_settles hstore) rfl (storeVariable_codes hstore) rfl rfl

theorem getReference (slot : Int) : Settles new named (getReference slot) := by
  intro m r m' h
  obtain ⟨_, _, href, rfl⟩ := ok_of_run_getReference h
  exact .of_same (getReference_settles href) rfl (getReference_codes href) rfl rfl

theorem output (text : String) : Settles new named (output text) := by
  intro m r m' h
  cases h
  dsimp only
  split <;> exact .of_same (.refl _) rfl rfl rfl rfl

theorem startBuffering : Settles new named startBuffering := by
  intro m r m' h
  cases h
  exact .of_same (.refl _) rfl rfl rfl rfl

theorem endBuffer : Settles new named endBuffer := by
  intro m r m' h
  obtain ⟨_, ⟨_, buffers, _⟩, _, _, _, _⟩ := m
  cases buffers <;> cases h
  exact .of_same (.refl _) rfl rfl rfl rfl

theorem putConstant (hnamed : ∀ name, named name) (name : String) (v : Value) :
    Settles new named (putConstant name v) := by
  intro m r m' h
  cases h
  exact ⟨.refl _, rfl, fun _ => .inl, fun name _ => .inr (hnamed name), Nat.le_refl _,
    suffix_rfl⟩

theorem declareFunction {name : String} {code : Bytecode} (hcode : new code) :
    Settles new named (declareFunction name code) := by
  intro m r m' h
  obtain ⟨f, m₁, hdeclared, h⟩ := ok_of_run_bind h
  cases hdeclared
  obtain ⟨m₂, m₃, hget, h⟩ := ok_of_run_bind h
  cases hget
  split at h
  · cases h
  · cases h
    have hadded : m.world.store.codes.size ≤ (m.world.store.codes.push code).size := by
      rw [Array.size_push]
      exact Nat.le_succ _
    refine ⟨.refl _, rfl, fun c hc => ?_, fun _ => .inl, hadded, suffix_cons _ _⟩
    rcases Array.mem_push.1 hc with hc | rfl
    · exact .inl hc
    · exact .inr hcode

end Settles

/-- Declares code that is `new`, and names constants only if all names are `named`. -/
def MaySettle (new : Bytecode → Prop) (named : String → Prop) : Deed → Prop
  | .operands | .printing => True
  | .naming => ∀ name, named name
  | .declaring code => new code

theorem MadeOf.settles {a : Exec α} (h : MadeOf (MaySettle new named) a) : Settles new named a := by
  induction h with
  | pure r => exact .pure r
  | throw fault => exact .throw fault
  | bind _ _ ihx ihf => exact .bind ihx ihf
  | look _ ih => exact .get fun m => ih m.situation.sight
  | onStore hf => exact .onStore hf
  | getVariable slot => exact .get fun _ => .ofExcept _
  | storeVariable slot v => exact .storeVariable slot v
  | getReference slot => exact .getReference slot
  | push v => exact .push v
  | pop => exact .pop
  | top => exact .top
  | popN n => exact .popN n
  | output text => exact .output text
  | startBuffering => exact .startBuffering
  | endBuffer => exact .endBuffer
  | putConstant name v hnamed => exact .putConstant hnamed name v
  | declareFunction name hcode => exact .declareFunction hcode

namespace Settles

theorem getReferenceByName (name : String) : Settles new named (getReferenceByName name) :=
  (MadeOf.getReferenceByName name).settles

theorem bindGlobals (frame : Frame) (globals : List (String × Int)) :
    Settles new named (bindGlobals frame globals) :=
  (MadeOf.bindGlobals frame globals).settles

theorem callFunction {L : Type} {f : Value} (hf : f ≠ .native .define ∨ ∀ name, named name)
    (args : List Value) : Settles new named (callFunction f args : Exec (Flow L)) :=
  (MadeOf.callFunction args trivial (fun h => hf.resolve_left (absurd h ·)) fun _ _ _ => trivial).settles

end Settles

end Exec

open Exec in
/-- An instruction settles the machine; it adds no code to the store but that
of a function it declares, and only a call gives names to constants. -/
theorem Instr.exec_settles {L : Type} {new : Bytecode → Prop} {named : String → Prop}
    (i : Instr L Bytecode) (hnew : ∀ name code, i = .declareFunction name code → new code)
    (hnamed : (∀ count, i ≠ .call count) ∨ ∀ name, named name) : Settles new named i.exec := by
  have h : MadeOf (MaySettle new named) i.exec := by
    refine i.exec_madeOf trivial (fun _ => trivial) (fun count hi => ⟨trivial, ?_⟩) hnew
    exact hnamed.resolve_left fun h => h count hi
  exact h.settles

/-! ### Calls -/

namespace Exec

variable {frame frame' : Frame} {m m' : Machine}

theorem bindParameters_settles {i : Nat} {args : List Value} {parameters : List (String × Bool)}
    (h : (bindParameters frame i args parameters).run m = .ok frame' m') :
    frame.Settles frame' :=
  of_bindParameters (fun h hf => hf.trans (storeVariable_settles h)) h (.refl _)

theorem bindGlobals_settles {globals : List (String × Int)}
    (h : (bindGlobals frame globals).run m = .ok frame' m') : frame.Settles frame' :=
  of_bindGlobals (fun h hf => hf.trans (setReference_settles h)) h (.refl _)

theorem size_of_enterFunction {code : Bytecode} {args : List Value}
    (h : (enterFunction code args).run m = .ok frame m') :
    frame.slots.size = code.symbolSize := by
  obtain ⟨first, second, m₁, hnew, hparameters, hglobals, -⟩ := ok_of_run_enterFunction h
  have hsettles := (bindParameters_settles hparameters).trans (bindGlobals_settles hglobals)
  rw [hsettles.slots.size, size_of_new hnew]

theorem ok_of_run_popN {n : Int} {vs : List Value} (h : (popN n).run m = .ok vs m') :
    n.toNat ≤ m.current.frame.stack.length ∧ vs = (m.current.frame.stack.take n.toNat).reverse ∧
      m' = m.withStack (m.current.frame.stack.drop n.toNat) := by
  obtain ⟨_, _, hget, h⟩ := ok_of_run_bind h
  cases hget
  rw [popN_eq] at h
  obtain ⟨_, _, hset, h⟩ := ok_of_run_bind h
  cases hset
  split at h <;> cases h
  exact ⟨‹_›, rfl, rfl⟩

end Exec

/-- Where the action succeeds, it ends with such a way to go on. -/
def Exec.Ends (P : Flow Nat → Prop) (a : Exec (Flow Nat)) : Prop :=
  ∀ m flow m', a.run m = .ok flow m' → P flow

namespace Exec.Ends

variable {P : Flow Nat → Prop}

theorem pure {flow : Flow Nat} (h : P flow) : Ends P (Pure.pure flow) := by
  intro m flow' m' hrun
  cases hrun
  exact h

theorem throw (fault : Fault) : Ends P (throw fault) := by
  intro m flow m' hrun
  cases hrun

theorem bind {α : Type} {x : Exec α} {f : α → Exec (Flow Nat)} (hf : ∀ r, Ends P (f r)) :
    Ends P (x >>= f) := by
  intro m flow m' hrun
  obtain ⟨r, m₁, -, hrun⟩ := ok_of_run_bind hrun
  exact hf r m₁ flow m' hrun

end Exec.Ends

/-- The ways to go on after an instruction. -/
def Instr.EndsWith : Instr Nat Bytecode → Flow Nat → Prop
  | .call _, flow => flow = .next ∨ ∃ frame, flow = .enter frame
  | .jump _ target, flow => flow = .next ∨ flow = .jump target
  | .returnTop, flow => ∃ v, flow = .leave v
  | _, flow => flow = .next

open Exec in
theorem Instr.exec_ends (i : Instr Nat Bytecode) : Ends i.EndsWith i.exec := by
  cases i with
  | call count =>
    refine .bind fun f => .bind fun _ => .bind fun args => ?_
    cases f with
    | native g => exact .bind fun _ => .bind fun _ => .pure (.inl rfl)
    | code id => exact .bind fun _ => .bind fun frame => .pure (.inr ⟨frame, rfl⟩)
    | _ => exact .throw _
  | loadNamedConstant name | loadFunction name =>
    refine .bind fun m => ?_
    split
    · exact .bind fun _ => .pure rfl
    · exact .throw _
  | loadNull | loadBoolean | discardTop | nextIterator | declareFunction =>
    exact .bind fun _ => .pure rfl
  | loadVar | loadRef | loadConstant | dup => exact .bind fun _ => .bind fun _ => .pure rfl
  | loadArray | loadIterator | unary | assign | print =>
    exact .bind fun _ => .bind fun _ => .bind fun _ => .pure rfl
  | stringSubstitution | loadMember | loadMemberVar | binary =>
    exact .bind fun _ => .bind fun _ => .bind fun _ => .bind fun _ => .pure rfl
  | storeMember =>
    exact .bind fun _ => .bind fun _ => .bind fun _ => .bind fun _ => .bind fun _ => .pure rfl
  | storeMemberVar =>
    exact .bind fun _ => .bind fun _ => .bind fun _ => .bind fun _ => .bind fun _ =>
      .bind fun _ => .pure rfl
  | jump kind target =>
    refine .bind fun taken => ?_
    cases taken
    · exact .pure (.inl rfl)
    · exact .pure (.inr rfl)
  | returnTop => exact .bind fun v => .pure ⟨v, rfl⟩

theorem Instr.jump_of_exec {i : Instr Nat Bytecode} {target : Nat} {m m' : Machine}
    (h : i.exec.run m = .ok (.jump target) m') : ∃ kind, i = .jump kind target := by
  have hends := i.exec_ends m _ m' h
  cases i with
  | jump kind target' =>
    rcases hends with hends | hends <;> cases hends
    exact ⟨kind, rfl⟩
  | call count => rcases hends with hends | ⟨frame, hends⟩ <;> cases hends
  | returnTop =>
    obtain ⟨v, hends⟩ := hends
    cases hends
  | _ => cases hends

open Exec in
/-- No instruction but a call enters a frame: that of the function on top of
the stack, with the operands below as arguments. -/
theorem Instr.enter_of_exec {i : Instr Nat Bytecode} {frame : Frame} {m m' : Machine}
    (h : i.exec.run m = .ok (.enter frame) m') :
    ∃ count id args rest, i = .call count ∧
      m.current.frame.stack = .code id :: (args.reverse ++ rest) ∧
      args.length = count.toNat ∧
      (enterFunction (m.world.store.code id) args).run (m.withStack rest) = .ok frame m' := by
  obtain ⟨count, rfl⟩ : ∃ count, i = .call count := by
    have hends := i.exec_ends m _ m' h
    cases i with
    | call count => exact ⟨count, rfl⟩
    | jump kind target => rcases hends with hends | hends <;> cases hends
    | returnTop =>
      obtain ⟨v, hends⟩ := hends
      cases hends
    | _ => cases hends
  obtain ⟨f, m₁, hpop, h⟩ := ok_of_run_bind h
  obtain ⟨stack, hstack, rfl⟩ := ok_of_run_pop hpop
  obtain ⟨_, m₂, hcheck, h⟩ := ok_of_run_bind h
  obtain ⟨args, m₃, hargs, h⟩ := ok_of_run_bind h
  obtain ⟨-, rfl⟩ := ok_of_run_check hcheck
  obtain ⟨hcount, rfl, rfl⟩ := ok_of_run_popN hargs
  change count.toNat ≤ stack.length at hcount
  cases f with
  | code id =>
    obtain ⟨_, _, hget, h⟩ := ok_of_run_bind h
    cases hget
    obtain ⟨frame', m₄, henter, h⟩ := ok_of_run_bind h
    cases h
    refine ⟨count, id, _, stack.drop count.toNat, rfl, ?_, ?_, henter⟩
    · rw [hstack, reverse_reverse]
      exact congrArg (Value.code id :: ·) (take_append_drop count.toNat stack).symm
    · show (stack.take count.toNat).reverse.length = _
      simp [hcount]
  | native g =>
    obtain ⟨v, m₄, -, h⟩ := ok_of_run_bind h
    obtain ⟨_, m₅, -, h⟩ := ok_of_run_bind h
    cases h
  | _ => cases h

/-! ### Code that is passed on -/

/-- A property of code that the functions it declares have, too. -/
structure Bytecode.Hereditary (P : Bytecode → Prop) : Prop where
  default : P default
  declared : ∀ {b : Bytecode} {name : String} {code : Bytecode}, P b →
    .declareFunction name code ∈ b.code → P code

/-- The activation runs code with a property, in a frame with a slot for every
symbol of the code. -/
structure Activation.RunsOnly (P : Bytecode → Prop) (a : Activation) : Prop where
  code : P a.frame.code
  size : a.frame.slots.size = a.frame.code.symbolSize

/-- All code of a machine has a property, and every frame has a slot for every
symbol of its code. -/
structure Machine.RunsOnly (P : Bytecode → Prop) (m : Machine) : Prop where
  codes : ∀ code ∈ m.world.store.codes, P code
  activations : ∀ a ∈ m.current :: m.callers, a.RunsOnly P

namespace Machine.RunsOnly

variable {P : Bytecode → Prop} {m m' : Machine}

theorem code (h : m.RunsOnly P) (hP : Bytecode.Hereditary P) (id : Nat) :
    P (m.world.store.code id) := by
  rw [Store.code, Array.getD_eq_getD_getElem?]
  cases hcode : m.world.store.codes[id]? with
  | none => exact hP.default
  | some code => exact h.codes code (Array.mem_of_getElem? hcode)

theorem exec (h : m.RunsOnly P) (hP : Bytecode.Hereditary P) {i : Instr Nat Bytecode}
    (hi : m.next? = some i) {flow : Flow Nat}
    (hexec : i.exec.run m = .ok flow m') : m'.RunsOnly P := by
  have hcurrent := h.activations m.current mem_cons_self
  have hnew : ∀ name code, i = .declareFunction name code → P code := by
    rintro name code rfl
    exact hP.declared hcurrent.code (Array.mem_of_getElem? hi)
  have hsettles := i.exec_settles hnew (.inr fun _ => trivial) m flow m' hexec
  refine ⟨fun code hcode => (hsettles.codes code hcode).elim (h.codes code) id, ?_⟩
  rw [(keeps_of_exec hexec).2.2]
  refine forall_mem_cons.2 ⟨⟨?_, ?_⟩, fun a ha => h.activations a (mem_cons_of_mem _ ha)⟩
  · rw [hsettles.frame.code]
    exact hcurrent.code
  · rw [hsettles.frame.slots.size, hsettles.frame.code]
    exact hcurrent.size

theorem step (h : m.RunsOnly P) (hP : Bytecode.Hereditary P)
    (hstep : Machine.step.run m = .ok .running m') : m'.RunsOnly P := by
  obtain ⟨i, flow, m₁, hi, hexec, hgoes⟩ := step_goes hstep
  have htick : m.tick.RunsOnly P := ⟨h.codes, h.activations⟩
  have hm₁ := htick.exec hP hi hexec
  obtain ⟨hcurrent, hcallers⟩ := forall_mem_cons.1 hm₁.activations
  cases hgoes with
  | next | jump => exact ⟨hm₁.codes, forall_mem_cons.2 ⟨⟨hcurrent.code, hcurrent.size⟩, hcallers⟩⟩
  | enter =>
    obtain ⟨count, id, args, rest, -, -, -, henter⟩ := Instr.enter_of_exec hexec
    have hcode := (enterFunction_frame henter).1
    refine ⟨hm₁.codes, forall_mem_cons.2 ⟨⟨?_, ?_⟩, hm₁.activations⟩⟩
    · rw [hcode]
      exact htick.code hP id
    · rw [size_of_enterFunction henter, hcode]
  | leave hwaiting =>
    rw [hwaiting] at hcallers
    obtain ⟨hcaller, hrest⟩ := forall_mem_cons.1 hcallers
    exact ⟨hm₁.codes, forall_mem_cons.2 ⟨⟨hcaller.code, hcaller.size⟩, hrest⟩⟩

theorem course (h : m.RunsOnly P) (hP : Bytecode.Hereditary P) {Q : Machine → Prop} {n : Nat}
    (hcourse : Course Q n m m') : m'.RunsOnly P := by
  induction hcourse with
  | stay m => exact h
  | next _ hstep _ ih => exact ih (h.step hP hstep)

theorem launch {world : World} {interpreter : Interpreter} {b : Bytecode}
    (hworld : ∀ code ∈ world.store.codes, P code) (hb : P b)
    (h : Machine.launch world interpreter b = .ok m) : m.RunsOnly P := by
  obtain ⟨_, _, hnew, rfl, rfl⟩ := ok_of_launch h
  exact ⟨hworld, forall_mem_cons.2 ⟨⟨hb, size_of_new hnew⟩, nofun⟩⟩

end Machine.RunsOnly

end PageScript
