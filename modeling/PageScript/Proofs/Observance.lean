/-
Machines that keep to a policy.

The code of a program that is accepted is made of bodies along which the kinds of operands
are known (`Bytecode.Stems`).  So a policy that every instruction obeys is kept by the
machine as a whole (`Machine.Abides`): by every step, or the step is the return to an
activation that nothing was said about (`Abides.step`), and along a run or a call
(`Abides.course`).
-/
import PageScript.Proofs.Fitting
import PageScript.Proofs.Places
import PageScript.Proofs.StackBound

namespace PageScript

open Node (IsBody TidyBody)

/-! ### Code along which the kinds are known -/

/-- No parameter by reference has the slot of a superglobal. -/
def Scope.Separate (s : Scope) : Prop :=
  ∀ e ∈ s.parameters.zipIdx, e.1.2 = false → (e.2 : Int) ∉ s.superglobals

instance (s : Scope) : Decidable s.Separate := by
  unfold Scope.Separate
  infer_instance

theorem Scope.separate_new : ({} : Scope).Separate := nofun

namespace Bytecode

variable {globals : Bool} {r : Rules} {scopes : Nat → Scope} {body : Node} {b : Bytecode}

theorem IsIn.separate {s : Scope} (h : b.IsIn s) (hs : s.Separate) : b.Separate := by
  intro n name hparameter
  rw [h.parameters] at hparameter
  rw [h.superglobals]
  exact hs ((name, false), n) (List.mem_zipIdx_iff_getElem?.2 hparameter) rfl

theorem IsIn.literal {s : Scope} (h : b.IsIn s) (hs : s.Literal) {v : Value}
    (hv : v ∈ b.constants) : v.isLiteral := by
  rw [h.constants, List.mem_toArray] at hv
  exact hs v hv

/-- The code is that of a tidy body with expressions wherever values are
wanted, as far as it is run, and so is the code it declares. -/
structure Stems (globals : Bool) (r : Rules) (scopes : Nat → Scope) (body : Node) (b : Bytecode) :
    Prop where
  literal : ∀ id, (scopes id).Literal
  separate : ∀ id, (scopes id).Separate
  isBody : IsBody globals body
  runs : b.Runs r scopes body

/-- Code with literals for constants and with parameters apart from
superglobals that stems from a body, if there is any. -/
structure Proper (globals : Bool) (r : Rules) (b : Bytecode) : Prop where
  literal : ∀ {v}, v ∈ b.constants → v.isLiteral
  separate : b.Separate
  stems : b.code.isEmpty = false → ∃ scopes body, b.Stems globals r scopes body

theorem proper_default : (default : Bytecode).Proper globals r := ⟨nofun, separate_default, nofun⟩

theorem proper_of_assembleBody {name : String} {id : Nat} (hliteral : ∀ id, (scopes id).Literal)
    (hseparate : ∀ id, (scopes id).Separate) (hbody : IsBody globals body) (htidy : TidyBody r body)
    (h : Node.assembleBody name (scopes id) (body.compile scopes) = .ok b) : b.Proper globals r where
  literal := (isIn_of_assembleBody h).literal (hliteral id)
  separate := (isIn_of_assembleBody h).separate (hseparate id)
  stems _ := ⟨scopes, body, hliteral, hseparate, hbody, htidy, b, ⟨name, scopes id, h⟩, rfl, rfl⟩

theorem Stems.kinded {E : List Kind → List Kind → Prop} (hE : r.Compares E)
    (h : b.Stems globals r scopes body) {pos : Nat} {i : Instr Nat Bytecode}
    (hi : b.code[pos]? = some i) : Kinded E (Proper globals r) body.kindsAt pos i := by
  obtain ⟨htidy, b', hcode, hb, -⟩ := h.runs
  rw [hb] at hi
  obtain ⟨line, hline, rfl⟩ := hcode.exists_line htidy hi
  refine h.isBody.kinded hE htidy (fun name f scope hf hft => ?_) hline
  unfold Node.functionCode
  split
  · exact proper_of_assembleBody h.literal h.separate hf hft ‹_›
  · exact proper_default

end Bytecode

theorem Tree.Program.proper {globals : Bool} {r : Rules} {tree : Tree} (h : tree.Program globals)
    {s : Script} (hread : Script.ofTree tree = .ok s) (htidy : s.root.TidyProgram r)
    (hseparate : ∀ scope ∈ s.scopes, scope.Separate) {name : String} {b : Bytecode}
    (hcompile : s.compile name = .ok b) :
    b.Proper globals r ∧ ∃ scopes body, b.Stems globals r scopes body := by
  obtain ⟨body, scope, hroot, hbody⟩ := h.isBody hread
  obtain ⟨body', scope', hroot', htidy⟩ := htidy
  cases hroot.symm.trans hroot'
  have hscopes : ∀ id, (s.scope id).Separate := by
    intro id
    rw [Script.scope, Array.getD_eq_getD_getElem?]
    cases hscope : s.scopes[id]? with
    | none => exact Scope.separate_new
    | some scope => exact hseparate scope (Array.mem_of_getElem? hscope)
  have hcode := Script.isCodeOf_of_compile hroot hcompile
  obtain ⟨own, hown, hcompile⟩ := ok_of_bind hcompile
  rw [Script.ownScope, hroot] at hown
  cases hown
  rw [hroot] at hcompile
  exact ⟨Bytecode.proper_of_assembleBody (h.literal hread) hscopes hbody htidy hcompile,
    s.scope, body, h.literal hread, hscopes, hbody, htidy, b, hcode, rfl, rfl⟩

/-! ### The invariant -/

/-- A lawful policy for the programs that follow some rules, under which kinds
can be compared as it is done for these. -/
structure Policy.Governs (p : Policy) (globals : Bool) (r : Rules)
    (E : List Kind → List Kind → Prop) : Prop where
  lawful : p.Lawful
  codes : p.codes = Bytecode.Proper globals r
  compares : r.Compares E
  fits : ∀ {ks ks' stack}, E ks ks' → p.regime.Fits ks stack → p.regime.Fits ks' stack
  texts : ∀ {cells texts texts'}, p.pools cells texts → p.pools cells texts'

/-- The activation keeps to the policy, where of the operands that are known
for its position the first `n` are missing. -/
structure Activation.Abides (p : Policy) (globals : Bool) (r : Rules) (n : Nat) (a : Activation) :
    Prop where
  proper : a.frame.code.Proper globals r
  stems : ∃ scopes body, a.frame.code.Stems globals r scopes body
  slots : p.regime.Binds a.frame.slots
  fits : ∀ scopes body, a.frame.code.Stems globals r scopes body →
    p.regime.Fits ((body.kindsAt a.pos).drop n) a.frame.stack

def Activation.Waits (p : Policy) (globals : Bool) (r : Rules) (a : Activation) : Prop :=
  ∃ count, a.frame.code.code[a.pos]? = some (.call count) ∧
    a.Abides p globals r (count.toNat + 1)

/-- The machine keeps to the policy; nothing is said about the activations at
the base. -/
structure Machine.Abides (p : Policy) (globals : Bool) (r : Rules) (base : List Activation)
    (m : Machine) : Prop where
  guards : p.Guards m.world m.interpreter
  current : m.current.Abides p globals r 0
  callers : ∃ above, m.callers = above ++ base ∧ ∀ a ∈ above, a.Waits p globals r

section

variable {p : Policy} {globals : Bool} {r : Rules} {E : List Kind → List Kind → Prop}

namespace Activation.Abides

variable {a : Activation}

theorem start {frame : Frame} (hproper : frame.code.Proper globals r)
    (hstems : ∃ scopes body, frame.code.Stems globals r scopes body) (hslots : p.regime.Binds frame.slots)
    (hstack : frame.stack = []) : Activation.Abides p globals r 0 { frame := frame } where
  proper := hproper
  stems := hstems
  slots := hslots
  fits _ _ _ := by
    rw [hstack]
    exact .nil

theorem move {n n' : Nat} {a' : Activation} (h : a.Abides p globals r n)
    (hcode : a'.frame.code = a.frame.code) (hslots : p.regime.Binds a'.frame.slots)
    (hfits : ∀ scopes body, a.frame.code.Stems globals r scopes body →
      p.regime.Fits ((body.kindsAt a'.pos).drop n') a'.frame.stack) : a'.Abides p globals r n' where
  proper := hcode ▸ h.proper
  stems := hcode ▸ h.stems
  slots := hslots
  fits scopes body hstems := hfits scopes body (hcode ▸ hstems)

theorem resume (hp : p.Governs globals r E) (h : a.Waits p globals r) {v : Value}
    (hv : p.storable v) :
    Activation.Abides p globals r 0
      { frame := { a.frame with stack := v :: a.frame.stack }, pos := a.pos + 1 } := by
  obtain ⟨count, hi, ha⟩ := h
  refine ha.move rfl ha.slots fun scopes body hstems => ?_
  obtain ⟨⟨ks, hafter, hnext⟩, -, -, -⟩ := hstems.kinded hp.compares hi
  obtain ⟨-, -, rfl⟩ := Instr.after_call hafter
  -- The value takes the place of the function and its arguments.
  exact hp.fits (hnext rfl) ((ha.fits scopes body hstems).cons (k := .plain) hv)

end Activation.Abides

theorem Instr.fallsThrough_of_next {i : Instr Nat Bytecode} {m m' : Machine}
    (h : i.exec.run m = .ok .next m') : i.fallsThrough := by
  cases i with
  | jump kind target =>
    cases kind with
    | always => cases h
    | _ => rfl
  | returnTop =>
    obtain ⟨v, m₁, -, h⟩ := ok_of_run_bind h
    cases h
  | _ => rfl

namespace Machine.Abides

variable {base : List Activation} {m m' : Machine}

variable (hp : p.Governs globals r E)

include hp

theorem launch {world : World} {interpreter : Interpreter}
    {code : Bytecode} (hguards : p.Guards world interpreter) (hproper : code.Proper globals r)
    (hstems : ∃ scopes body, code.Stems globals r scopes body)
    (hlaunch : Machine.launch world interpreter code = .ok m) : m.Abides p globals r [] := by
  obtain ⟨_, _, hnew, rfl, rfl⟩ := ok_of_launch hlaunch
  obtain ⟨-, hslots, -⟩ := Frame.new_spec hnew
  refine ⟨hguards, .start hproper hstems (fun v hv => ?_) rfl, [], rfl, nofun⟩
  rcases hslots hv with rfl | hv
  · exact .inl (hp.lawful.plain rfl rfl)
  · exact hguards.superglobals hv

variable (h : m.Abides p globals r base)

include h

theorem exec {i : Instr Nat Bytecode} (hi : m.next? = some i) {flow : Flow Nat}
    (hexec : i.exec.run m.tick = .ok flow m') :
    p.Guards m'.world m'.interpreter ∧ p.regime.Flows i flow ∧ m'.current.frame.code = m.current.frame.code ∧
      p.regime.Binds m'.current.frame.slots ∧
      ∀ scopes body, m.current.frame.code.Stems globals r scopes body →
        p.regime.Fits (i.leaving (body.kindsAt m.current.pos) flow) m'.current.frame.stack := by
  have hobeys : ∀ scopes body, m.current.frame.code.Stems globals r scopes body →
      p.regime.Meets (i.leaving (body.kindsAt m.current.pos) flow) m' ∧ p.regime.Flows i flow := by
    intro scopes body hstems
    obtain ⟨⟨ks, hafter, -⟩, -, -, hdeclares⟩ := hstems.kinded hp.compares hi
    have hfits := h.current.fits scopes body hstems
    rw [List.drop_zero] at hfits
    have hconstants : ∀ {v}, v ∈ m.current.frame.code.constants → p.storable v :=
      hp.lawful.constants (by rw [hp.codes]; exact h.current.proper)
    have hobeys : Exec.Obeys p.regime _ True (i.leaving _) (p.regime.Flows i) i.exec :=
      Instr.obeys hp.lawful.complete hafter (fun _ => hp.lawful.joins hp.texts) fun name code hname =>
        (congrFun hp.codes code).mpr (hdeclares name code hname)
    exact (hobeys m.tick flow m' hexec trivial).2
      ⟨⟨Policy.guards_iff.2 h.guards, hconstants, h.current.slots⟩, hfits⟩ trivial
  obtain ⟨scopes, body, hstems⟩ := h.current.stems
  obtain ⟨hmeets, hflows⟩ := hobeys scopes body hstems
  have hsettles : Machine.Settles (fun _ => True) (fun _ => True) m.tick m' :=
    i.exec_settles (fun _ _ _ => trivial) (.inr fun _ => trivial) m.tick flow m' hexec
  exact ⟨Policy.guards_iff.1 hmeets.holds.guards, hflows, hsettles.frame.code, hmeets.holds.slots,
    fun scopes body hstems => (hobeys scopes body hstems).1.fits⟩

/-- A step keeps to the policy, or it is a return to the first activation at
the base. -/
theorem step (hstep : Machine.step.run m = .ok .running m') :
    m'.Abides p globals r base ∨
      ∃ v caller rest, m.callers = base ∧ base = caller :: rest ∧ p.storable v ∧
        p.Guards m'.world m'.interpreter ∧ m'.callers = rest ∧ m'.current =
          { frame := { caller.frame with stack := v :: caller.frame.stack }, pos := caller.pos + 1 } := by
  obtain ⟨i, flow, m₁, hi, hexec, hgoes⟩ := step_goes hstep
  obtain ⟨hguards, hflows, hcode, hslots, hfits⟩ := h.exec hp hi hexec
  have hcallers : m₁.callers = m.callers := (keeps_of_exec hexec).2.2
  have hpos : m₁.current.pos = m.tick.current.pos := pos_of_exec hexec
  obtain ⟨above, habove, hwait⟩ := h.callers
  cases hgoes with
  | next =>
    refine .inl ⟨hguards, h.current.move hcode hslots fun scopes body hstems => ?_, above,
      hcallers.trans habove, hwait⟩
    obtain ⟨⟨ks, hafter, hnext⟩, -, -, -⟩ := hstems.kinded hp.compares hi
    have hleft := hfits scopes body hstems
    rw [Instr.leaving, hafter] at hleft
    exact hp.fits (hnext (Instr.fallsThrough_of_next hexec)) hleft
  | @jump target =>
    refine .inl ⟨hguards, h.current.move hcode hslots fun scopes body hstems => ?_, above,
      hcallers.trans habove, hwait⟩
    obtain ⟨kind, rfl⟩ := hflows
    exact hp.fits ((hstems.kinded hp.compares hi).target kind target rfl) (hfits scopes body hstems)
  | @enter frame =>
    obtain ⟨⟨count, rfl⟩, hcodes, hbinds, hstack⟩ := hflows
    obtain ⟨-, id, args, rest, -, -, -, henter⟩ := Instr.enter_of_exec hexec
    obtain ⟨hown, -, -, hempty⟩ := Exec.enterFunction_frame henter
    replace hcodes := (congrFun hp.codes frame.code).mp hcodes
    refine .inl ⟨hguards, .start hcodes (hcodes.stems (by rw [hown]; exact hempty)) hbinds hstack,
      m₁.current :: above, by rw [hcallers, habove]; rfl, ?_⟩
    refine List.forall_mem_cons.2 ⟨⟨count, by rw [hcode, hpos]; exact hi, ?_⟩, hwait⟩
    refine h.current.move hcode hslots fun scopes body hstems => ?_
    obtain ⟨⟨ks, hafter, -⟩, -, -, -⟩ := hstems.kinded hp.compares hi
    have hleft := hfits scopes body hstems
    rw [Instr.leaving, hafter] at hleft
    obtain ⟨-, -, rfl⟩ := Instr.after_call hafter
    rw [hpos]
    exact hleft
  | @leave v caller rest hcaller hv hroom =>
    obtain ⟨-, hstorable⟩ := hflows
    rw [hcallers, habove] at hcaller
    cases above with
    | nil => exact .inr ⟨v, caller, rest, habove, hcaller, hstorable, hguards, rfl, rfl⟩
    | cons a above =>
      cases hcaller
      exact .inl ⟨hguards, .resume hp (hwait _ (.head _)) hstorable, above, rfl,
        fun a ha => hwait a (.tail _ ha)⟩

variable {n : Nat} (hcourse : Course (fun m => base.length ≤ m.callers.length) n m m')

include hcourse

theorem course (hbase : base.length ≤ m'.callers.length) : m'.Abides p globals r base := by
  induction hcourse with
  | stay m => exact h
  | @next n m m₁ m' _ hstep hrest ih =>
    rcases h.step hp hstep with h₁ | ⟨v, caller, rest, -, hcons, -, -, hcallers, -⟩
    · exact ih h₁ hbase
    · -- After a return to the base the machine would be below it.
      exfalso
      have hm₁ : base.length ≤ m₁.callers.length := by
        cases hrest with
        | stay => exact hbase
        | next hm₁ _ _ => exact hm₁
      rw [hcallers, hcons, List.length_cons] at hm₁
      omega

theorem returns (hback : m'.callers.length < base.length) :
    ∃ v caller rest, base = caller :: rest ∧ p.storable v ∧ p.Guards m'.world m'.interpreter ∧
      m'.callers = rest ∧ m'.current =
        { frame := { caller.frame with stack := v :: caller.frame.stack }, pos := caller.pos + 1 } := by
  induction hcourse with
  | stay m =>
    obtain ⟨above, habove, -⟩ := h.callers
    rw [habove, List.length_append] at hback
    omega
  | @next n m m₁ m' _ hstep hrest ih =>
    rcases h.step hp hstep with h₁ | ⟨v, caller, rest, -, hcons, hv, hguards, hcallers, hcurrent⟩
    · exact ih h₁ hback
    · cases hrest with
      | stay => exact ⟨v, caller, rest, hcons, hv, hguards, hcallers, hcurrent⟩
      | next hm₁ _ _ =>
        rw [hcallers, hcons, List.length_cons] at hm₁
        omega

end Machine.Abides

end

end PageScript
