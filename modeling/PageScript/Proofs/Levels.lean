/-
The depth of the operand stacks of a running machine.

All activations of a machine keep to the depths of the bodies that their code
is made from: `Levelled` is kept by every step that is not a jump out of a
`while` or `foreach` loop (`Levelled.step`), hence along every course without
such a jump (`Levelled.course`).  An activation that waits for a call is short
of the function and the arguments, which the call has taken off its stack.
-/
import PageScript.Proofs.Course
import PageScript.Proofs.Heights
import PageScript.Proofs.Spacing

namespace PageScript

variable {r : Rules} {scopes : Nat → Scope} {body : Node}

theorem Bytecode.Runs.exists_typed {b : Bytecode} (h : b.Runs r scopes body)
    (hr : r.globals = false) {pos : Nat} {i : Instr Nat Bytecode} (hi : b.code[pos]? = some i) :
    ∃ line, (body.layout scopes 0 0 {})[pos]? = some line ∧ line.instr = i ∧
      Typed r (body.heights scopes) pos line := by
  obtain ⟨htidy, b', hcode, hb, -⟩ := h
  rw [hb] at hi
  obtain ⟨line, hline, hinstr⟩ := hcode.exists_line htidy hi
  exact ⟨line, hline, hinstr, htidy.typed hr hline⟩

/-- An activation runs the code of a tidy body, and `n` values are missing
from its stack. -/
structure Activation.Level (r : Rules) (n : Nat) (a : Activation) : Prop where
  tidy : ∃ scopes body, a.frame.code.Runs r scopes body
  capacity : a.frame.capacity = a.frame.code.stackSize
  full : a.frame.stack.length ≤ a.frame.capacity
  depth : ∀ scopes body, a.frame.code.Runs r scopes body →
    a.frame.stack.length + n = body.heights scopes a.pos

/-- The next instruction of the activation is a jump out of a loop that is no
`for` loop. -/
def Activation.Strays (r : Rules) (a : Activation) : Prop :=
  ∃ scopes body line l, a.frame.code.Runs r scopes body ∧
    (body.layout scopes 0 0 {})[a.pos]? = some line ∧
    (line.mark = .leaves l ∨ line.mark = .continues l) ∧ l.kind ≠ .forLoop

/-- All code is tidy, and all stacks are as deep as they should be. -/
structure Machine.Levelled (r : Rules) (m : Machine) : Prop where
  codes : ∀ code ∈ m.world.store.codes, code.IsTidy r
  current : m.current.Level r 0
  callers : ∀ a ∈ m.callers, ∃ count, a.frame.code.code[a.pos]? = some (.call count) ∧
    a.Level r (count.toNat + 1)

namespace Activation.Level

variable {a a' : Activation}

theorem move {n n' : Nat} (h : a.Level r n) (hcode : a'.frame.code.code = a.frame.code.code)
    (hsize : a'.frame.code.stackSize = a.frame.code.stackSize)
    (hcapacity : a'.frame.capacity = a.frame.capacity)
    (hfull : a'.frame.stack.length ≤ a.frame.capacity)
    (hdepth : ∀ scopes body, a.frame.code.Runs r scopes body →
      a'.frame.stack.length + n' = body.heights scopes a'.pos) : a'.Level r n' := by
  have hruns : ∀ {scopes body}, a'.frame.code.Runs r scopes body ↔
      a.frame.code.Runs r scopes body := by
    intro scopes body
    rw [Bytecode.Runs, Bytecode.Runs, hcode, hsize]
  obtain ⟨scopes, body, htidy⟩ := h.tidy
  exact {
    tidy := ⟨scopes, body, hruns.2 htidy⟩
    capacity := by rw [hcapacity, h.capacity, hsize]
    full := by rwa [hcapacity]
    depth := fun scopes body hbody => hdepth scopes body (hruns.1 hbody) }

variable (hr : r.globals = false)

include hr

theorem start {frame : Frame}
    (htidy : ∃ scopes body, frame.code.Runs r scopes body)
    (hcapacity : frame.capacity = frame.code.stackSize) (hstack : frame.stack = []) :
    Activation.Level r 0 { frame := frame } where
  tidy := htidy
  capacity := hcapacity
  full := by simp [hstack]
  depth scopes body h := by simp [hstack, h.1.heights_zero hr]

theorem needs_le (h : a.Level r 0) {i : Instr Nat Bytecode}
    (hi : a.frame.code.code[a.pos]? = some i) : i.needs ≤ a.frame.stack.length := by
  obtain ⟨scopes, body, htidy⟩ := h.tidy
  obtain ⟨line, -, rfl, htyped⟩ := htidy.exists_typed hr hi
  have hdepth := h.depth scopes body htidy
  rw [htyped.depth, Nat.add_zero] at hdepth
  rw [hdepth]
  exact htyped.needs

theorem next {n : Nat} (h : a.Level r n) {i : Instr Nat Bytecode}
    (hi : a.frame.code.code[a.pos]? = some i) (hthrough : i.fallsThrough)
    (hbody : a.frame.code.Runs r scopes body) :
    body.heights scopes (a.pos + 1) + i.needs = a.frame.stack.length + n + i.leaves := by
  obtain ⟨line, -, rfl, htyped⟩ := hbody.exists_typed hr hi
  rw [htyped.next hthrough, h.depth scopes body hbody, htyped.depth]

theorem target (h : a.Level r 0) (hstrays : ¬a.Strays r) {kind : Jump}
    {target : Nat} (hi : a.frame.code.code[a.pos]? = some (.jump kind target))
    (hbody : a.frame.code.Runs r scopes body) :
    body.heights scopes target + kind.needs = a.frame.stack.length + kind.leavesTaken := by
  obtain ⟨line, hline, hinstr, htyped⟩ := hbody.exists_typed hr hi
  have hdepth := h.depth scopes body hbody
  rw [htyped.depth, Nat.add_zero] at hdepth
  have hfor : ∀ l, line.mark = .leaves l ∨ line.mark = .continues l → l.kind = .forLoop := by
    intro l hmark
    by_contra hkind
    exact hstrays ⟨scopes, body, line, l, hbody, hline, hmark, hkind⟩
  have hmark := htyped.mark
  rw [hdepth]
  cases hm : line.mark with
  | plain => exact htyped.target kind target hinstr (by rw [hm]; rfl)
  | loop l => exact htyped.target kind target hinstr (by rw [hm]; rfl)
  | leaves l =>
    have hkind := hfor l (.inl hm)
    rw [hm] at hmark
    obtain ⟨hjump, hinside, hsettled, -⟩ := hmark
    rw [hinstr] at hjump
    cases hjump
    rw [hsettled.finish, hinside, Loop.inside, hkind]
    rfl
  | continues l =>
    have hkind := hfor l (.inr hm)
    rw [hm] at hmark
    obtain ⟨⟨target', hjump, hnext⟩, hinside, hsettled, -⟩ := hmark
    rw [hinstr] at hjump
    cases hjump
    rw [hnext.2 (by rw [hkind]; exact nofun), hsettled.next, hinside, Loop.inside, Loop.turn, hkind]
    rfl

theorem isTidy_declared {n : Nat} (h : a.Level r n) {name : String}
    {code : Bytecode} (hi : a.frame.code.code[a.pos]? = some (.declareFunction name code)) :
    code.IsTidy r := by
  obtain ⟨scopes, body, htidy⟩ := h.tidy
  obtain ⟨line, -, hinstr, htyped⟩ := htidy.exists_typed hr hi
  exact htyped.declares name code hinstr

end Activation.Level

namespace Machine.Levelled

variable {m m' : Machine}

theorem launch (hr : r.globals = false) {world : World} {interpreter : Interpreter}
    {code : Bytecode} (hcodes : ∀ code ∈ world.store.codes, code.IsTidy r)
    (hcode : code.Runs r scopes body)
    (hlaunch : Machine.launch world interpreter code = .ok m) : m.Levelled r := by
  obtain ⟨_, _, -, rfl, rfl⟩ := ok_of_launch hlaunch
  exact ⟨hcodes, .start hr ⟨scopes, body, hcode⟩ rfl rfl, fun a ha => by cases ha⟩

theorem isTidy_code (hm : m.Levelled r) (id : Nat) : (m.world.store.code id).IsTidy r := by
  rw [Store.code, Array.getD_eq_getD_getElem?]
  cases hid : m.world.store.codes[id]? with
  | none => exact fun h => by cases h
  | some code => exact hm.codes code (Array.mem_of_getElem? hid)

theorem step (hm : m.Levelled r) (hr : r.globals = false) (hstrays : ¬m.current.Strays r)
    (hstep : step.run m = .ok .running m') : m'.Levelled r := by
  obtain ⟨i, flow, m₁, hi, hexec, hgoes⟩ := step_goes hstep
  have hsound := i.exec_effect m.situation m.ticked (hm.current.needs_le hr hi) hm.current.full
  rw [tick_eq] at hexec
  rw [hexec] at hsound
  obtain ⟨T, s, rfl, hfull, hsucceeds⟩ := hsound
  cases hgoes with
  | next =>
    obtain ⟨hthrough, hlength, hcodes⟩ := hsucceeds
    refine ⟨?_, hm.current.move rfl rfl rfl hfull fun scopes body hbody => ?_, hm.callers⟩
    · intro code hcode
      rcases hcodes with hcodes | ⟨name, declared, rfl, hcodes⟩
      · exact hm.codes code (hcodes ▸ hcode)
      · replace hcode : code ∈ m.world.store.codes.push declared := hcodes ▸ hcode
        rcases Array.mem_push.1 hcode with hcode | rfl
        · exact hm.codes code hcode
        · exact hm.current.isTidy_declared hr hi
    · have hnext := hm.current.next hr hi hthrough hbody
      replace hlength : s.length + i.needs = m.current.frame.stack.length + i.leaves := hlength
      show s.length + 0 = body.heights scopes (m.current.pos + 1)
      omega
  | @jump target =>
    obtain ⟨kind, rfl, hlength, hcodes⟩ := hsucceeds
    refine ⟨fun code hcode => hm.codes code (hcodes ▸ hcode),
      hm.current.move rfl rfl rfl hfull fun scopes body hbody => ?_, hm.callers⟩
    have htarget := hm.current.target hr hstrays hi hbody
    replace hlength : s.length + kind.needs = m.current.frame.stack.length + kind.leavesTaken :=
      hlength
    show s.length + 0 = body.heights scopes target
    omega
  | enter =>
    obtain ⟨count, id, rfl, hlength, hcodes, hcode, hcapacity, hstack, hempty⟩ := hsucceeds
    refine ⟨fun code hcode => hm.codes code (hcodes ▸ hcode),
      .start hr ((hcode ▸ hm.isTidy_code id) hempty) hcapacity hstack, ?_⟩
    rintro a (_ | ⟨_, ha⟩)
    · refine ⟨count, hi, hm.current.move rfl rfl rfl hfull fun scopes body hbody => ?_⟩
      exact hlength.trans (hm.current.depth scopes body hbody)
    · exact hm.callers a ha
  | @leave _ caller rest hcallers _ hroom =>
    obtain ⟨rfl, hlength, hcodes⟩ := hsucceeds
    have hothers := hcallers ▸ hm.callers
    obtain ⟨count, hcall, hcaller⟩ := hothers _ (.head _)
    refine ⟨fun code hcode => hm.codes code (hcodes ▸ hcode),
      hcaller.move rfl rfl rfl hroom fun scopes body hbody => ?_,
      fun a ha => hothers a (.tail _ ha)⟩
    -- The value takes the place of the function and its arguments.
    have hnext := hcaller.next hr hcall rfl hbody
    simp only [Instr.needs, Instr.leaves, Instr.operation?] at hnext
    show caller.frame.stack.length + 1 + 0 = body.heights scopes (caller.pos + 1)
    omega

theorem course {P : Machine → Prop} {n : Nat} (hP : ∀ m, P m → ¬m.current.Strays r)
    (hr : r.globals = false) (hm : m.Levelled r) (h : Course P n m m') : m'.Levelled r := by
  induction h with
  | stay m => exact hm
  | next hPm hstep _ ih => exact ih (hm.step hr (hP _ hPm) hstep)

end Machine.Levelled

end PageScript
