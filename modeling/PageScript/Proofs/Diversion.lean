/-
Output that is collected.

A run can write what is printed, or collect it in a buffer that is opened before the
first step.  The buffers of the second run have one more at the bottom, which holds what
the first run has written (`Output.Diverts`), and the runs go side by side
(`Machine.run_diverted`).  In the end what the one has written is what the other answers
(`collected_is_written`).
-/
import PageScript.Proofs.Transcript

open EStateM (Result)

namespace PageScript

open Sample

/-! ### One more buffer at the bottom -/

/-- Of two outputs, the one has written some text beyond a base, which is in
the outermost buffer of the other. -/
inductive Output.Diverts (base : String) : Output → Output → Prop where
  | intro (text : String) (buffers : List String) :
      Diverts base ⟨base ++ text, buffers⟩ ⟨base, buffers ++ [text]⟩

namespace Output.Diverts

variable {base : String} {o o' o₁ : Output}

theorem print (h : o.Diverts base o') (text : String) :
    (o.print text).Diverts base (o'.print text) := by
  obtain ⟨diverted, buffers⟩ := h
  cases buffers with
  | nil =>
    have hwritten : Diverts base ⟨base ++ (diverted ++ text), []⟩ ⟨base, [diverted ++ text]⟩ :=
      .intro (diverted ++ text) []
    rwa [← String.append_assoc] at hwritten
  | cons buffer rest => exact .intro diverted ((buffer ++ text) :: rest)

/-- What can be done with the one output can be done with the other.  The
converse fails: the second has a buffer to close where the first has none. -/
theorem apply {p : Printing} (h : o.Diverts base o') (hp : p.apply o = .ok o₁) :
    ∃ o₁', p.apply o' = .ok o₁' ∧ o₁.Diverts base o₁' := by
  cases p with
  | prints text =>
    cases hp
    exact ⟨_, rfl, h.print text⟩
  | opens =>
    obtain ⟨diverted, buffers⟩ := h
    cases hp
    exact ⟨_, rfl, .intro diverted ("" :: buffers)⟩
  | flushes =>
    obtain ⟨diverted, buffers⟩ := h
    cases buffers with
    | nil => cases hp
    | cons buffer rest =>
      cases hp
      exact ⟨_, rfl, (Diverts.intro diverted rest).print buffer⟩
  | cleans =>
    obtain ⟨diverted, buffers⟩ := h
    cases buffers with
    | nil => cases hp
    | cons buffer rest =>
      cases hp
      exact ⟨_, rfl, .intro diverted rest⟩

theorem transcript_eq (h : o.Diverts base o') :
    o'.written = base ∧ o.transcript = base ++ String.join o'.buffers.reverse ∧
      o'.buffers ≠ [] := by
  obtain ⟨diverted, buffers⟩ := h
  refine ⟨rfl, ?_, by simp⟩
  simp [transcript, String.append_assoc]

end Output.Diverts

/-! ### Runs side by side -/

namespace Machine

variable {base : String} {o o' : Output} {m m' : Machine}

theorem step_diverted (h : o.Diverts base o') (hm : m.InCapacity) {progress : Progress}
    (hstep : step.run (m.withOutput o) = .ok progress m') :
    ∃ (next : Machine) (o₁ o₁' : Output), m' = next.withOutput o₁ ∧ o₁.Diverts base o₁' ∧
      step.run (m.withOutput o') = .ok progress (next.withOutput o₁') := by
  cases hp : m.printing? with
  | none =>
    -- The step is the same whatever the output is.
    rw [step_mute hp] at hstep
    rw [step_mute hp]
    cases hrun : step.run m with
    | error fault last =>
      rw [hrun] at hstep
      cases hstep
    | ok progress' next =>
      rw [hrun] at hstep
      cases hstep
      exact ⟨next, o, o', rfl, h, rfl⟩
  | some p =>
    obtain ⟨next, failing, hsteps⟩ := step_printing hp (hm _ (.head _))
    rw [hsteps] at hstep
    cases p with
    | error fault => cases hstep
    | ok p =>
      have hbind (o : Output) : ((.ok p : Except Fault Printing) >>= fun p => p.apply o)
          = p.apply o := rfl
      rw [hbind] at hstep
      cases happly : p.apply o with
      | error fault =>
        rw [happly] at hstep
        cases hstep
      | ok o₁ =>
        rw [happly] at hstep
        cases hstep
        obtain ⟨o₁', happly', h₁⟩ := h.apply happly
        refine ⟨next, o₁, o₁', rfl, h₁, ?_⟩
        rw [hsteps, hbind, happly']

theorem run_diverted {fuel : Nat} {v : Value} {last : Machine} (h : o.Diverts base o')
    (hm : m.InCapacity) (hrun : (m.withOutput o).run fuel = (.finished v, last)) :
    ∃ o₁', last.output.Diverts base o₁' ∧
      (m.withOutput o').run fuel = (.finished v, last.withOutput o₁') := by
  induction fuel generalizing m o o' with
  | zero => cases hrun
  | succ fuel ih =>
    rw [run] at hrun
    rw [run]
    cases hstep : step.run (m.withOutput o) with
    | error fault m₁ =>
      rw [hstep] at hrun
      cases hrun
    | ok progress m₁ =>
      rw [hstep] at hrun
      obtain ⟨next, o₁, o₁', rfl, h₁, hstep'⟩ := step_diverted h hm hstep
      rw [hstep']
      cases progress with
      | done w =>
        cases hrun
        exact ⟨o₁', h₁, rfl⟩
      | running =>
        -- Whether operands fit has nothing to do with the output.
        have hnext : (next.withOutput o₁).InCapacity :=
          InCapacity.step (m := m.withOutput o) hm hstep
        exact ih h₁ hnext hrun

theorem launch_withOutput {world : World} {i : Interpreter} {code : Bytecode} {start : Machine}
    (hlaunch : launch world i code = .ok start) (buffers : List String) :
    launch world { i with buffers := buffers } code
      = .ok (start.withOutput ⟨world.written, buffers⟩) := by
  obtain ⟨frame, hnew, h⟩ := ok_of_bind hlaunch
  cases h
  rw [launch]
  show Frame.new i.superglobals code >>= _ = _
  rw [hnew]
  rfl

end Machine

/-! ### The end of a run -/

namespace Interpreter

variable {world : World} {i : Interpreter} {code : Bytecode} {fuel : Nat} {v : Value}

theorem launch_of_finished (h : (i.execute fuel world code).ending = .finished v) :
    ∃ start, Machine.launch world i code = .ok start := by
  cases hlaunch : Machine.launch world i code with
  | ok start => exact ⟨start, rfl⟩
  | error fault =>
    rw [execute, hlaunch] at h
    cases h

theorem execute_diverted (hbuffers : i.buffers = [])
    (h : (i.execute fuel world code).ending = .finished v) :
    ∃ o, Output.Diverts world.written ⟨(i.execute fuel world code).world.written,
        (i.execute fuel world code).interpreter.buffers⟩ o ∧
      ({ i with buffers := [""] }.execute fuel world code).ending = .finished v ∧
      ({ i with buffers := [""] }.execute fuel world code).world
        = { (i.execute fuel world code).world with written := o.written } ∧
      ({ i with buffers := [""] }.execute fuel world code).interpreter
        = { (i.execute fuel world code).interpreter with buffers := o.buffers } := by
  obtain ⟨start, hlaunch⟩ := launch_of_finished h
  have hlaunch' := Machine.launch_withOutput hlaunch [""]
  have hstart : Output.Diverts world.written ⟨world.written, []⟩ ⟨world.written, [""]⟩ := by
    have hempty : Output.Diverts world.written ⟨world.written ++ "", []⟩ ⟨world.written, [""]⟩ :=
      .intro "" []
    rwa [String.append_empty] at hempty
  by_cases hcode : code.code.isEmpty = true
  · rw [execute_of_isEmpty hlaunch hcode] at h ⊢
    rw [execute_of_isEmpty hlaunch' hcode]
    refine ⟨⟨world.written, [""]⟩, ?_, h, rfl, rfl⟩
    dsimp only
    rw [hbuffers]
    exact hstart
  · rw [execute_of_launch hlaunch hcode] at h ⊢
    rw [execute_of_launch hlaunch' hcode]
    obtain ⟨houtput, -⟩ := Machine.of_launch hlaunch
    rw [hbuffers] at houtput
    have hsame : start.withOutput ⟨world.written, []⟩ = start := by
      rw [← houtput, Machine.withOutput_output]
    obtain ⟨o, ho, hrun⟩ := Machine.run_diverted hstart (.launch hlaunch)
      (show (start.withOutput ⟨world.written, []⟩).run fuel = (.finished v, (start.run fuel).2) by
        rw [hsame]
        exact Prod.ext_iff.2 ⟨h, rfl⟩)
    refine ⟨o, ho, ?_⟩
    rw [hrun]
    exact ⟨rfl, rfl, rfl⟩

end Interpreter

/-- A run that collects its output answers what a run that writes it has
written.  If the one ends, from an interpreter without open buffers, so does
the other, with the same result; it writes nothing, and all that it leaves
behind is the same but for that. -/
theorem collected_is_written {world : World} {i : Interpreter} {code : Bytecode} {fuel : Nat}
    {v : Value} (hbuffers : i.buffers = []) (h : (i.run fuel world code).ending = .finished v) :
    ∃ text, (i.runReturn fuel world code).ending = .finished v ∧
      (i.runReturn fuel world code).returned = some text ∧
      (i.runReturn fuel world code).world.written = world.written ∧
      (i.run fuel world code).world.written = world.written ++ text ∧
      (i.run fuel world code).world
        = (i.runReturn fuel world code).world.write text ∧
      (i.run fuel world code).interpreter = (i.runReturn fuel world code).interpreter := by
  rw [Interpreter.ending_run] at h
  have hrun := Interpreter.run_of_finished h
  obtain ⟨o, ho, hending, hworld, hinterpreter⟩ := Interpreter.execute_diverted hbuffers h
  obtain ⟨hbase, htranscript, hopen⟩ := ho.transcript_eq
  obtain ⟨innermost, outer, hcons⟩ := List.exists_cons_of_ne_nil hopen
  -- The collecting run closes the buffers that are left, of which there is at least one.
  have hcollect : i.runReturn fuel world code = { { i with buffers := [""] }.execute fuel world code with
      returned := some (String.join o.buffers.reverse)
      interpreter := { (i.execute fuel world code).interpreter with buffers := [] } } := by
    unfold Interpreter.runReturn
    simp only [hbuffers, hending, Interpreter.collect_eq, hinterpreter, hcons]
  have hwritten : (i.execute fuel world code).world.written
      ++ String.join (i.execute fuel world code).interpreter.buffers.reverse
      = world.written ++ String.join o.buffers.reverse := htranscript
  refine ⟨String.join o.buffers.reverse, ?_⟩
  rw [hcollect, hrun]
  refine ⟨hending, rfl, ?_, hwritten, ?_, rfl⟩
  · rw [hworld, hbase]
  · dsimp only
    rw [hworld, hbase, World.write, World.write, hwritten]

/-- `ob_start(); print "a"; ob_end_clean(); print "b"; ob_start(); ob_start(); print "c";` -/
def leftOpenTree : Tree := programTree [
  expressionTree (callTree "ob_start" []),
  printTree (doubleText "a"),
  expressionTree (callTree "ob_end_clean" []),
  printTree (doubleText "b"),
  expressionTree (callTree "ob_start" []),
  expressionTree (callTree "ob_start" []),
  printTree (doubleText "c")]

/-- A buffer is cleaned and two are left open. -/
theorem collected_is_written_left_open :
    ∃ s b v, Script.ofTree leftOpenTree = .ok s ∧ s.compile "main" = .ok b ∧
      (Interpreter.run 40 {} {} b).ending = .finished v ∧
      (Interpreter.run 40 {} {} b).world.written = "bc" ∧
      (Interpreter.runReturn 40 {} {} b).ending = .finished v ∧
      (Interpreter.runReturn 40 {} {} b).returned = some "bc" ∧
      (Interpreter.runReturn 40 {} {} b).world.written = "" := by
  obtain ⟨s, hread, b, hcompile, hwritten, hends⟩ :
      ∃ s, Script.ofTree leftOpenTree = .ok s ∧ ∃ b, s.compile "main" = .ok b ∧
      (Interpreter.run 40 {} {} b).world.written = "bc" ∧
      (Interpreter.run 40 {} {} b).ending.fault? = none := by decide +kernel
  obtain ⟨v, hv⟩ := Ending.finished_of_fault? hends
  obtain ⟨text, hending, hreturned, hsilent, hsame, -⟩ := collected_is_written rfl hv
  obtain rfl : "bc" = text := by
    rw [hwritten] at hsame
    simpa using hsame
  exact ⟨s, b, v, hread, hcompile, hv, hwritten, hending, hreturned, hsilent⟩

end PageScript
