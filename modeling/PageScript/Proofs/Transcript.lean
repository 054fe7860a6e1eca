/-
Everything that was printed.

`Machine.transcript` is what was written, then the open buffers from the outermost to the
innermost.  A step that prints appends its text to it, and only one that cleans a buffer takes
text away.  So a run that ends and cleans no buffer has written all that was printed, in order
(`nothing_printed_is_lost`).
-/
import PageScript.Proofs.Output
import PageScript.Sample.Grammar

open EStateM (Result)

namespace PageScript

open Sample Machine

namespace Machine

variable {m m' : Machine}

/-! ### Steps -/

theorem transcript_of_mute (h : m.printing? = none) :
    match step.run m with
    | .ok _ m' => m'.transcript = m.transcript
    | .error _ m' => m'.transcript = m.transcript := by
  have hstep := step_mute h m.output
  rw [withOutput_output] at hstep
  rw [hstep]
  cases step.run m <;> rfl

theorem step_of_error {fault : Fault} (h : m.printing? = some (.error fault))
    (hm : m.InCapacity) : ∃ m', step.run m = .error fault m' ∧ m'.transcript = m.transcript := by
  obtain ⟨next, failing, hstep⟩ := step_printing h (hm _ (.head _))
  exact ⟨failing.withOutput m.output, hstep m.output, rfl⟩

theorem step_of_printing {p : Printing} (h : m.printing? = some (.ok p)) (hm : m.InCapacity) :
    match p.apply m.output with
    | .ok o => ∃ m', step.run m = .ok .running m' ∧ m'.output = o
    | .error fault => ∃ m', step.run m = .error fault m' ∧ m'.output = m.output := by
  obtain ⟨next, failing, hstep⟩ := step_printing h (hm _ (.head _))
  have hstep := hstep m.output
  rw [withOutput_output, show (Except.ok p >>= fun p => p.apply m.output) = p.apply m.output from rfl]
    at hstep
  cases happly : p.apply m.output with
  | ok o =>
    rw [happly] at hstep
    exact ⟨next.withOutput o, hstep, rfl⟩
  | error fault =>
    rw [happly] at hstep
    exact ⟨failing.withOutput m.output, hstep, rfl⟩

theorem transcript_of_step (hm : m.InCapacity) (hclean : m.printing? ≠ some (.ok .cleans))
    {progress : Progress} (hstep : step.run m = .ok progress m') :
    m'.transcript = m.transcript ++ m.printed?.getD "" := by
  cases hp : m.printing? with
  | none =>
    have hmute := transcript_of_mute hp
    rw [hstep] at hmute
    rw [printed?, hp]
    simpa using hmute
  | some p =>
    cases p with
    | error fault =>
      -- Such a step fails, so it is not the one that was made.
      obtain ⟨_, herror, -⟩ := step_of_error hp hm
      cases hstep.symm.trans herror
    | ok p =>
      have hprinting := step_of_printing hp hm
      cases happly : p.apply m.output with
      | error fault =>
        rw [happly] at hprinting
        obtain ⟨_, herror, -⟩ := hprinting
        cases hstep.symm.trans herror
      | ok o =>
        rw [happly] at hprinting
        obtain ⟨m₁, hok, rfl⟩ := hprinting
        cases hstep.symm.trans hok
        rw [printed?, hp, transcript_eq, transcript_eq]
        cases p with
        | prints text =>
          rw [← Except.ok.inj happly]
          exact Output.transcript_print m.output text
        | opens => simpa using Printing.transcript_of_opens happly
        | flushes => simpa using Printing.transcript_of_flushes happly
        | cleans => exact absurd hp hclean

/-- The transcript of a run that cleans no buffer has all that was printed, in
order. -/
theorem transcript_of_run {fuel : Nat} {v : Value} (hm : m.InCapacity)
    (hclean : ∀ m₁ ∈ m.states fuel, m₁.printing? ≠ some (.ok .cleans))
    (hrun : m.run fuel = (.finished v, m')) :
    m'.transcript = m.transcript ++ String.join ((m.states fuel).filterMap printed?) := by
  induction fuel generalizing m with
  | zero => cases hrun
  | succ fuel ih =>
    rw [run] at hrun
    rw [states] at hclean ⊢
    cases hstep : step.run m with
    | error fault last =>
      rw [hstep] at hrun
      cases hrun
    | ok progress m₁ =>
      rw [hstep] at hrun hclean
      -- The last step may print as well as any other.
      have hfirst : m₁.transcript = m.transcript ++ m.printed?.getD "" := by
        refine transcript_of_step hm ?_ hstep
        cases progress <;> exact hclean m (.head _)
      cases progress with
      | done w =>
        cases hrun
        rw [hfirst]
        cases hprinted : m.printed? <;> simp [hprinted]
      | running =>
        have hrest := ih (hm.step hstep) (fun m₂ hm₂ => hclean m₂ (.tail _ hm₂)) hrun
        rw [hrest, hfirst]
        cases hprinted : m.printed? <;> simp [hprinted, String.append_assoc]

end Machine

/-! ### Whole runs -/

theorem Ending.finished_of_fault? {e : Ending} (h : e.fault? = none) : ∃ v, e = .finished v := by
  cases e with
  | finished v => exact ⟨v, rfl⟩
  | failed fault => cases h
  | outOfFuel => cases h

namespace Interpreter

variable {world : World} {i : Interpreter} {code : Bytecode} {start : Machine} {fuel : Nat}

theorem execute_of_isEmpty (hlaunch : launch world i code = .ok start)
    (hcode : code.code.isEmpty = true) : i.execute fuel world code
      = { world := world, interpreter := i, ending := .finished .unset } := by
  rw [execute, hlaunch]
  exact if_pos hcode

theorem execute_of_launch (hlaunch : launch world i code = .ok start)
    (hcode : ¬code.code.isEmpty = true) : i.execute fuel world code
      = { world := (start.run fuel).2.world
          interpreter := (start.run fuel).2.interpreter
          ending := (start.run fuel).1
          course := some (start, (start.run fuel).2) } := by
  rw [execute, hlaunch]
  exact if_neg hcode

theorem ending_run : (i.run fuel world code).ending = (i.execute fuel world code).ending := by
  unfold run
  cases h : (i.execute fuel world code).ending <;> simp only [h]

theorem collect_eq (i : Interpreter) : i.collect = String.join i.buffers.reverse := by
  have hrounds : ∀ (buffers : List String) (inner : String),
      buffers.foldl (fun inner outer => outer ++ inner) inner
        = String.join buffers.reverse ++ inner := by
    intro buffers
    induction buffers with
    | nil => simp
    | cons buffer rest ih =>
      intro inner
      rw [List.foldl_cons, ih]
      simp [String.append_assoc]
  rw [collect, hrounds, String.append_empty]

theorem run_of_finished {v : Value} (h : (i.execute fuel world code).ending = .finished v) :
    i.run fuel world code = { i.execute fuel world code with
      world := (i.execute fuel world code).world.write
        (String.join (i.execute fuel world code).interpreter.buffers.reverse)
      interpreter := { (i.execute fuel world code).interpreter with buffers := [] } } := by
  unfold run
  simp only [h, collect_eq]

theorem written_run {v : Value} (h : (i.execute fuel world code).ending = .finished v) :
    (i.run fuel world code).world.written = (i.execute fuel world code).world.written
      ++ String.join (i.execute fuel world code).interpreter.buffers.reverse := by
  rw [run_of_finished h]
  rfl

end Interpreter

theorem Machine.of_launch {world : World} {i : Interpreter} {code : Bytecode} {start : Machine}
    (hlaunch : launch world i code = .ok start) :
    start.output = ⟨world.written, i.buffers⟩ ∧ start.current.frame.code = code ∧
      start.current.pos = 0 ∧ start.callers = [] := by
  obtain ⟨_, _, -, rfl, rfl⟩ := ok_of_launch hlaunch
  exact ⟨rfl, rfl, rfl, rfl⟩

theorem Machine.printed?_of_isEmpty {m : Machine} (h : m.current.frame.code.code.isEmpty = true)
    (hcallers : m.callers = []) (fuel : Nat) : (m.states fuel).filterMap printed? = [] := by
  have hnext : m.next? = none := by
    rw [next?, Array.isEmpty_iff.1 h]
    rfl
  have hprinted : m.printed? = none := by
    have hprinting : m.printing? = none := by
      rw [printing?, hnext]
    rw [printed?, hprinting]
  cases fuel with
  | zero => rfl
  | succ fuel =>
    rw [states, step_of_none hnext, leave_nil (m := m.tick) hcallers]
    simp [hprinted]

theorem Interpreter.written_of_run {world : World} {i : Interpreter} {code : Bytecode}
    {start : Machine} {fuel : Nat} {v : Value} (hlaunch : launch world i code = .ok start)
    (hends : (i.run fuel world code).ending = .finished v)
    (hclean : ∀ m ∈ start.states fuel, m.printing? ≠ some (.ok .cleans)) :
    (i.run fuel world code).world.written = world.written ++ String.join i.buffers.reverse
      ++ String.join ((start.states fuel).filterMap printed?) := by
  obtain ⟨houtput, hstart, -, hcallers⟩ := of_launch hlaunch
  rw [ending_run] at hends
  rw [written_run hends]
  -- Without instructions no machine is run at all.
  by_cases hcode : code.code.isEmpty = true
  · rw [execute_of_isEmpty hlaunch hcode,
      printed?_of_isEmpty (by rw [hstart]; exact hcode) hcallers]
    simp
  · rw [execute_of_launch hlaunch hcode] at hends ⊢
    have hlast := transcript_of_run (.launch hlaunch) hclean
      (Prod.ext_iff.2 ⟨hends, rfl⟩ : start.run fuel = (.finished v, (start.run fuel).2))
    rw [transcript_eq start, houtput] at hlast
    exact hlast

/-- No printed text is lost, written twice or out of order.  At every point of
every run, what was written and what is in the open buffers is one transcript.
A step that prints appends its text, one that opens or flushes a buffer leaves
the transcript as it is, and one that cleans a buffer removes the text of the
innermost one; a step that cannot close a buffer or cannot have its text fails,
and neither this nor any other step changes the transcript.  So a run that
ends, and cleans no buffer, has written all that was printed, in order. -/
theorem nothing_printed_is_lost {world : World} {i : Interpreter} {code : Bytecode}
    {start : Machine} (hlaunch : Machine.launch world i code = .ok start) :
    (∀ {n : Nat} {m : Machine}, Machine.Course (fun _ => True) n start m →
      (∀ text, m.printing? = some (.ok (.prints text)) → ∃ m',
        Machine.step.run m = .ok .running m' ∧ m'.transcript = m.transcript ++ text) ∧
      (m.printing? = some (.ok .opens) → ∃ m', Machine.step.run m = .ok .running m' ∧
        m'.transcript = m.transcript ∧ m'.interpreter.buffers = "" :: m.interpreter.buffers) ∧
      (∀ innermost outer, m.interpreter.buffers = innermost :: outer →
        (m.printing? = some (.ok .flushes) → ∃ m', Machine.step.run m = .ok .running m' ∧
          m'.transcript = m.transcript ∧ m'.interpreter.buffers.length = outer.length) ∧
        (m.printing? = some (.ok .cleans) → ∃ m', Machine.step.run m = .ok .running m' ∧
          m'.transcript ++ innermost = m.transcript ∧ m'.interpreter.buffers = outer)) ∧
      (m.interpreter.buffers = [] →
        m.printing? = some (.ok .flushes) ∨ m.printing? = some (.ok .cleans) →
        ∃ fault m', Machine.step.run m = .error fault m' ∧ m'.transcript = m.transcript) ∧
      (∀ fault, m.printing? = some (.error fault) → ∃ m',
        Machine.step.run m = .error fault m' ∧ m'.transcript = m.transcript) ∧
      (m.printing? = none →
        (∀ progress m', Machine.step.run m = .ok progress m' → m'.transcript = m.transcript) ∧
        ∀ fault m', Machine.step.run m = .error fault m' → m'.transcript = m.transcript)) ∧
    ∀ {fuel : Nat} {v : Value}, (i.run fuel world code).ending = .finished v →
      (∀ m ∈ start.states fuel, m.printing? ≠ some (.ok .cleans)) →
      (i.run fuel world code).world.written = world.written ++ String.join i.buffers.reverse
        ++ String.join ((start.states fuel).filterMap Machine.printed?) := by
  refine ⟨fun {n m} hcourse => ?_, fun hends => Interpreter.written_of_run hlaunch hends⟩
  have hm : m.InCapacity := (Machine.InCapacity.launch hlaunch).course hcourse
  refine ⟨fun text hp => ?_, fun hp => ?_, fun innermost outer hbuffers => ⟨fun hp => ?_, fun hp => ?_⟩,
    fun hbuffers hp => ?_, fun fault hp => Machine.step_of_error hp hm, fun hp => ?_⟩
  · obtain ⟨m', hstep, houtput⟩ := Machine.step_of_printing hp hm
    refine ⟨m', hstep, ?_⟩
    rw [Machine.transcript_eq, houtput]
    exact Output.transcript_print m.output text
  · obtain ⟨m', hstep, houtput⟩ := Machine.step_of_printing hp hm
    refine ⟨m', hstep, ?_, congrArg Output.buffers houtput⟩
    rw [Machine.transcript_eq, houtput]
    exact Printing.transcript_of_opens (o := m.output) rfl
  · have happly := Printing.apply_flushes (o := m.output) hbuffers
    have hprinting := Machine.step_of_printing hp hm
    rw [happly] at hprinting
    obtain ⟨m', hstep, houtput⟩ := hprinting
    refine ⟨m', hstep, ?_, ?_⟩
    · rw [Machine.transcript_eq, houtput]
      exact Printing.transcript_of_flushes happly
    · rw [show m'.interpreter.buffers = m'.output.buffers from rfl, houtput]
      exact Output.length_buffers_print _ _
  · have happly := Printing.apply_cleans (o := m.output) hbuffers
    have hprinting := Machine.step_of_printing hp hm
    rw [happly] at hprinting
    obtain ⟨m', hstep, houtput⟩ := hprinting
    refine ⟨m', hstep, ?_, congrArg Output.buffers houtput⟩
    rw [Machine.transcript_eq, houtput]
    exact Printing.transcript_of_cleans hbuffers happly
  · have hclosing : ∀ p, p = .flushes ∨ p = .cleans → m.printing? = some (.ok p) →
        ∃ fault m', Machine.step.run m = .error fault m' ∧ m'.transcript = m.transcript := by
      intro p hcloses hp
      have hprinting := Machine.step_of_printing hp hm
      rw [Printing.apply_of_nil hcloses hbuffers] at hprinting
      obtain ⟨m', hstep, houtput⟩ := hprinting
      exact ⟨_, m', hstep, congrArg Output.transcript houtput⟩
    exact hp.elim (hclosing _ (.inl rfl)) (hclosing _ (.inr rfl))
  · have hmute := Machine.transcript_of_mute hp
    refine ⟨fun progress m' hstep => ?_, fun fault m' hstep => ?_⟩ <;> rwa [hstep] at hmute

/-- `ob_start(); print "a"; ob_start(); print "b"; ob_flush(); printf("%d", 3);` -/
def bufferingTree : Tree := programTree [
  expressionTree (callTree "ob_start" []),
  printTree (doubleText "a"),
  expressionTree (callTree "ob_start" []),
  printTree (doubleText "b"),
  expressionTree (callTree "ob_flush" []),
  expressionTree (callTree "printf" [doubleText "%d", numeral "3"])]

/-- One buffer is flushed and one is left open, and what was printed is
written. -/
theorem nothing_printed_is_lost_buffered :
    ∃ s b start, Script.ofTree bufferingTree = .ok s ∧ s.compile "main" = .ok b ∧
      Machine.launch {} {} b = .ok start ∧
      (start.states 40).filterMap Machine.printed? = ["a", "b", "3"] ∧
      (Interpreter.run 40 {} {} b).interpreter.buffers = [] ∧
      (Interpreter.run 40 {} {} b).world.written = "ab3" := by
  obtain ⟨s, hread, b, hcompile, start, hlaunch, _, ⟨⟩, hprinted, hclean, hclosed, hends⟩ :
      bufferingTree.ComesTo {} {} 0 fun _ b start =>
      (start.states 40).filterMap Machine.printed? = ["a", "b", "3"] ∧
      decide (∀ m ∈ start.states 40, m.printing? ≠ some (.ok .cleans)) = true ∧
      (Interpreter.run 40 {} {} b).interpreter.buffers = [] ∧
      (Interpreter.run 40 {} {} b).ending.fault? = none := by decide +kernel
  refine ⟨s, b, start, hread, hcompile, hlaunch, hprinted, hclosed, ?_⟩
  obtain ⟨v, hv⟩ := Ending.finished_of_fault? hends
  rw [(nothing_printed_is_lost hlaunch).2 hv (of_decide_eq_true hclean), hprinted]
  decide

end PageScript
