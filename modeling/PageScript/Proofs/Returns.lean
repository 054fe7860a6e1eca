/-
The `RETURN` that is left out.

From the code that is run each `RETURN` that directly follows a `RETURN` is left out.  In
grammatical programs this can only be the last one of a body (`Bytecode.IsCodeOf.code_cases`),
and it can be reached: a branch that ends before it joins the other one there.  The two runs
of a body, with all its instructions and with those that are left (`withBase`, `relined`), go
side by side until one of them stands there (`sameOutcome_listing_iff`).
-/
import PageScript.Proofs.Reading
import PageScript.Proofs.StackBound
import PageScript.Sample.Grammar

open EStateM (Result)

namespace PageScript

open Machine

variable {k : Array (Instr Nat Bytecode)}
  {g : Array (Instr Nat Bytecode) → Array (Instr Nat Bytecode)} {m m' : Machine}

/-! ### Other instructions for the outermost activation -/

/-- The activation with other instructions, also in its listing. -/
def Activation.relined (k : Array (Instr Nat Bytecode))
    (g : Array (Instr Nat Bytecode) → Array (Instr Nat Bytecode)) (a : Activation) : Activation :=
  { a with frame := { a.frame with
      code := { a.frame.code with code := k, listing := g a.frame.code.listing } } }

namespace Machine

/-- Other instructions for the last of the activations that wait, also in its
listing. -/
def lastRelined (k : Array (Instr Nat Bytecode))
    (g : Array (Instr Nat Bytecode) → Array (Instr Nat Bytecode)) :
    List Activation → List Activation
  | [] => []
  | [a] => [a.relined k g]
  | a :: b :: rest => a :: lastRelined k g (b :: rest)

/-- The machine with other instructions for its outermost activation, also in
its listing. -/
def relined (k : Array (Instr Nat Bytecode))
    (g : Array (Instr Nat Bytecode) → Array (Instr Nat Bytecode)) (m : Machine) : Machine :=
  match m.callers with
  | [] => { m with current := m.current.relined k g }
  | a :: rest => { m with callers := lastRelined k g (a :: rest) }

theorem relined_of_nil (h : m.callers = []) :
    m.relined k g = { m with current := m.current.relined k g } := by
  rw [relined, h]

theorem relined_of_cons {a : Activation} {rest : List Activation} (h : m.callers = a :: rest) :
    m.relined k g = { m with callers := lastRelined k g (a :: rest) } := by
  rw [relined, h]

@[simp] theorem relined_world : (m.relined k g).world = m.world := by
  unfold relined
  split <;> rfl

@[simp] theorem relined_interpreter : (m.relined k g).interpreter = m.interpreter := by
  unfold relined
  split <;> rfl

@[simp] theorem relined_steps : (m.relined k g).steps = m.steps := by
  unfold relined
  split <;> rfl

theorem relined_tick : (m.relined k g).tick = m.tick.relined k g := by
  cases h : m.callers with
  | nil => rw [relined_of_nil h, relined_of_nil (m := m.tick) h]; rfl
  | cons a rest => rw [relined_of_cons h, relined_of_cons (m := m.tick) h]; rfl

theorem mainFrame_relined : (m.relined k g).mainFrame
    = { m.mainFrame with code := { m.mainFrame.code with
        code := k, listing := g m.mainFrame.code.listing } } := by
  have hlast : ∀ (a : Activation) (l : List Activation) (d d' : Activation),
      (lastRelined k g (a :: l)).getLastD d = ((a :: l).getLastD d').relined k g := by
    intro a l
    induction l generalizing a with
    | nil => exact fun _ _ => rfl
    | cons b l ih =>
      intro d d'
      rw [lastRelined, List.getLastD_cons, List.getLastD_cons]
      exact ih b a a
  cases h : m.callers with
  | nil =>
    rw [relined_of_nil h, mainFrame, mainFrame, h]
    rfl
  | cons a rest =>
    rw [relined_of_cons h, mainFrame, mainFrame, h]
    exact congrArg Activation.frame (hlast a rest _ _)

end Machine

theorem Exec.Local.relined {α : Type} {a : Exec α} (ha : Exec.Local a) :
    a.run (m.relined k g) = mapState (relined k g) (a.run m) := by
  let b : Control := { (m.relined k g).control with stackFault := false }
  refine ha.commute (b := b) ?_ fun m' h => ?_
  · obtain ⟨_, _, ⟨⟨code, _, _, _⟩, _⟩, callers, _, stackFault⟩ := m
    cases code
    cases callers <;> cases stackFault <;> rfl
  · rw [h]
    obtain ⟨_, _, ⟨⟨code, _, _, _⟩, _⟩, callers, _, _⟩ := m
    obtain ⟨_, _, ⟨⟨code', _, _, _⟩, _⟩, _, _, stackFault⟩ := m'
    cases code
    cases callers <;> cases stackFault <;> rfl

namespace Machine

theorem leave_relined (v : Value) (m : Machine) :
    (leave v).run (m.relined k g) = mapState (relined k g) ((leave v).run m) := by
  refine leave_commute v (fun h => ?_) fun {a rest} h => ?_
  · rw [relined_of_nil h]
    exact h
  · rw [relined_of_cons h]
    -- The one that waits is the outermost activation, or it stays as it is.
    cases rest with
    | nil => exact ⟨a.relined k g, [], rfl, rfl, rfl, rfl, rfl⟩
    | cons next rest => exact ⟨a, lastRelined k g (next :: rest), rfl, rfl, rfl, rfl, rfl⟩

theorem proceed_relined (pos : Nat) (flow : Flow Nat) (m : Machine) :
    (proceed pos flow).run (m.relined k g) = mapState (relined k g) ((proceed pos flow).run m) := by
  cases flow with
  | leave v => exact leave_relined v m
  | next | jump target | enter frame =>
    obtain ⟨world, interpreter, current, callers, steps, stackFault⟩ := m
    cases callers <;> rfl

theorem step_relined (h : m.callers = [] → k[m.current.pos]? = m.next?) :
    step.run (m.relined k g) = mapState (relined k g) (step.run m) := by
  have hpos : (m.relined k g).current.pos = m.current.pos := by
    unfold relined
    split <;> rfl
  have hfetch : (m.relined k g).next? = m.next? := by
    cases hcallers : m.callers with
    | nil =>
      rw [relined_of_nil hcallers]
      exact h hcallers
    | cons a rest =>
      rw [relined_of_cons hcallers]
      rfl
  cases hi : m.next? with
  | none =>
    rw [step_of_none hi, step_of_none (hfetch.trans hi), relined_tick]
    exact leave_relined .unset m.tick
  | some i =>
    rw [step_of_some hi, step_of_some (hfetch.trans hi), relined_tick, hpos,
      i.exec_local.relined]
    cases i.exec.run m.tick with
    | error e m' => rfl
    | ok flow m' => exact proceed_relined m.current.pos flow m'

/-- The machine with other instructions for its outermost activation, but with the
same listing. -/
def withBase (k : Array (Instr Nat Bytecode)) (m : Machine) : Machine := m.relined k id

theorem withBase_of_nil (h : m.callers = []) :
    m.withBase k = { m with current := m.current.relined k id } :=
  relined_of_nil h

theorem withBase_slots : (m.withBase k).mainFrame.slots = m.mainFrame.slots := by
  rw [withBase, mainFrame_relined]

theorem step_withBase (h : m.callers = [] → k[m.current.pos]? = m.next?) :
    step.run (m.withBase k) = mapState (withBase k) (step.run m) :=
  step_relined h

end Machine

/-! ### Runs side by side -/

/-- Two runs end in the same way: with the same result or error, the same
output, the same functions and values, and the same variables of the
outermost activation. -/
structure SameOutcome (x y : Ending × Machine) : Prop where
  ending : x.1 = y.1
  world : x.2.world = y.2.world
  interpreter : x.2.interpreter = y.2.interpreter
  slots : x.2.mainFrame.slots = y.2.mainFrame.slots

theorem SameOutcome.withBase (ending : Ending) : SameOutcome (ending, m) (ending, m.withBase k) :=
  ⟨rfl, relined_world.symm, relined_interpreter.symm, withBase_slots.symm⟩

namespace Machine

variable {b : Bytecode} {n : Nat}

/-- The outermost activation runs this code. -/
def HasBase (b : Bytecode) (m : Machine) : Prop := m.withBase b.code = m

/-- The outermost activation is running, and it stands where a `RETURN` was
left out from the end of its code. -/
def AtDropped (b : Bytecode) (m : Machine) : Prop :=
  m.callers = [] ∧ b.code.size ≤ m.current.pos ∧ m.current.pos < b.listing.size

theorem hasBase_launch {world : World} {interpreter : Interpreter}
    (hlaunch : launch world interpreter b = .ok m) : m.HasBase b := by
  obtain ⟨_, _, -, rfl, rfl⟩ := ok_of_launch hlaunch
  rw [HasBase, withBase_of_nil rfl]
  cases b
  rfl

theorem HasBase.code_eq (h : m.HasBase b) (hcallers : m.callers = []) :
    m.current.frame.code.code = b.code := by
  rw [HasBase, withBase_of_nil hcallers] at h
  exact (congrArg (fun m : Machine => m.current.frame.code.code) h).symm

theorem HasBase.step (h : m.HasBase b) : step.run m = mapState (withBase b.code) (step.run m) := by
  have hstep := step_withBase (k := b.code) fun hcallers => by
    rw [next?, h.code_eq hcallers]
  rwa [h] at hstep

theorem HasBase.of_running (h : m.HasBase b) (hstep : Machine.step.run m = .ok .running m') :
    m'.HasBase b := by
  have hsame := h.step
  rw [hstep] at hsame
  injection hsame with _ hm'
  exact hm'.symm

theorem AtDropped.step (h : m.AtDropped b) (hm : m.HasBase b) :
    step.run m = .ok (.done .unset) m.tick := by
  have hnone : m.next? = none := by
    rw [next?, hm.code_eq h.1]
    exact Array.getElem?_eq_none h.2.1
  rw [step_of_none hnone]
  exact leave_nil h.1

theorem AtDropped.fetch_listing (h : m.AtDropped b) (hlisting : b.listing = b.code.push .returnTop) :
    (m.withBase b.listing).next? = some .returnTop := by
  obtain ⟨hcallers, hle, hlt⟩ := h
  rw [hlisting, Array.size_push] at hlt
  have hpos : m.current.pos = b.code.size := by omega
  rw [withBase_of_nil hcallers]
  show b.listing[m.current.pos]? = some .returnTop
  rw [hlisting, hpos, Array.getElem?_push_size]

theorem AtDropped.step_listing (h : m.AtDropped b) (hlisting : b.listing = b.code.push .returnTop)
    {v : Value} {s : List Value} (hstack : m.current.frame.stack = v :: s) :
    ∃ last, Machine.step.run (m.withBase b.listing) = .ok (.done v) last ∧
      last.world = m.world ∧ last.interpreter = m.interpreter ∧
      last.mainFrame.slots = m.mainFrame.slots := by
  have hfetch := h.fetch_listing hlisting
  have hnil := h.1
  rw [withBase_of_nil hnil] at hfetch ⊢
  rw [step_of_some hfetch, tick_eq, Instr.exec_returnTop hstack]
  refine ⟨_, leave_nil hnil, rfl, rfl, ?_⟩
  obtain ⟨_, _, _, callers, _, _⟩ := m
  cases hnil
  rfl

theorem AtDropped.step_listing_nil (h : m.AtDropped b)
    (hlisting : b.listing = b.code.push .returnTop) (hstack : m.current.frame.stack = []) :
    ∃ fault last, Machine.step.run (m.withBase b.listing) = .error fault last := by
  have hfetch := h.fetch_listing hlisting
  rw [withBase_of_nil h.1] at hfetch ⊢
  rw [step_of_some hfetch, tick_eq, Instr.exec, EStateM.run_bind, Exec.run_pop]
  have hnil : ∀ k, (ticked { m with current := m.current.relined k id }).stack = [] :=
    fun _ => hstack
  rw [hnil]
  exact ⟨_, _, rfl⟩

theorem Course.run_add {P : Machine → Prop} (h : Course P n m m') (fuel : Nat) :
    m.run (n + fuel) = m'.run fuel := by
  induction h with
  | stay m => rw [Nat.zero_add]
  | next _ hstep _ ih =>
    rw [Nat.add_right_comm, run, hstep]
    exact ih

/-- The outermost activation stands where a `RETURN` was left out, which would
return something or fail. -/
def MissesReturn (b : Bytecode) (m : Machine) : Prop :=
  m.AtDropped b ∧ m.current.frame.stack.head? ≠ some .unset

section

variable (hlisting : b.listing = b.code ∨ b.listing = b.code.push .returnTop)

include hlisting

theorem AtDropped.listing_eq (h : m.AtDropped b) : b.listing = b.code.push .returnTop := by
  refine hlisting.resolve_left fun heq => ?_
  obtain ⟨-, hle, hlt⟩ := h
  rw [heq] at hlt
  omega

theorem HasBase.fetch_eq (hm : m.HasBase b) (hat : ¬m.AtDropped b) (hcallers : m.callers = []) :
    b.listing[m.current.pos]? = m.next? := by
  rw [next?, hm.code_eq hcallers]
  rcases hlisting with hlisting | hlisting
  · rw [hlisting]
  · by_cases hpos : m.current.pos < b.code.size
    · rw [hlisting, Array.getElem?_push_lt hpos, Array.getElem?_eq_getElem hpos]
    · have hbehind : b.listing.size ≤ m.current.pos := by
        by_contra hlt
        exact hat ⟨hcallers, Nat.le_of_not_lt hpos, Nat.lt_of_not_le hlt⟩
      rw [Array.getElem?_eq_none hbehind, Array.getElem?_eq_none (Nat.le_of_not_lt hpos)]

theorem Course.withBase {P : Machine → Prop} (hP : ∀ m, P m) (hm : m.HasBase b) (h : Course P n m m') :
    m'.HasBase b ∧ Course P n (m.withBase b.listing) (m'.withBase b.listing) := by
  induction h with
  | stay m => exact ⟨hm, .stay _⟩
  | @next n m m₁ m' _ hstep _ ih =>
    have hat : ¬m.AtDropped b := by
      intro hat
      rw [hat.step hm] at hstep
      cases hstep
    have hbase := step_withBase (hm.fetch_eq hlisting hat)
    rw [hstep] at hbase
    obtain ⟨hm', hcourse⟩ := ih (hm.of_running hstep)
    exact ⟨hm', .next (hP _) hbase hcourse⟩

theorem HasBase.sameOutcome (hm : m.HasBase b)
    (h : ∀ n m', Course (fun _ => True) n m m' → ¬m'.MissesReturn b) (fuel : Nat) :
    SameOutcome (m.run fuel) ((m.withBase b.listing).run fuel) := by
  induction fuel generalizing m with
  | zero => exact .withBase .outOfFuel
  | succ fuel ih =>
    by_cases hat : m.AtDropped b
    · have hhead : m.current.frame.stack.head? = some .unset := by
        by_contra hne
        exact h 0 m (.stay m) ⟨hat, hne⟩
      obtain ⟨s, hstack⟩ := List.head?_eq_some_iff.1 hhead
      obtain ⟨last, hstep, hworld, hinterpreter, hslots⟩ :=
        hat.step_listing (hat.listing_eq hlisting) hstack
      rw [run, run, hat.step hm, hstep]
      exact ⟨rfl, hworld.symm, hinterpreter.symm, hslots.symm⟩
    · have hbase := step_withBase (hm.fetch_eq hlisting hat)
      rw [run, run, hbase]
      cases hstep : Machine.step.run m with
      | error fault last => exact .withBase (.failed fault)
      | ok progress m₁ =>
        cases progress with
        | done v => exact .withBase (.finished v)
        | running =>
          exact ih (hm.of_running hstep) fun n m' hcourse =>
            h (n + 1) m' (.next trivial hstep hcourse)

theorem HasBase.not_sameOutcome (hm : m.HasBase b)
    (hcourse : Course (fun _ => True) n m m') (hmisses : m'.MissesReturn b) :
    ¬SameOutcome (m.run (n + 1)) ((m.withBase b.listing).run (n + 1)) := by
  obtain ⟨hat, hhead⟩ := hmisses
  obtain ⟨hm', hcourse'⟩ := hcourse.withBase hlisting (fun _ => trivial) hm
  intro hsame
  have hending := hsame.ending
  rw [hcourse.run_add, hcourse'.run_add, run, run, hat.step hm'] at hending
  cases hstack : m'.current.frame.stack with
  | nil =>
    obtain ⟨fault, last, hstep⟩ := hat.step_listing_nil (hat.listing_eq hlisting) hstack
    rw [hstep] at hending
    cases hending
  | cons v s =>
    obtain ⟨last, hstep, -⟩ := hat.step_listing (hat.listing_eq hlisting) hstack
    rw [hstep] at hending
    cases hending
    rw [hstack] at hhead
    exact hhead rfl

end

end Machine

/-! ### The bodies of a program -/

theorem Node.TidyBody.of_hasBody {r : Rules} {body f : Node} (h : body.TidyBody r)
    (hf : body.HasBody f) : f.TidyBody r := by
  induction hf with
  | own => exact h
  | declared hmem _ ih =>
    cases h with
    | elements _ hbodies _ => exact ih (hbodies _ _ _ hmem)

def Script.HasCode (s : Script) (b : Bytecode) : Prop :=
  ∃ program scope body, s.root = .program program scope ∧ program.HasBody body ∧
    b.IsCodeOf s.scope body

theorem Bytecode.IsCodeOf.listing_cases {r : Rules} {scopes : Nat → Scope} {body : Node}
    {b : Bytecode} (h : b.IsCodeOf scopes body) (hbody : body.TidyBody r) :
    b.listing = b.code ∨ b.listing = b.code.push .returnTop := by
  rcases h.code_cases hbody with hcode | ⟨init, hlines, -, hcode, -⟩
  · exact .inl (Array.toList_inj.1 hcode.symm)
  · refine .inr (Array.toList_inj.1 ?_)
    rw [h.listing_eq, hlines, List.map_append, Array.toList_push, hcode]
    rfl

/-- A body of a grammatical program has the same outcome with all its
instructions and with those that are left, in every run from every frame, if
and only if it never gets to where a `RETURN` was left out that would return
something. -/
theorem sameOutcome_listing_iff {tree : Tree} (htree : tree.Program true) {s : Script}
    (hread : Script.ofTree tree = .ok s) {name : String} {main : Bytecode}
    (hcompile : s.compile name = .ok main) {b : Bytecode} (hcode : s.HasCode b) {m : Machine}
    (hm : m.HasBase b) :
    (∀ fuel, SameOutcome (m.run fuel) ((m.withBase b.listing).run fuel)) ↔
      ∀ n m', Machine.Course (fun _ => True) n m m' → ¬m'.MissesReturn b := by
  obtain ⟨program, scope, hroot, htidy⟩ := htree.tidyProgram hread hcompile
  obtain ⟨program', scope', body, hroot', hbody, hcode⟩ := hcode
  rw [hroot] at hroot'
  cases hroot'
  have hlisting := hcode.listing_cases (htidy.of_hasBody hbody)
  constructor
  · intro hsame n m' hcourse hmisses
    exact hm.not_sameOutcome hlisting hcourse hmisses (hsame (n + 1))
  · exact fun h fuel => hm.sameOutcome hlisting h fuel

open Sample

/-- `if (true) { print 1; } else { return 2; }` -/
def joinTree : Tree := programTree [
  .branch "ifstatement" [truthLiteral "true", blockTree [printTree (numeral "1")],
    blockTree [.branch "returnstatement" [numeral "2"]]]]

theorem program_joinTree : joinTree.Program true := by
  have hyes : Tree.Statement true (blockTree [printTree (numeral "1")]) :=
    .block (by simpa using .print .number)
  have hno : Tree.Statement true (blockTree [.branch "returnstatement" [numeral "2"]]) :=
    .block (by simpa using .returnValue (by simpa using .number))
  have hcondition : Tree.Expression (truthLiteral "true") := .word (by decide)
  exact .main (by simpa using .statement (.ifElse hcondition hyes hno))

/-- The branches join where the `RETURN` was left out, and `1` is not
returned. -/
theorem sameOutcome_listing_iff_join :
    ∃ s b start, Script.ofTree joinTree = .ok s ∧ s.compile "main" = .ok b ∧
      Machine.launch {} {} b = .ok start ∧ s.HasCode b ∧ start.HasBase b ∧
      ¬∀ fuel, SameOutcome (start.run fuel) ((start.withBase b.listing).run fuel) := by
  obtain ⟨s, hread, b, hcompile, start, hlaunch, m, hcourse, hcallers, hle, hlt, hhead⟩ :
      joinTree.ComesTo {} {} 5 fun _ b m => m.callers.length = 0 ∧ b.code.size ≤ m.current.pos ∧
      m.current.pos < b.listing.size ∧ m.current.frame.stack.head? ≠ some .unset := by
    decide +kernel
  obtain ⟨body, scope, hroot, -⟩ := program_joinTree.tidyProgram hread hcompile
  have hcode : s.HasCode b :=
    ⟨body, scope, body, hroot, .own, Script.isCodeOf_of_compile hroot hcompile⟩
  have hstart : start.HasBase b := Machine.hasBase_launch hlaunch
  refine ⟨s, b, start, hread, hcompile, hlaunch, hcode, hstart, fun hsame => ?_⟩
  rw [sameOutcome_listing_iff program_joinTree hread hcompile hcode hstart] at hsame
  exact hsame 5 m hcourse ⟨⟨List.length_eq_zero_iff.1 hcallers, hle, hlt⟩, hhead⟩

/-- `function f($x) { if ($x) { print 1; } else { return 2; } }  f(true);` -/
def joinCallTree : Tree := programTree [
  declarationTree "f" [parameterTree "$x"] [
    .branch "ifstatement" [variableTree "$x", blockTree [printTree (numeral "1")],
      blockTree [.branch "returnstatement" [numeral "2"]]]],
  expressionTree (callTree "f" [truthLiteral "true"])]

/-- The running function on its own. -/
def Machine.detached (m : Machine) : Machine := { m with callers := [] }

/-- In the function that is called a `RETURN` is left out that is reached: the
program fails there, and on its own the function returns nothing where with
all its instructions it returns something. -/
theorem dropped_return_is_reached :
    ∃ s b start m, Script.ofTree joinCallTree = .ok s ∧ s.compile "main" = .ok b ∧
      Machine.launch {} {} b = .ok start ∧ Machine.Course (fun _ => True) 4 start m ∧
      (m.run 6).1.fault? = some .checkFailed ∧
      ¬SameOutcome (m.detached.run 6)
        ((m.detached.withBase m.current.frame.code.listing).run 6) := by
  obtain ⟨s, hread, b, hcompile, start, hlaunch, m, hcourse, hfault, hsilent, hspeaks⟩ :
      joinCallTree.ComesTo {} {} 4 fun _ _ m => (m.run 6).1.fault? = some .checkFailed ∧
      (m.detached.run 6).1 = .finished .unset ∧
      ((m.detached.withBase m.current.frame.code.listing).run 6).1 ≠ .finished .unset := by
    decide +kernel
  exact ⟨s, b, start, m, hread, hcompile, hlaunch, hcourse, hfault,
    fun hsame => hspeaks (hsame.ending.symm.trans hsilent)⟩

end PageScript
