/-
The size of the operand stack.

The stack of a frame has room for the greatest sum of declared changes along the code.  In
programs that are left by `return` directly in a body only, and in which `break` and
`continue` belong to `for` loops, no stack is ever deeper than the sum up to its position, and
no check of a stack fails (`stack_within_estimate`).
-/
import PageScript.Proofs.Levels

namespace PageScript

open List

variable {b : Bytecode} {n : Nat} {a : Activation} {m : Machine}

/-- No `return` inside other statements, no `global`, and `break` and
`continue` in `for` loops only. -/
def Rules.structured : Rules where
  leaves kind := kind = .forLoop

namespace Bytecode

/-- The declared changes of depth of the first `pos` instructions, added
up. -/
def linear (b : Bytecode) (pos : Nat) : Int :=
  (b.code.toList.take pos).foldl (fun depth i => depth + i.stackChange) 0

theorem linear_succ {pos : Nat} {i : Instr Nat Bytecode}
    (h : b.code[pos]? = some i) : b.linear (pos + 1) = b.linear pos + i.stackChange := by
  rw [← Array.getElem?_toList] at h
  rw [linear, linear, take_add_one, h, foldl_append]
  rfl

theorem linear_of_none {pos : Nat} (h : b.code[pos]? = none) :
    b.linear (pos + 1) = b.linear pos := by
  rw [← Array.getElem?_toList] at h
  rw [linear, linear, take_add_one, h, Option.toList_none, append_nil]

theorem greatest_le_of_stackEstimate {depth greatest size : Int} {is : List (Instr Nat Bytecode)}
    (h : stackEstimate depth greatest is = .ok size) : greatest ≤ size := by
  induction is generalizing depth greatest with
  | nil =>
    cases h
    exact Int.le_refl _
  | cons i is ih =>
    rw [stackEstimate] at h
    split at h
    · cases h
    · exact Int.le_trans (Int.le_max_right _ _) (ih h)

/-- The estimate is no less than any sum of changes. -/
theorem sum_le_of_stackEstimate {depth greatest size : Int} {is : List (Instr Nat Bytecode)}
    (h : stackEstimate depth greatest is = .ok size) (hle : depth ≤ greatest) (n : Nat) :
    (is.take n).foldl (fun depth i => depth + i.stackChange) depth ≤ size := by
  induction is generalizing depth greatest n with
  | nil =>
    cases h
    rw [take_nil]
    exact hle
  | cons i is ih =>
    cases n with
    | zero => exact Int.le_trans hle (greatest_le_of_stackEstimate h)
    | succ n =>
      rw [stackEstimate] at h
      split at h
      · cases h
      · rw [take_succ_cons, foldl_cons]
        exact ih h (Int.le_max_left _ _) n

variable {r : Rules} {scopes : Nat → Scope} {body : Node} {b : Bytecode}

theorem Runs.stackEstimate_eq (h : b.Runs r scopes body) :
    stackEstimate 0 0 b.code.toList = .ok (b.stackSize : Int) := by
  obtain ⟨-, b', hcode, hb, hsize⟩ := h
  obtain ⟨size, hestimate, hb'⟩ := hcode.stackEstimate_eq
  rw [hb, hestimate, hsize, hb', Int.toNat_of_nonneg (greatest_le_of_stackEstimate hestimate)]

theorem Runs.linear_le (h : b.Runs r scopes body) (pos : Nat) : b.linear pos ≤ b.stackSize :=
  sum_le_of_stackEstimate h.stackEstimate_eq (Int.le_refl 0) pos

theorem Runs.heights_le_linear (h : b.Runs r scopes body) (hreturns : r.returns = false)
    (hglobals : r.globals = false) (pos : Nat) : (body.heights scopes pos : Int) ≤ b.linear pos := by
  induction pos with
  | zero =>
    rw [h.1.heights_zero hglobals]
    exact Int.le_refl 0
  | succ pos ih =>
    cases hi : b.code[pos]? with
    | some i =>
      obtain ⟨line, -, rfl, htyped⟩ := h.exists_typed hglobals hi
      have hlinear := htyped.linear hreturns
      rw [linear_succ hi]
      rw [htyped.depth] at ih
      omega
    | none =>
      -- Behind the last instruction nothing changes.
      have hwidth : body.width ≤ pos := by
        obtain ⟨htidy, b', hcode, hb, -⟩ := h
        rw [hb, ← Array.getElem?_toList, hcode.code_eq_listing htidy hreturns hglobals,
          hcode.listing_eq, getElem?_eq_none_iff, length_map, Node.length_layout] at hi
        exact hi
      rw [linear_of_none hi, Node.heights_of_le (Nat.le_succ_of_le hwidth),
        ← Node.heights_of_le hwidth]
      exact ih

end Bytecode

variable {r : Rules}

section

variable (h : a.Level r n) (hreturns : r.returns = false) (hglobals : r.globals = false)

include h hreturns hglobals

/-- The stack of an activation is no deeper than the sum of declared changes,
and this sum is within its size. -/
theorem Activation.Level.bounded :
    (a.frame.stack.length : Int) + n ≤ a.frame.code.linear a.pos ∧
      a.frame.code.linear a.pos ≤ a.frame.capacity ∧
      Bytecode.stackEstimate 0 0 a.frame.code.code.toList = .ok (a.frame.capacity : Int) := by
  obtain ⟨scopes, body, htidy⟩ := h.tidy
  have hlinear := htidy.heights_le_linear hreturns hglobals a.pos
  rw [← h.depth scopes body htidy, Int.natCast_add] at hlinear
  rw [h.capacity]
  exact ⟨hlinear, htidy.linear_le a.pos, htidy.stackEstimate_eq⟩

theorem Activation.Level.room {i : Instr Nat Bytecode}
    (hi : a.frame.code.code[a.pos]? = some i) :
    a.frame.stack.length + n + i.leaves ≤ a.frame.capacity + i.needs := by
  obtain ⟨scopes, body, htidy⟩ := h.tidy
  by_cases hthrough : i.fallsThrough
  · have hnext := h.next hglobals hi hthrough htidy
    have hlinear := htidy.heights_le_linear hreturns hglobals (a.pos + 1)
    have hsize := htidy.linear_le (a.pos + 1)
    rw [h.capacity]
    omega
  · -- A jump that is always taken and a return leave nothing.
    have hleaves : i.leaves = 0 := by
      cases i with
      | jump kind target => cases kind <;> first | rfl | exact absurd rfl hthrough
      | returnTop => rfl
      | _ => exact absurd rfl hthrough
    have hlinear := htidy.heights_le_linear hreturns hglobals a.pos
    have hsize := htidy.linear_le a.pos
    rw [← h.depth scopes body htidy] at hlinear
    rw [h.capacity, hleaves]
    omega

end

namespace Machine

/-- The machine that is left after a step. -/
def after : EStateM.Result Fault Machine Progress → Machine
  | .ok _ m => m
  | .error _ m => m

theorem leave_stackFault {v : Value}
    (hroom : ∀ a ∈ m.callers, a.frame.stack.length < a.frame.capacity) :
    (after ((leave v).run m)).stackFault = m.stackFault := by
  cases hcallers : m.callers with
  | nil => rw [leave_nil hcallers]; rfl
  | cons caller rest =>
    by_cases hv : v = .unset
    · subst hv
      rw [leave_unset (by rw [hcallers]; exact cons_ne_nil _ _)]
      rfl
    · rw [leave_resume hcallers hv (hroom caller (by rw [hcallers]; exact mem_cons_self))]
      rfl

theorem Levelled.stackFault_step (hm : m.Levelled r) (hreturns : r.returns = false)
    (hglobals : r.globals = false) : (after (Machine.step.run m)).stackFault = m.stackFault := by
  have hroom : ∀ a ∈ m.callers, a.frame.stack.length < a.frame.capacity := by
    intro a ha
    obtain ⟨count, hi, ha⟩ := hm.callers a ha
    have := ha.room hreturns hglobals hi
    simp only [Instr.leaves, Instr.needs, Instr.operation?] at this
    omega
  cases hi : m.next? with
  | none =>
    rw [step_of_none hi]
    exact leave_stackFault hroom
  | some i =>
    have hsound := i.exec_effect m.situation m.ticked (hm.current.needs_le hglobals hi)
      hm.current.full
    rw [step_of_some hi, tick_eq]
    cases hexec : i.exec.run (m.situation.under m.ticked) with
    | error e last =>
      rw [hexec] at hsound
      exact hsound (hm.current.room hreturns hglobals hi)
    | ok flow m₁ =>
      rw [hexec] at hsound
      obtain ⟨T, s, rfl, -⟩ := hsound
      cases flow with
      | next | jump target | enter frame => rfl
      | leave v => exact leave_stackFault hroom

theorem Levelled.stackFault_course {P : Machine → Prop} {m' : Machine}
    (hP : ∀ m, P m → ¬m.current.Strays r) (hreturns : r.returns = false)
    (hglobals : r.globals = false) (hm : m.Levelled r) (h : Course P n m m') :
    m'.stackFault = m.stackFault := by
  induction h with
  | stay m => rfl
  | @next n m m₁ m' hPm hstep _ ih =>
    have hfault := hm.stackFault_step hreturns hglobals
    rw [hstep] at hfault
    exact (ih (hm.step hglobals (hP m hPm) hstep)).trans hfault

end Machine

theorem not_strays (hglobals : r.globals = false)
    (hleaves : ∀ kind, r.leaves kind → kind = .forLoop) : ¬a.Strays r := by
  rintro ⟨scopes, body, line, l, hbody, hline, hmark, hkind⟩
  have hholds := (hbody.1.typed hglobals hline).mark
  rcases hmark with hmark | hmark
  all_goals
    rw [hmark] at hholds
    exact hkind (hleaves _ hholds.2.2.2)

theorem Script.isCodeOf_of_compile {s : Script} {name : String} {body : Node}
    {scope : Nat} (hroot : s.root = .program body scope) (h : s.compile name = .ok b) :
    b.IsCodeOf s.scope body := by
  obtain ⟨own, -, h⟩ := ok_of_bind h
  rw [hroot] at h
  exact ⟨name, own, h⟩

/-- In every run of a structured program the stack of every frame is no deeper
than the sum of the declared changes up to the position of the frame; this sum
is within the size of the stack, which is the estimate for the code; and no
check of a stack fails, in no step and in the middle of none.  The program is given as a tree:
that it is structured excludes, besides the statements that `Rules.structured` names, the
shapes that `Node.Tidy` leaves out and no text gives, as an `=` with `post` or a misplaced
node.  The bound can fail for them. -/
theorem stack_within_estimate {s : Script} (hprogram : s.root.TidyProgram .structured)
    {name : String} {b : Bytecode} (hcompile : s.compile name = .ok b) {world : World}
    (hcodes : ∀ code ∈ world.store.codes, code.IsTidy .structured) {interpreter : Interpreter}
    {start : Machine} (hlaunch : Machine.launch world interpreter b = .ok start) {n : Nat}
    {m : Machine} (hcourse : Machine.Course (fun _ => True) n start m) :
    (∀ a ∈ m.current :: m.callers,
      (a.frame.stack.length : Int) ≤ a.frame.code.linear a.pos ∧
      a.frame.code.linear a.pos ≤ a.frame.capacity ∧
      Bytecode.stackEstimate 0 0 a.frame.code.code.toList = .ok (a.frame.capacity : Int)) ∧
    m.stackFault = false ∧ (Machine.after (Machine.step.run m)).stackFault = false := by
  obtain ⟨body, scope, hroot, hbody⟩ := hprogram
  have hcode := Script.isCodeOf_of_compile hroot hcompile
  have hstart : start.Levelled .structured :=
    .launch rfl hcodes ⟨hbody, b, hcode, rfl, rfl⟩ hlaunch
  have hstrays : ∀ m : Machine, True → ¬m.current.Strays .structured :=
    fun m _ => not_strays rfl fun kind hkind => of_decide_eq_true hkind
  have hm := hstart.course hstrays rfl hcourse
  have hfault : m.stackFault = false := by
    rw [hstart.stackFault_course hstrays rfl rfl hcourse]
    obtain ⟨frame, -, h⟩ := ok_of_bind hlaunch
    cases h
    rfl
  refine ⟨?_, hfault, (hm.stackFault_step rfl rfl).trans hfault⟩
  rintro a (_ | ⟨_, ha⟩)
  · exact hm.current.bounded rfl rfl
  · obtain ⟨count, -, ha⟩ := hm.callers a ha
    obtain ⟨hstack, hlinear⟩ := ha.bounded rfl rfl
    exact ⟨by omega, hlinear⟩

/-- The body of `function f($x) { for (; true; ) { if ($x) break; } return $x; }`. -/
def loopingBody : Node :=
  .sourceElements []
    [.forLoop .emptyExpression (.boolean true) .emptyExpression
      (.block [.ifElse (.variable "$x" 0) (.breakLoop .absent) .absent]),
     .returnValue (.variable "$x" 0)]

/-- The function and `print f(true);`. -/
def loopingScript : Script where
  root := .program (.sourceElements [.function "f" loopingBody 1]
    [.print (.call (.identifier "f") (.argumentList [.boolean true]))]) 0
  scopes := #[{}, Scope.ofNames [("$x", true)] [] [] []]

theorem tidyProgram_loopingScript : loopingScript.root.TidyProgram .structured := by
  have hbranch : Node.Tidy .structured (.statement (some .forLoop))
      (.ifElse (.variable "$x" 0) (.breakLoop .absent) .absent) :=
    .ifThen .variable (.breakLoop rfl)
  have hloop : Node.Tidy .structured (.statement none)
      (.forLoop .emptyExpression (.boolean true) .emptyExpression
        (.block [.ifElse (.variable "$x" 0) (.breakLoop .absent) .absent])) :=
    .forLoop .emptyExpression .boolean .emptyExpression (.block (by simpa using hbranch))
  have hbody : Node.TidyBody .structured loopingBody := by
    refine .elements (by simp) (by simp) ?_
    simp only [forall_mem_cons]
    exact ⟨.statement hloop, .returnValue .variable, by simp⟩
  refine ⟨_, _, rfl, .elements (by simp) ?_ ?_⟩
  · rintro name body scope (_ | ⟨_, h⟩)
    · exact hbody
    · cases h
  simp only [forall_mem_cons]
  exact ⟨.statement (.print (.call (by simpa using .boolean) .identifier)), by simp⟩

/-- The function is where its loop was left, and its stack is within the
sum. -/
theorem stack_within_estimate_looping :
    ∃ b start m, loopingScript.compile "main" = .ok b ∧ Machine.launch {} {} b = .ok start ∧
      Machine.Course (fun _ => True) 14 start m ∧ m.callers.length = 1 ∧ m.current.pos = 15 ∧
      (m.current.frame.stack.length : Int) ≤ m.current.frame.code.linear m.current.pos := by
  obtain ⟨b, hcompile, start, hlaunch, m, hcourse, hcallers, hpos⟩ :
      ∃ b, loopingScript.compile "main" = .ok b ∧ ∃ start, Machine.launch {} {} b = .ok start ∧
      ∃ m, Machine.Course (fun _ => True) 14 start m ∧ m.callers.length = 1 ∧ m.current.pos = 15 := by
    decide +kernel
  have hbounded := stack_within_estimate tidyProgram_loopingScript hcompile
    (fun code h => absurd h (Array.not_mem_empty code)) hlaunch hcourse
  exact ⟨b, start, m, hcompile, hlaunch, hcourse, hcallers, hpos,
    (hbounded.1 _ List.mem_cons_self).1⟩

end PageScript
