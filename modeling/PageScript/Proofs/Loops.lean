/-
`break` and `continue`.

`Loop.Fits` says how deep the operand stack is to be at the places of a loop.  A step minds
the loops if a `break` goes to where its innermost loop is over, a `continue` to where the
next iteration is prepared, and the stack is as deep as it should be.

In a `for` loop nothing of the loop is on the stack while its body runs.  In the other
loops something is, and a jump out of the body arrives with one value too many.  No other
step goes wrong (`minds_iff`, `loops_minded_iff`).
-/
import PageScript.Proofs.Reading
import PageScript.Proofs.StackBound
import PageScript.Sample.Grammar

namespace PageScript

variable {l : Loop} {scopes : Nat → Scope} {body : Node}

def Mark.loop? : Mark → Option Loop
  | .plain => none
  | .loop l => some l
  | .leaves l => some l
  | .continues l => some l

def Node.HasLoop (scopes : Nat → Scope) (body : Node) (l : Loop) : Prop :=
  ∃ line ∈ body.layout scopes 0 0 {}, line.mark.loop? = some l

structure Loop.Fits (l : Loop) (pos depth : Nat) : Prop where
  entry : pos = l.entry → depth = l.depth
  start : pos = l.start → depth = l.turn
  next : pos = l.next → depth = l.turn
  finish : pos = l.finish → depth = l.depth + 1

theorem Node.HasLoop.settled {r : Rules} (hr : r.globals = false) (hbody : body.TidyBody r)
    (h : body.HasLoop scopes l) :
    l.Settled (body.heights scopes) := by
  obtain ⟨line, hmem, hl⟩ := h
  obtain ⟨pos, hline⟩ := List.mem_iff_getElem?.1 hmem
  have hholds := (hbody.typed hr hline).mark
  cases hmark : line.mark with
  | plain =>
    rw [hmark] at hl
    cases hl
  | loop l' =>
    rw [hmark] at hl hholds
    cases hl
    exact hholds
  | leaves l' | continues l' =>
    rw [hmark] at hl hholds
    cases hl
    exact hholds.2.2.1

theorem Loop.Settled.fits {H : Nat → Nat} (h : l.Settled H) (pos : Nat) :
    l.Fits pos (H pos) where
  entry := by
    rintro rfl
    exact h.entry
  start := by
    rintro rfl
    exact h.start
  next := by
    rintro rfl
    exact h.next
  finish := by
    rintro rfl
    exact h.finish

namespace Activation

variable {r : Rules} {a : Activation}

/-- The next instruction has this part in a loop. -/
def Stands (r : Rules) (mark : Mark) (a : Activation) : Prop :=
  ∃ scopes body line, a.frame.code.Runs r scopes body ∧
    (body.layout scopes 0 0 {})[a.pos]? = some line ∧ line.mark = mark

/-- The stack has the depth that the loops of the body want. -/
def Fits (r : Rules) (a : Activation) : Prop :=
  ∀ scopes body l, a.frame.code.Runs r scopes body → body.HasLoop scopes l →
    l.Fits a.pos a.frame.stack.length

theorem Level.fits (h : a.Level r 0) (hr : r.globals = false) : a.Fits r := by
  intro scopes body l hbody hl
  have hdepth := h.depth scopes body hbody
  rw [Nat.add_zero] at hdepth
  rw [hdepth]
  exact (hl.settled hr hbody.1).fits a.pos

end Activation

namespace Machine

variable {r : Rules} {m m' : Machine} {n : Nat}

/-- A step obeys `break` and `continue`. -/
structure Minds (r : Rules) (m m' : Machine) : Prop where
  breaks : ∀ l, m.current.Stands r (.leaves l) → m'.current.pos = l.finish
  continues : ∀ l, m.current.Stands r (.continues l) → m'.current.pos = l.next
  fits : m'.current.Fits r

theorem step_jump {target : Nat}
    (hi : m.next? = some (.jump .always target)) :
    step.run m = .ok .running { m.tick with current := { m.current with pos := target } } := by
  rw [step_of_some hi]
  rfl

section

variable (hm : m.Levelled r) (hr : r.globals = false) (hstep : step.run m = .ok .running m')

include hm hr hstep

theorem code_of_line {line : Line} (hbody : m.current.frame.code.Runs r scopes body)
    (hline : (body.layout scopes 0 0 {})[m.current.pos]? = some line) :
    m.next? = some line.instr ∧ m.current.frame.stack.length = line.depth := by
  have hdepth := hm.current.depth scopes body hbody
  rw [(hbody.1.typed hr hline).depth] at hdepth
  refine ⟨?_, hdepth⟩
  obtain ⟨i, -, -, hi, -⟩ := step_goes hstep
  obtain ⟨line', hline', hinstr, -⟩ := hbody.exists_typed hr hi
  rw [hline] at hline'
  cases hline'
  rw [hi, hinstr]

theorem exists_holds {mark : Mark} (h : m.current.Stands r mark) :
    ∃ H line, m.next? = some line.instr ∧ mark.Holds r H line := by
  obtain ⟨scopes, body, line, hbody, hline, rfl⟩ := h
  exact ⟨_, line, (code_of_line hm hr hstep hbody hline).1, (hbody.1.typed hr hline).mark⟩

theorem pos_of_leaves (h : m.current.Stands r (.leaves l)) : m'.current.pos = l.finish := by
  obtain ⟨_, line, hcode, hinstr, -⟩ := exists_holds hm hr hstep h
  rw [hinstr] at hcode
  rw [step_jump hcode] at hstep
  cases hstep
  rfl

theorem pos_of_continues (h : m.current.Stands r (.continues l)) :
    m'.current.pos = l.next ↔ l.kind ≠ .foreachLoop := by
  obtain ⟨_, line, hcode, ⟨target, hinstr, htarget⟩, -⟩ := exists_holds hm hr hstep h
  rw [hinstr] at hcode
  rw [step_jump hcode] at hstep
  cases hstep
  exact htarget

theorem depth_of_exit {line : Line} (hbody : m.current.frame.code.Runs r scopes body)
    (hline : (body.layout scopes 0 0 {})[m.current.pos]? = some line)
    (hmark : line.mark = .leaves l ∨ line.mark = .continues l) (hkind : l.kind ≠ .forLoop) :
    m'.current.frame.code = m.current.frame.code ∧ body.HasLoop scopes l ∧
      m'.current.frame.stack.length = l.depth + 2 := by
  obtain ⟨hcode, hdepth⟩ := code_of_line hm hr hstep hbody hline
  have hholds := (hbody.1.typed hr hline).mark
  have hinside : l.inside = l.depth + 1 := by
    unfold Loop.inside
    cases hl : l.kind with
    | forLoop => exact absurd hl hkind
    | whileLoop | foreachLoop => rfl
  have hjump : (∃ target, line.instr = .jump .always target) ∧ line.depth = l.inside + 1 ∧
      line.mark.loop? = some l := by
    rcases hmark with hmark | hmark
    · rw [hmark] at hholds ⊢
      exact ⟨⟨_, hholds.1⟩, hholds.2.1, rfl⟩
    · rw [hmark] at hholds ⊢
      obtain ⟨⟨target, hinstr, -⟩, hlinedepth, -⟩ := hholds
      exact ⟨⟨target, hinstr⟩, hlinedepth, rfl⟩
  obtain ⟨⟨target, hinstr⟩, hlinedepth, hloop⟩ := hjump
  rw [hinstr] at hcode
  rw [step_jump hcode] at hstep
  cases hstep
  refine ⟨rfl, ⟨line, List.mem_of_getElem? hline, hloop⟩, ?_⟩
  show m.current.frame.stack.length = l.depth + 2
  omega

/-- A step minds the loops unless it is a jump out of a loop that is no `for`
loop. -/
theorem minds_iff : m.Minds r m' ↔ ¬m.current.Strays r := by
  constructor
  · rintro hminds ⟨scopes, body, line, l, hbody, hline, hmark, hkind⟩
    obtain ⟨hcode, hloop, hdepth⟩ := depth_of_exit hm hr hstep hbody hline hmark hkind
    have hfits := hminds.fits scopes body l (hcode ▸ hbody) hloop
    rcases hmark with hmark | hmark
    · have hstands : m.current.Stands r (.leaves l) := ⟨scopes, body, line, hbody, hline, hmark⟩
      have hfinish := hfits.finish (hminds.breaks l hstands)
      omega
    · have hstands : m.current.Stands r (.continues l) :=
        ⟨scopes, body, line, hbody, hline, hmark⟩
      have hpos := hminds.continues l hstands
      have hforeach := (pos_of_continues hm hr hstep hstands).1 hpos
      -- What is left is a `while` loop, where the next iteration starts one deeper.
      have hturn : l.turn = l.depth + 1 := by
        unfold Loop.turn
        cases hl : l.kind with
        | foreachLoop => exact absurd hl hforeach
        | whileLoop | forLoop => rfl
      have hnext := hfits.next hpos
      omega
  · intro hstrays
    refine ⟨fun l hl => pos_of_leaves hm hr hstep hl, fun l hl => ?_,
      (hm.step hr hstrays hstep).current.fits hr⟩
    refine (pos_of_continues hm hr hstep hl).2 fun hkind => hstrays ?_
    obtain ⟨scopes, body, line, hbody, hline, hmark⟩ := hl
    exact ⟨scopes, body, line, l, hbody, hline, .inr hmark, by rw [hkind]; exact nofun⟩

end

theorem Levelled.course_minds_iff (hr : r.globals = false) (hm : m.Levelled r)
    (h : Course (fun _ => True) n m m') :
    Course (fun m => ∀ m', Machine.step.run m = .ok .running m' → m.Minds r m') n m m' ↔
      Course (fun m => ¬m.current.Strays r) n m m' := by
  induction h with
  | stay m => exact iff_of_true (.stay m) (.stay m)
  | @next n m m₁ m' _ hstep _ ih =>
    have hiff := minds_iff hm hr hstep
    constructor
    · intro hcourse
      cases hcourse with
      | next hminds hstep' hrest =>
        rw [hstep] at hstep'
        cases hstep'
        have hstrays := hiff.1 (hminds m₁ hstep)
        exact .next hstrays hstep ((ih (hm.step hr hstrays hstep)).1 hrest)
    · intro hcourse
      cases hcourse with
      | next hstrays hstep' hrest =>
        rw [hstep] at hstep'
        cases hstep'
        refine .next (fun m₂ hstep₂ => ?_) hstep ((ih (hm.step hr hstrays hstep)).2 hrest)
        rw [hstep] at hstep₂
        cases hstep₂
        exact hiff.2 hstrays

end Machine

/-- In every run of a grammatical program with its `global` statements directly
in bodies, the steps made so far all mind the loops if and only if none of them
is the jump of a `break` or `continue` whose innermost loop is a `while` or
`foreach` loop. -/
theorem loops_minded_iff {tree : Tree} (htree : tree.Program false) {s : Script}
    (hread : Script.ofTree tree = .ok s) {name : String} {b : Bytecode}
    (hcompile : s.compile name = .ok b) {world : World}
    (hcodes : ∀ code ∈ world.store.codes, code.IsTidy (.grammatical false))
    {interpreter : Interpreter} {start : Machine}
    (hlaunch : Machine.launch world interpreter b = .ok start) {n : Nat} {m : Machine}
    (hcourse : Machine.Course (fun _ => True) n start m) :
    Machine.Course (fun m => ∀ m', Machine.step.run m = .ok .running m' →
        m.Minds (.grammatical false) m') n start m ↔
      Machine.Course (fun m => ¬m.current.Strays (.grammatical false)) n start m := by
  obtain ⟨body, scope, hroot, hbody⟩ := htree.tidyProgram hread hcompile
  have hcode := Script.isCodeOf_of_compile hroot hcompile
  have hstart : start.Levelled (.grammatical false) :=
    .launch rfl hcodes ⟨hbody, b, hcode, rfl, rfl⟩ hlaunch
  exact hstart.course_minds_iff rfl hcourse

open Sample

/-- `$i = 0; while ($i < 9) { $i++; continue; }` -/
def continueTree : Tree := programTree [
  assignTree "$i" (numeral "0"),
  whileLoopTree (operatorTree "relationalexpression" "<" (variableTree "$i") (numeral "9"))
    (blockTree [expressionTree (.branch "postfixexpression" [variableTree "$i", token "++"]),
      .branch "continuestatement" []])]

def continueLoop : Loop where
  kind := .whileLoop
  depth := 0
  entry := 3
  start := 4
  next := 4
  finish := 18

theorem program_continueTree : continueTree.Program false := by
  have hi : Tree.Expression (variableTree "$i") := .variable (by decide)
  have hcondition : Tree.Expression (.branch "relationalexpression"
      (variableTree "$i" :: Tree.links [(token "<", numeral "9")])) :=
    .chain (by decide) hi (by simpa using .number)
  refine .main ?_
  simp only [List.forall_mem_cons]
  refine ⟨.statement (.expression (.assignment (by decide) hi .number)),
    .statement (.whileLoop hcondition (.block ?_)), by simp⟩
  simp only [List.forall_mem_cons]
  exact ⟨.expression (.step (by decide) hi), .continueLoop (by simp), by simp⟩

/-- The jump of the `continue` is such a jump, and the step after which it
arrives does not mind the loop. -/
theorem loops_minded_iff_continue :
    ∃ s b start m, Script.ofTree continueTree = .ok s ∧ s.compile "main" = .ok b ∧
      Machine.launch {} {} b = .ok start ∧ Machine.Course (fun _ => True) 16 start m ∧
      ¬Machine.Course (fun m => ∀ m', Machine.step.run m = .ok .running m' →
        m.Minds (.grammatical false) m') 16 start m := by
  obtain ⟨s, hread, b, hcompile, start, hlaunch, m, hcourse, hcallers, hline, m', hlast, -⟩ :
      continueTree.ComesTo {} {} 15 fun s _ m => m.callers.length = 0 ∧
      ((s.root.layout s.scope 0 0 {})[m.current.pos]?.any
        (·.mark = .continues continueLoop)) = true ∧
      ∃ m', Machine.Course (fun _ => True) 1 m m' ∧ True := by decide +kernel
  have hcourse' := hcourse.trans hlast
  obtain ⟨line, hline, hmark⟩ := (Option.any_eq_true _ _).1 hline
  refine ⟨s, b, start, m', hread, hcompile, hlaunch, hcourse', fun hminds => ?_⟩
  rw [loops_minded_iff program_continueTree hread hcompile
    (fun code h => absurd h (Array.not_mem_empty code)) hlaunch hcourse'] at hminds
  -- The last of the steps would have to be no jump out of the loop.
  have hstrays : ¬m.current.Strays (.grammatical false) := (hcourse.rest (j := 1) hminds).holds
  obtain ⟨body, scope, hroot, hbody⟩ := program_continueTree.tidyProgram hread hcompile
  rw [hroot] at hline
  have hruns : m.current.frame.code.Runs (.grammatical false) s.scope body := by
    obtain ⟨hcode, hsize⟩ := Machine.mainFrame_of_course hcourse
    rw [Machine.mainFrame_of_launch hlaunch,
      Machine.mainFrame_of_nil (List.length_eq_zero_iff.1 hcallers)] at hcode hsize
    exact ⟨hbody, b, Script.isCodeOf_of_compile hroot hcompile, hcode, hsize⟩
  exact hstrays ⟨s.scope, body, line, continueLoop, hruns, hline, .inr (of_decide_eq_true hmark),
    by decide⟩

/-- Two iterations of the loop start with stacks of different depths, and then
there is no room for a third one. -/
theorem continue_deepens_stack :
    ∃ s b start m m', Script.ofTree continueTree = .ok s ∧ s.compile "main" = .ok b ∧
      Machine.launch {} {} b = .ok start ∧ s.root.HasLoop s.scope continueLoop ∧
      Machine.Course (fun _ => True) 4 start m ∧ m.current.pos = continueLoop.start ∧
      m.current.frame.stack.length = continueLoop.turn ∧
      Machine.Course (fun _ => True) 12 m m' ∧ m'.current.pos = continueLoop.start ∧
      m'.current.frame.stack.length = continueLoop.turn + 1 ∧
      (m'.run 20).1.fault? = some .checkFailed := by
  obtain ⟨s, hread, b, hcompile, start, hlaunch, m, hcourse, hpos, hdepth, hloop, m', hrest⟩ :
      continueTree.ComesTo {} {} 4 fun s _ m => m.current.pos = continueLoop.start ∧
      m.current.frame.stack.length = continueLoop.turn ∧
      (s.root.layout s.scope 0 0 {}).any (·.mark.loop? = some continueLoop) = true ∧
      ∃ m', Machine.Course (fun _ => True) 12 m m' ∧ m'.current.pos = continueLoop.start ∧
        m'.current.frame.stack.length = continueLoop.turn + 1 ∧
        (m'.run 20).1.fault? = some .checkFailed := by decide +kernel
  obtain ⟨line, hline, hmark⟩ := List.any_eq_true.1 hloop
  exact ⟨s, b, start, m, m', hread, hcompile, hlaunch, ⟨line, hline, of_decide_eq_true hmark⟩,
    hcourse, hpos, hdepth, hrest⟩

end PageScript
