/-
What a call yields that comes to the end of its body.

Behind the last statement of a body there is a `RETURN`, which yields what the statement has
left on the stack (`body_yields`).  Two bodies have none there: one without statements, and
one from which the last `RETURN` was left out.  The call fails then.
-/
import PageScript.Proofs.Calls
import PageScript.Proofs.Elements
import PageScript.Proofs.Output
import PageScript.Proofs.Returns

namespace PageScript

open List

namespace Node

/-- Some statement stands in the body, or it was left out, which is a `return`. -/
def hasStatement : Node → Bool
  | .sourceElements _ nodes => !nodes.isEmpty
  | _ => true

/-- Where a body is over that was run to its end and not left by a `return`: before
the `RETURN` behind its last statement, or behind all code if it has none. -/
def bodyEnd? : Node → Option Nat
  | .sourceElements functions nodes =>
    match nodes.getLast? with
    | none => some (widthAll functions + 1)
    | some last => if last.isReturn then none else some (widthAll functions + widthBody nodes - 1)
  | .returnValue .absent => some 1
  | _ => none

theorem getLast?_layoutBody (scopes : Nat → Scope) {nodes : List Node} {last : Node}
    (hlast : nodes.getLast? = some last) (hopen : last.isReturn = false) (pos d : Nat) (x : Exits) :
    (layoutBody scopes pos d x nodes).getLast? = some ⟨.returnTop, d + 1, .plain⟩ := by
  induction nodes generalizing pos with
  | nil => cases hlast
  | cons node nodes ih =>
    cases nodes with
    | nil =>
      obtain rfl : node = last := by simpa using hlast
      simp [layoutBody, hopen, lineIf]
    | cons next nodes =>
      rw [layoutBody_cons, getLast?_append, ih (by simpa using hlast)]
      rfl

theorem layout_of_bodyEnd? (scopes : Nat → Scope) {body : Node} {pos : Nat}
    (h : body.bodyEnd? = some pos) :
    (body.hasStatement = false ∧ body.width = pos) ∨ body.hasStatement = true ∧
      body.width = pos + 1 ∧
      (body.layout scopes 0 0 {})[pos]? = some ⟨.returnTop, 1, .plain⟩ := by
  unfold bodyEnd? at h
  split at h
  · rename_i functions nodes
    cases hlast : nodes.getLast? with
    | none =>
      rw [hlast] at h
      cases h
      obtain rfl := getLast?_eq_none_iff.1 hlast
      exact .inl ⟨rfl, rfl⟩
    | some last =>
      rw [hlast] at h
      dsimp only at h
      split at h <;> cases h
      have hreturn := getLast?_layoutBody scopes hlast (Bool.eq_false_of_not_eq_true ‹_›)
        (0 + widthAll functions) 0 {}
      have hpos : 0 < widthBody nodes := by
        rw [← length_layoutBody scopes (0 + widthAll functions) 0 {}, length_pos_iff]
        intro hnil
        rw [hnil] at hreturn
        cases hreturn
      refine .inr ⟨?_, by rw [width]; omega, ?_⟩
      · cases nodes with
        | nil => cases hlast
        | cons => rfl
      · have hlines : (layout scopes 0 0 {} (.sourceElements functions nodes)).getLast?
            = some ⟨.returnTop, 1, .plain⟩ := by
          rw [layout, getLast?_append, hreturn]
          rfl
        rwa [getLast?_eq_getElem?, length_layout, width] at hlines
  · cases h
    exact .inr ⟨rfl, rfl, rfl⟩
  · cases h

end Node

/-- Where a body is over its code has a `RETURN`, unless the body has no statement or
the `RETURN` was left out; there it has nothing. -/
theorem Bytecode.IsCodeOf.fetch_bodyEnd {r : Rules} {scopes : Nat → Scope} {body : Node}
    {b : Bytecode} {pos : Nat} (h : b.IsCodeOf scopes body) (hbody : body.TidyBody r)
    (hend : body.bodyEnd? = some pos) :
    (b.code[pos]? = some .returnTop ∧ body.hasStatement ∧ b.code = b.listing) ∨
      b.code[pos]? = none ∧ ¬(body.hasStatement ∧ b.code = b.listing) := by
  have hsize : b.listing.size = body.width := by
    rw [← Array.length_toList, h.listing_eq, length_map, Node.length_layout]
  have hlisting := h.listing_cases hbody
  rcases Node.layout_of_bodyEnd? scopes hend with ⟨hnone, hwidth⟩ | ⟨hsome, hwidth, hline⟩
  · refine .inr ⟨Array.getElem?_eq_none ?_, by simp [hnone]⟩
    rcases hlisting with heq | heq <;> rw [heq] at hsize
    · omega
    · rw [Array.size_push] at hsize
      omega
  · rcases hlisting with heq | heq
    · refine .inl ⟨?_, hsome, heq.symm⟩
      rw [← heq, ← Array.getElem?_toList, h.listing_eq, getElem?_map, hline]
      rfl
    · have hne : b.code ≠ b.listing := by
        intro hcode
        have := congrArg Array.size (hcode.trans heq)
        simp at this
      rw [heq, Array.size_push] at hsize
      exact .inr ⟨Array.getElem?_eq_none (by omega), fun hboth => hne hboth.2⟩

namespace Machine

variable {m m₁ : Machine} {id : Nat} {args : List Value} {v : Value}

/-- The call that the running activation was made for is over: the one that waits
goes on behind it, with a value in place of the operands. -/
def Yields (m : Machine) (v : Value) : Prop :=
  ∃ caller rest m', m.callers = caller :: rest ∧ step.run m = .ok .running m' ∧
    m'.callers = rest ∧ m'.current.frame.stack = v :: caller.frame.stack ∧
    m'.current.pos = caller.pos + 1

theorem Calls.room (h : m.Calls id args) (hm : m.InCapacity)
    (hstep : Machine.step.run m = .ok .running m₁) :
    m₁.current.frame.code = m.world.store.code id ∧ ∃ caller, m₁.callers = caller :: m.callers ∧
      caller.frame.stack.length < caller.frame.capacity := by
  obtain ⟨count, rest, hnext, hlength, hstack⟩ := h
  have hfull : m.current.frame.stack.length ≤ m.current.frame.capacity := hm _ mem_cons_self
  rw [hstack, length_cons, length_append] at hfull
  rw [step_of_some hnext, tick_eq, Instr.exec_call_code hstack hlength] at hstep
  cases henter : (Exec.enterFunction (m.situation.world.store.code id) args).seen m.situation with
  | error e T =>
    rw [henter] at hstep
    cases hstep
  | ok frame T =>
    rw [henter] at hstep
    cases hstep
    obtain ⟨_, hrun, -⟩ := Exec.ok_of_seen henter
    refine ⟨(Exec.enterFunction_frame hrun).1, _, rfl, ?_⟩
    show rest.length < m.current.frame.capacity
    omega

theorem Yields.unique {w : Value} (hv : m.Yields v) (hw : m.Yields w) : v = w := by
  obtain ⟨caller, rest, m₁, hcallers, hstep, -, hstack, -⟩ := hv
  obtain ⟨caller', rest', m₂, hcallers', hstep', -, hstack', -⟩ := hw
  cases hcallers.symm.trans hcallers'
  cases hstep.symm.trans hstep'
  exact (cons.inj (hstack.symm.trans hstack')).1

theorem Yields.not_error {f : Fault} {last : Machine} (h : m.Yields v) :
    step.run m ≠ .error f last := by
  obtain ⟨_, _, m', -, hstep, -⟩ := h
  rw [hstep]
  intro hf
  cases hf

theorem step_returnTop (hnext : m.next? = some .returnTop) {caller : Activation}
    {rest : List Activation} (hcallers : m.callers = caller :: rest)
    (hroom : caller.frame.stack.length < caller.frame.capacity) :
    (∃ v, v ≠ .unset ∧ m.current.frame.stack.head? = some v ∧ m.Yields v) ∨
      (∀ v, m.current.frame.stack.head? = some v → v = .unset) ∧
        ∃ last, step.run m = .error .checkFailed last := by
  have hstep := step_of_some hnext
  rw [tick_eq] at hstep
  cases hstack : m.current.frame.stack with
  | nil =>
    have hpop : m.ticked.stack = [] := hstack
    rw [Instr.exec, EStateM.run_bind, Exec.run_pop, hpop] at hstep
    exact .inr ⟨by rintro _ ⟨⟩, _, hstep⟩
  | cons v s =>
    rw [Instr.exec_returnTop hstack] at hstep
    by_cases hv : v = .unset
    · subst hv
      have hwaits : m.callers ≠ [] := hcallers ▸ cons_ne_nil _ _
      exact .inr ⟨by rintro _ ⟨⟩; rfl, _, hstep.trans (leave_unset hwaits)⟩
    · exact .inl ⟨v, hv, rfl, caller, rest, _, hcallers,
        hstep.trans (leave_resume hcallers hv hroom), rfl, rfl, rfl⟩

theorem yields_or_fails {kept : Prop}
    (hfetch : (m.next? = some .returnTop ∧ kept) ∨ m.next? = none ∧ ¬kept) {caller : Activation}
    {rest : List Activation} (hcallers : m.callers = caller :: rest)
    (hroom : caller.frame.stack.length < caller.frame.capacity) :
    (∀ v, m.Yields v ↔ kept ∧ v ≠ .unset ∧ m.current.frame.stack.head? = some v) ∧
      ((∃ v, m.Yields v) ∨ ∃ last, step.run m = .error .checkFailed last) := by
  rcases hfetch with ⟨hnext, hkept⟩ | ⟨hnext, hnot⟩
  · rcases step_returnTop hnext hcallers hroom with ⟨v, hv, hhead, hyields⟩ | ⟨hunset, last, hfail⟩
    · refine ⟨fun w => ⟨fun hw => ?_, fun hw => ?_⟩, .inl ⟨v, hyields⟩⟩
      · obtain rfl := hyields.unique hw
        exact ⟨hkept, hv, hhead⟩
      · cases hhead.symm.trans hw.2.2
        exact hyields
    · exact ⟨fun w => ⟨fun hw => absurd hfail hw.not_error, fun hw => absurd (hunset w hw.2.2) hw.2.1⟩,
        .inr ⟨last, hfail⟩⟩
  · have hfail : step.run m = .error .checkFailed m.tick := by
      rw [step_of_none hnext]
      exact leave_unset (hcallers ▸ cons_ne_nil _ _)
    exact ⟨fun w => ⟨fun hw => absurd hfail hw.not_error, fun hw => absurd hw.1 hnot⟩,
      .inr ⟨_, hfail⟩⟩

/-- A call is not over: an activation that runs its code runs or waits, above those
that wait for the call. -/
inductive Within (code : Array (Instr Nat Bytecode)) (base : List Activation) :
    Activation → List Activation → Prop where
  | runs {a : Activation} : a.frame.code.code = code → Within code base a base
  | waits {a b : Activation} {rest : List Activation} : Within code base a rest →
      Within code base b (a :: rest)

namespace Within

variable {code : Array (Instr Nat Bytecode)} {base rest : List Activation} {a b : Activation}

theorem congr (h : Within code base a rest) (hab : b.frame.code.code = a.frame.code.code) :
    Within code base b rest := by
  cases h with
  | runs ha => exact .runs (hab.trans ha)
  | waits h => exact .waits h

theorem le (h : Within code base a rest) : base.length ≤ rest.length := by
  induction h with
  | runs => exact Nat.le_refl _
  | waits _ ih => exact Nat.le_succ_of_le ih

theorem level (h : Within code base a rest) (hlevel : rest.length = base.length) :
    a.frame.code.code = code ∧ rest = base := by
  cases h with
  | runs ha => exact ⟨ha, rfl⟩
  | waits h => exact absurd hlevel (Nat.ne_of_gt (Nat.lt_succ_of_le h.le))

theorem step (h : Within code base m.current m.callers)
    (hstep : Machine.step.run m = .ok .running m₁) (hbase : base.length ≤ m₁.callers.length) :
    Within code base m₁.current m₁.callers := by
  obtain ⟨i, flow, m₂, -, hexec, hgoes⟩ := step_goes hstep
  obtain ⟨hcode, -, hcallers⟩ := keeps_of_exec hexec
  have hm₂ : Within code base m₂.current m₂.callers := by
    rw [hcallers]
    exact h.congr hcode
  cases hgoes with
  | next | jump => exact hm₂.congr rfl
  | enter => exact .waits (hm₂.congr rfl)
  | leave hwaits =>
    rw [hwaits] at hm₂
    cases hm₂ with
    | runs => exact absurd hbase (Nat.not_succ_le_self _)
    | waits h => exact h.congr rfl

theorem course (h : Within code base m.current m.callers) {P : Machine → Prop} {n : Nat}
    (hcourse : Course P n m m₁) (hP : ∀ m, P m → base.length ≤ m.callers.length)
    (hbase : base.length ≤ m₁.callers.length) : Within code base m₁.current m₁.callers := by
  induction hcourse with
  | stay => exact h
  | next _ hstep hcourse ih =>
    refine ih (h.step hstep ?_) hbase
    cases hcourse with
    | stay => exact hbase
    | next hPm => exact hP _ hPm

end Within

end Machine

/-- What a call comes to in a grammatical program that gets to the end of its body.

* It yields what is on top of the stack, if the body has a statement and its last
  `RETURN` is there.
* Otherwise it fails.
* What the last statement leaves on top is its value. -/
theorem body_yields {tree : Tree} (htree : tree.Program true) {s : Script}
    (hread : Script.ofTree tree = .ok s) {name : String} {main : Bytecode}
    (hcompile : s.compile name = .ok main) {program body : Node} {scope : Nat}
    (hroot : s.root = .program program scope) (hbody : program.HasBody body) {m m₁ m' : Machine}
    {id : Nat} {args : List Value} {code : Bytecode} (hm : m.InCapacity)
    (hcalls : m.Calls id args) (hcallee : m.world.store.code id = code)
    (hcode : code.IsCodeOf s.scope body) (hstep : Machine.step.run m = .ok .running m₁) {k : Nat}
    (hcall : Machine.Course (fun m₂ => m.callers.length < m₂.callers.length) k m₁ m')
    (hlevel : m'.callers.length = m.callers.length + 1) {pos : Nat}
    (hend : body.bodyEnd? = some pos) :
    (m'.current.pos = pos →
      (∀ v, m'.Yields v ↔ (body.hasStatement ∧ code.code = code.listing) ∧ v ≠ .unset ∧
        m'.current.frame.stack.head? = some v) ∧
      ((∃ v, m'.Yields v) ∨ ∃ last, Machine.step.run m' = .error .checkFailed last)) ∧
    ∀ last, m'.Before last pos → ∀ v fuel T, (last.eval fuel).run m'.situation = .ok v T →
      v ≠ .unset → body.hasStatement → code.code = code.listing →
      ∃ m'', m'.Reaches pos m'' ∧ m''.Yields v := by
  obtain ⟨program', scope', hroot', htidy⟩ := htree.tidyProgram hread hcompile
  rw [hroot] at hroot'
  cases hroot'
  obtain ⟨hruns, caller, hwaits, hroom⟩ := hcalls.room hm hstep
  have hlength : m₁.callers.length = m.callers.length + 1 := by rw [hwaits]; rfl
  have hentered : Machine.Within code.code m₁.callers m₁.current m₁.callers :=
    .runs (congrArg Bytecode.code (hruns.trans hcallee))
  -- The call is still the one that was made.
  obtain ⟨hframe, hcallers⟩ := (hentered.course hcall (fun m₂ hm₂ => by omega) (by omega)).level
    (by omega)
  have hover : ∀ m₂ : Machine, m₂.callers = m₁.callers → m₂.current.frame.code.code = code.code →
      m₂.current.pos = pos →
      (∀ v, m₂.Yields v ↔ (body.hasStatement ∧ code.code = code.listing) ∧ v ≠ .unset ∧
        m₂.current.frame.stack.head? = some v) ∧
      ((∃ v, m₂.Yields v) ∨ ∃ last, Machine.step.run m₂ = .error .checkFailed last) := by
    intro m₂ hcallers hframe hpos
    have hfetch := hcode.fetch_bodyEnd (htidy.of_hasBody hbody) hend
    rw [← hpos, ← hframe] at hfetch
    rw [← hframe]
    exact Machine.yields_or_fails hfetch (hcallers.trans hwaits) hroom
  refine ⟨hover m' hcallers hframe, fun last hlast v fuel T hrun hv hsome hkept => ?_⟩
  obtain ⟨p, hfragment⟩ := hlast.tidy
  obtain ⟨scopes, hhosts, rfl⟩ := hlast.hosts
  obtain ⟨m'', hreaches, hstands⟩ := (hfragment.simulates hhosts (Nat.le_refl _)).reaches
    ⟨m'.steps, m'.stackFault, m'.situation_under_control.symm⟩ hrun
  refine ⟨m'', hreaches, ((hover m'' ?_ ?_ hstands.at.2).1 v).2 ⟨⟨hsome, hkept⟩, hv, ?_⟩⟩
  · exact hstands.at.1.trans hcallers
  · obtain ⟨_, _, rfl⟩ := hstands
    exact hframe
  · rw [hstands.stack]
    rfl

open Sample

/-- `function f() { if (false) { print 1; } }` -/
def quietTree : Tree := programTree [plainDeclarationTree "f"
  [.branch "ifstatement" [truthLiteral "false", blockTree [printTree (numeral "1")]]]]

theorem program_quietTree : quietTree.Program true := by
  have hprint : ∀ t ∈ [printTree (numeral "1")], t.Statement true := by
    simpa using .printTree .number
  refine .main (forall_mem_singleton.2 (.plainDeclarationTree (by decide) ?_))
  exact forall_mem_singleton.2 (.statement (.ifThen (.word (by decide)) (.block hprint)))

/-- The body of the function, its code, and a machine that is about to call it. -/
def quietBody : Node :=
  .sourceElements [] [.ifElse (.boolean false) (.block [.print (.constantInt 1 0)]) .absent]

def quietCode : Bytecode := Node.functionCode "f" {} (quietBody.compile fun _ => {})

def quietMachine : Machine where
  world := { store := { codes := #[quietCode] } }
  interpreter := {}
  current :=
    { frame :=
        { code := { (default : Bytecode) with code := #[.call 0] }
          capacity := 1
          stack := [.code 0]
          slots := #[] } }

/-- The call gets to the end of the body in three steps, and yields null. -/
theorem body_yields_quiet : ∃ m₁ m', Machine.step.run quietMachine = .ok .running m₁ ∧
    Machine.Course (fun m₂ => 0 < m₂.callers.length) 3 m₁ m' ∧ m'.Yields .null := by
  obtain ⟨s, main, hread, hroot, hcompile⟩ : ∃ s main, Script.ofTree quietTree = .ok s ∧
      s.root = .program (.sourceElements [.function "f" quietBody 1] []) 0 ∧
      s.compile "main" = .ok main := ⟨_, _, rfl, rfl, rfl⟩
  have hcapacity : quietMachine.InCapacity := List.forall_mem_singleton.2 (Nat.le_refl 1)
  have hbody : (Node.sourceElements [.function "f" quietBody 1] []).HasBody quietBody :=
    .declared List.mem_cons_self .own
  have hcalls : quietMachine.Calls 0 [] := ⟨0, [], rfl, rfl, rfl⟩
  obtain ⟨m₁, m', hstep, hcall, hlevel, hpos, hhead⟩ : ∃ m₁ m',
      Machine.step.run quietMachine = .ok .running m₁ ∧
      Machine.Course (fun m₂ => 0 < m₂.callers.length) 3 m₁ m' ∧ m'.callers.length = 1 ∧
      m'.current.pos = 6 ∧ m'.current.frame.stack.head? = some .null :=
    ⟨_, _, rfl, .next Nat.one_pos rfl (.next Nat.one_pos rfl (.next Nat.one_pos rfl (.stay _))),
      rfl, rfl, rfl⟩
  have hover := (body_yields program_quietTree hread hcompile hroot hbody hcapacity hcalls rfl
    ⟨"f", {}, rfl⟩ hstep hcall hlevel rfl).1 hpos
  exact ⟨m₁, m', hstep, hcall, (hover.1 .null).2 ⟨⟨rfl, rfl⟩, by rintro ⟨⟩, hhead⟩⟩

/-- `function f() { ... } return f();` -/
def yieldingTree (elements : List Tree) : Tree := programTree [
  plainDeclarationTree "f" elements, .branch "returnstatement" [callTree "f" []]]

/-- Without a `return`, `function f() { 5; }` yields 5, and a call of
`function f() { function g() { } }` fails. -/
theorem body_yields_other :
    (∃ s b start, Script.ofTree (yieldingTree [expressionTree (numeral "5")]) = .ok s ∧
      s.compile "main" = .ok b ∧ Machine.launch {} {} b = .ok start ∧
      (start.run 7).1 = .finished (.int 5)) ∧
    ∃ s b start, Script.ofTree (yieldingTree [plainDeclarationTree "g" []]) = .ok s ∧
      s.compile "main" = .ok b ∧ Machine.launch {} {} b = .ok start ∧
      (start.run 7).1.fault? = some .checkFailed := by
  obtain ⟨s, hread, b, hcompile, start, hlaunch, hends⟩ :
      ∃ s, Script.ofTree (yieldingTree [expressionTree (numeral "5")]) = .ok s ∧
      ∃ b, s.compile "main" = .ok b ∧ ∃ start, Machine.launch {} {} b = .ok start ∧
      (start.run 7).1 = .finished (.int 5) := by decide +kernel
  obtain ⟨s', hread', b', hcompile', start', hlaunch', hfails⟩ :
      ∃ s, Script.ofTree (yieldingTree [plainDeclarationTree "g" []]) = .ok s ∧
      ∃ b, s.compile "main" = .ok b ∧ ∃ start, Machine.launch {} {} b = .ok start ∧
      (start.run 7).1.fault? = some .checkFailed := by decide +kernel
  exact ⟨⟨s, b, start, hread, hcompile, hlaunch, hends⟩, s', b', start', hread', hcompile', hlaunch',
    hfails⟩

end PageScript
