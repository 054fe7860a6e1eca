/-
The depth of the operand stack along code.

The depths that the lines of a layout say fit together (`Tidy.typed`): an instruction finds
the operands it needs, and where it goes on, the depth is what it leaves behind.  Only the
jumps of `break` and `continue` need not fit.  Along the code the depth grows by no more
than the change that is declared for the instruction.
-/
import PageScript.Proofs.Emission
import PageScript.Proofs.Fitting

namespace PageScript

open List Instr

namespace Loop

/-- The depth of the stack in the body of a loop. -/
def inside (l : Loop) : Nat := l.depth + (l.kind.inside []).length

/-- The depth of the stack where every iteration starts and where the next
one is prepared. -/
def turn (l : Loop) : Nat := l.depth + (l.kind.turn []).length

end Loop

def Mark.isExit : Mark → Bool
  | .leaves _ => true
  | .continues _ => true
  | _ => false

structure Loop.Settled (H : Nat → Nat) (l : Loop) : Prop where
  entry : H l.entry = l.depth
  start : H l.start = l.turn
  next : H l.next = l.turn
  finish : H l.finish = l.depth + 1

/-- What the mark of a line says.  Jumps that leave a loop go to its finish;
jumps that continue it go to where the next iteration is prepared, except in a
`foreach` loop, where they never do. -/
def Mark.Holds (r : Rules) (H : Nat → Nat) (line : Line) : Mark → Prop
  | .plain => True
  | .loop l => l.Settled H
  | .leaves l => line.instr = .jump .always l.finish ∧ line.depth = l.inside + 1 ∧
      l.Settled H ∧ r.leaves l.kind
  | .continues l => (∃ target, line.instr = .jump .always target ∧
      (target = l.next ↔ l.kind ≠ .foreachLoop)) ∧ line.depth = l.inside + 1 ∧
      l.Settled H ∧ r.leaves l.kind

def Bytecode.Runs (r : Rules) (scopes : Nat → Scope) (body : Node) (b : Bytecode) : Prop :=
  body.TidyBody r ∧
    ∃ b' : Bytecode, b'.IsCodeOf scopes body ∧ b.code = b'.code ∧ b.stackSize = b'.stackSize

/-- Code that is that of a tidy body, if there is any. -/
def Bytecode.IsTidy (r : Rules) (b : Bytecode) : Prop :=
  b.code.isEmpty = false → ∃ scopes body, b.Runs r scopes body

/-- The depths around a line fit it, and a function that it declares is
tidy. -/
structure Typed (r : Rules) (H : Nat → Nat) (pos : Nat) (line : Line) : Prop where
  depth : H pos = line.depth
  needs : line.instr.needs ≤ line.depth
  next : line.instr.fallsThrough →
    H (pos + 1) + line.instr.needs = line.depth + line.instr.leaves
  linear : r.returns = false → (H (pos + 1) : Int) ≤ line.depth + line.instr.stackChange
  target : ∀ kind target, line.instr = .jump kind target → line.mark.isExit = false →
    H target + kind.needs = line.depth + kind.leavesTaken
  mark : line.mark.Holds r H line
  declares : ∀ name code, line.instr = .declareFunction name code → code.IsTidy r

theorem Instr.leaves_le_needs_add_stackChange {i : Instr Nat Bytecode} (h : i.fallsThrough) :
    (i.leaves : Int) ≤ i.needs + i.stackChange := by
  cases i with
  | jump kind target =>
    cases kind with
    | always => cases h
    | _ => simp [leaves, needs, operation?, stackChange, Jump.leaves, Jump.needs, Jump.stackChange]
  | binary op => cases op <;> decide
  | returnTop => cases h
  | stringSubstitution count | loadArray count | call count =>
    simp only [leaves, needs, operation?, stackChange]
    omega
  | _ => simp [leaves, needs, operation?, stackChange]

/-- What is known about the ways out of a node in its place. -/
def Within (H : Nat → Nat) (x : Exits) (d : Nat) : Place → Prop
  | .statement (some kind) => ∃ l, x.loop = some l ∧ l.kind = kind ∧ x.breakTo = l.finish ∧
      (x.continueTo = l.next ↔ kind ≠ .foreachLoop) ∧ d = l.inside ∧ l.Settled H
  | _ => True

/-! ### Depths are judged -/

theorem Instr.Takes.depth {i : Instr Nat Bytecode} {ks ks' : List Kind} (h : i.Takes ks ks') :
    i.needs ≤ ks.length ∧ ks'.length + i.needs = ks.length + i.leaves := by
  cases h with
  | operation hi =>
    obtain ⟨o, ho, rfl⟩ := Option.map_eq_some_iff.1 hi
    rw [needs_of_operation ho, leaves_of_operation ho, length_plains, length_cons]
    omega
  | @call nodes ks =>
    simp [needs, leaves, operation?, Node.passed_eq]
    omega
  | _ => simp [needs, leaves, operation?]

theorem Jump.Takes.depth {kind : Jump} {ks next taken : List Kind} (h : kind.Takes ks next taken) :
    kind.needs ≤ ks.length ∧ next.length + kind.needs = ks.length + kind.leaves ∧
      taken.length + kind.needs = ks.length + kind.leavesTaken ∧ kind ≠ .always := by
  cases h <;> simp [Jump.needs, Jump.leaves, Jump.leavesTaken]

section

variable {r : Rules} {H : Nat → Nat} {pos : Nat}

theorem Typed.jump {target d : Nat} {mark : Mark} (hpos : H pos = d) (hnext : H (pos + 1) ≤ d)
    (hmark : mark.Holds r H ⟨.jump .always target, d, mark⟩)
    (htarget : mark.isExit = false → H target = d) :
    Typed r H pos ⟨.jump .always target, d, mark⟩ where
  depth := hpos
  needs := Nat.zero_le d
  next h := by cases h
  linear _ := by
    simp only [stackChange, Jump.stackChange]
    omega
  target _ _ h := by
    cases h
    exact htarget
  mark := hmark
  declares _ _ h := by cases h

end

theorem Loop.Stands.settled {K : Nat → List Kind} {ks : List Kind} {l : Loop}
    (h : l.Stands (fun ks ks' => ks.length = ks'.length) K ks) :
    l.Settled fun pos => (K pos).length := by
  obtain ⟨kind, depth, entry, start, next, finish⟩ := l
  obtain ⟨rfl, hentry, hstart, hnext, hfinish⟩ := h
  cases kind <;> exact ⟨hentry.symm, hstart.symm, hnext.symm, hfinish.symm⟩

def Rules.depths (r : Rules) (hr : r.globals = false) (K : Nat → List Kind) : Judgement r where
  K := K
  E ks ks' := ks.length = ks'.length
  Holds := Typed r fun pos => (K pos).length
  Out x ks loop := Within (fun pos => (K pos).length) x ks.length (.statement loop)
  good code := code.IsTidy r
  depths := True
  refl _ := rfl
  straight {pos i ks ks' mark} h hpos hnext hmark := by
    have hthrough : i.fallsThrough := by
      have hi := h.isStraight
      cases i <;> first | rfl | cases hi
    have hlinear := Instr.leaves_le_needs_add_stackChange hthrough
    obtain ⟨hneeds, hleaves⟩ := h.depth
    subst hpos
    refine ⟨rfl, hneeds, fun _ => ?_, fun _ => ?_, ?_, ?_, ?_⟩
    · dsimp only
      omega
    · dsimp only
      omega
    · rintro kind target rfl
      cases h.isStraight
    · cases mark with
      | loop l => exact hmark.elim fun _ hstands => hstands.settled
      | plain => trivial
      | _ => cases hmark
    · rintro name code rfl
      cases h.isStraight
  branch {pos kind target ks next taken} h hpos hnext htarget := by
    have hthrough : (Instr.jump kind target : Instr Nat Bytecode).fallsThrough := by
      cases h <;> rfl
    have hlinear := Instr.leaves_le_needs_add_stackChange hthrough
    obtain ⟨hneeds, hleaves, htaken, -⟩ := h.depth
    subst hpos
    refine ⟨rfl, hneeds, fun _ => ?_, fun _ => ?_, ?_, trivial, by rintro _ _ ⟨⟩⟩
    · simp only [Instr.leaves, Instr.needs, Instr.operation?]
      omega
    · simp only [Instr.leaves, Instr.needs, Instr.operation?] at hlinear
      dsimp only
      omega
    · rintro _ _ ⟨⟩ -
      dsimp only
      omega
  jump hpos htarget hnext hle :=
    .jump (congrArg length hpos) (hnext ▸ hle) trivial fun _ => htarget.symm
  exit {pos x ks kind} hout hleaves hpos hnext := by
    obtain ⟨l, hloop, rfl, hbreak, hcontinue, hdepth, hsettled⟩ := hout
    rw [hloop]
    exact ⟨.jump (congrArg length hpos) (Nat.le_of_eq hnext.symm)
      ⟨by rw [hbreak], congrArg (· + 1) hdepth, hsettled, hleaves⟩ nofun,
      .jump (congrArg length hpos) (Nat.le_of_eq hnext.symm)
      ⟨⟨_, rfl, hcontinue⟩, congrArg (· + 1) hdepth, hsettled, hleaves⟩ nofun⟩
  returnTop {pos ks} hpos hnext := by
    refine ⟨congrArg length hpos, Nat.le_add_left 1 _, by rintro ⟨⟩, fun hreturns => ?_,
      by rintro _ _ ⟨⟩, trivial, by rintro _ _ ⟨⟩⟩
    have := hnext trivial hreturns
    simp only [Instr.stackChange]
    omega
  declareFunction {pos ks name code} hpos hnext hcode := by
    refine ⟨congrArg length hpos, Nat.zero_le _, fun _ => hnext.symm, fun _ => ?_,
      by rintro _ _ ⟨⟩, trivial, ?_⟩
    · simp only [Instr.stackChange]
      omega
    · rintro _ _ ⟨⟩
      exact hcode
  global hglobals := by
    rw [hr] at hglobals
    cases hglobals
  enter {ks l continueTo} _ hstands hnext := by
    refine ⟨l, rfl, rfl, rfl, hnext, ?_, hstands.settled⟩
    unfold Loop.inside
    rw [hstands.depth]
    cases l.kind <;> rfl

namespace Node

variable {r : Rules} {scopes : Nat → Scope} {body : Node}

/-- The depth behind the code of a body.  Only code of no statement leaves a
value behind. -/
def leftover : Node → Nat
  | .sourceElements _ [] => 1
  | _ => 0

theorem functionCode_isTidy {name : String} {scope : Scope} {body : Node}
    (h : TidyBody r body) : (functionCode name scope (body.compile scopes)).IsTidy r := by
  intro hempty
  unfold functionCode at hempty ⊢
  cases hassemble : assembleBody name scope (body.compile scopes) with
  | error fault =>
    rw [hassemble] at hempty
    cases hempty
  | ok code => exact ⟨scopes, body, h, code, ⟨name, scope, hassemble⟩, rfl, rfl⟩

/-- The depth of the stack at every position of the code of a body. -/
def heights (scopes : Nat → Scope) (body : Node) (pos : Nat) : Nat :=
  match (layout scopes 0 0 {} body)[pos]? with
  | some line => line.depth
  | none => leftover body

theorem heights_of_le {pos : Nat} (h : width body ≤ pos) :
    heights scopes body pos = leftover body := by
  rw [← length_layout scopes 0 0 {} body] at h
  rw [heights, getElem?_eq_none h]

/-- The kinds of the operands that make up these depths. -/
def operandsAt (body : Node) (pos : Nat) : List Kind :=
  (kinds [] body).getD pos (plains (leftover body) [])

theorem operandsAt_of_le {pos : Nat} (h : width body ≤ pos) :
    operandsAt body pos = plains (leftover body) [] := by
  rw [← length_kinds [] body] at h
  rw [operandsAt, getD_eq_getElem?_getD, getElem?_eq_none h, Option.getD_none]

theorem TidyBody.from_operandsAt (scopes) (hr : r.globals = false) (h : TidyBody r body) :
    (r.depths hr body.operandsAt).From 0 [] (layout scopes 0 0 {} body) := by
  have hmatches : Matches (r.depths hr body.operandsAt).K 0 (kinds [] body) := matches_getD _ _
  have hend : ∀ pos, width body ≤ pos → (operandsAt body pos).length = leftover body := by
    intro pos hpos
    rw [operandsAt_of_le hpos, length_plains, length_nil, Nat.zero_add]
  cases h with
  | nothing =>
    exact Judgement.from_return {} (.inl rfl) hmatches (fun _ _ => (hend _ (Nat.le_refl _)).symm)
      (.inl (Nat.le_refl 0))
  | @elements functions nodes hfunctions hbodies hnodes =>
    refine Judgement.from_body hfunctions
      (fun name f scope hf => functionCode_isTidy (hbodies name f scope hf))
      (fun n hn => (hnodes n hn).judged ((hnodes n hn).seemly trivial)) trivial hmatches ?_ fun hne _ _ => ?_
    · rintro rfl
      exact (hend _ (Nat.le_refl _)).symm
    · refine ((hend _ (Nat.le_refl _)).trans ?_).symm
      cases nodes with
      | nil => exact absurd rfl hne
      | cons => rfl

theorem TidyBody.length_operandsAt (hr : r.globals = false) (h : TidyBody r body) :
    (fun pos => (body.operandsAt pos).length) = heights scopes body := by
  funext pos
  cases hline : (layout scopes 0 0 {} body)[pos]? with
  | none =>
    have hpos : width body ≤ pos := by
      rw [← length_layout scopes 0 0 {} body]
      exact getElem?_eq_none_iff.1 hline
    rw [heights_of_le hpos, operandsAt_of_le hpos, length_plains, length_nil, Nat.zero_add]
  | some line =>
    have htyped := ((h.from_operandsAt scopes hr).2.get hline).depth
    rw [Nat.zero_add] at htyped
    rw [htyped, heights, hline]

theorem TidyBody.heights_zero (hr : r.globals = false) (h : TidyBody r body) :
    heights scopes body 0 = 0 := by
  rw [← h.length_operandsAt hr]
  exact (h.from_operandsAt scopes hr).1.symm

theorem TidyBody.typed (hr : r.globals = false) (h : TidyBody r body) {pos : Nat} {line : Line}
    (hline : (layout scopes 0 0 {} body)[pos]? = some line) :
    Typed r (heights scopes body) pos line := by
  have htyped := (h.from_operandsAt scopes hr).2.get hline
  rw [Nat.zero_add] at htyped
  rw [← h.length_operandsAt hr]
  exact htyped

end Node

end PageScript
