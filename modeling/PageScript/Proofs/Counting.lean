/-
Counting by one.

`++` adds without a bound; `+= 1` makes a real of a sum that has left 64 bits.  So they
agree on every integer of 64 bits but one, the last in the direction
(`counted_alike_iff`), and so do `--` and `-= 1`.
-/
import PageScript.Proofs.Paths

namespace PageScript

open ArithOp (checked)

/-- A direction to count in. -/
inductive Counting where
  | up
  | down

namespace Counting

/-- The instruction that counts. -/
def unary : Counting → UnaryOperator
  | .up => .incr
  | .down => .decr

/-- The operator that counts by a right side. -/
def binary : Counting → ArithOp
  | .up => .add
  | .down => .sub

/-- The sign that counts by one. -/
def stepSign : Counting → String
  | .up => "++"
  | .down => "--"

/-- The sign that counts by a right side. -/
def sign : Counting → String
  | .up => "+="
  | .down => "-="

/-- The integer after this one. -/
def next (d : Counting) (x : Int) : Int :=
  match d with
  | .up => x + 1
  | .down => x - 1

/-- The last integer of 64 bits. -/
def last : Counting → Int
  | .up => wordLimit - 1
  | .down => -wordLimit

/-- The real that follows the last integer. -/
def beyond : Counting → Float
  | .up => 9223372036854775808.0
  | .down => -9223372036854775808.0

/-- What the operator makes of an integer and 1. -/
def sum (d : Counting) (x : Int) : Value := if x = d.last then .float d.beyond else .int (d.next x)

theorem inWordRange_next_iff (d : Counting) {x : Int} (hx : inWordRange x) :
    inWordRange (d.next x) ↔ x ≠ d.last := by
  simp only [inWordRange, Bool.and_eq_true, decide_eq_true_eq] at hx ⊢
  cases d <;> simp only [next, last] <;> omega

theorem evaluate_eq (d : Counting) (x : Int) : d.unary.evaluate (.int x) = .ok (.int (d.next x)) := by
  cases d <;> rfl

theorem apply_eq (d : Counting) {x : Int} (hx : inWordRange x) :
    d.binary.apply (.int x) (.int 1) = .ok (d.sum x) := by
  by_cases hlast : x = d.last
  · rw [sum, if_pos hlast, hlast]
    cases d <;> rfl
  · have hchecked : ∃ f, d.binary.apply (.int x) (.int 1) = checked (d.next x) f x 1 := by
      cases d <;> exact ⟨_, rfl⟩
    obtain ⟨f, hchecked⟩ := hchecked
    rw [hchecked, checked, if_pos ((d.inWordRange_next_iff hx).2 hlast), sum, if_neg hlast]

theorem sum_eq_iff (d : Counting) (x : Int) : d.sum x = .int (d.next x) ↔ x ≠ d.last := by
  rw [sum]
  split
  · exact iff_of_false (fun h => by cases h) (not_not_intro ‹_›)
  · exact iff_of_true rfl ‹_›

theorem isNumber_sum (d : Counting) (x : Int) : (d.sum x).isNumber := by
  rw [sum]
  split <;> rfl

end Counting

theorem Frame.exists_storeVariable_of_getVariable {f : Frame} {s : Store} {slot : Int} {old : Value}
    (h : f.getVariable s slot = .ok old) (v : Value) :
    ∃ g t, f.storeVariable s slot v = .ok (g, t) := by
  obtain ⟨held, hload, -⟩ := ok_of_bind h
  unfold Frame.load at hload
  split at hload
  · cases hload
  · split at hload <;> cases hload
    obtain ⟨hlt, -⟩ := Array.getElem?_eq_some_iff.1 ‹_›
    exact f.exists_storeVariable s v (by omega) (by omega)

namespace Eval

variable {name sign : String} {slot : Int} {right : Node} {post : Bool} {fuel : Nat}
  {S : Situation} {old v : Value}

theorem exists_of_update (hsign : sign ≠ "=") (hold : (Node.variable name slot).Denotes S old)
    (hupdate : (update sign old (right.eval fuel)).run S = .ok v S) (hv : v.isNumber) :
    ∃ T, ((Node.assignment name slot right sign post).eval fuel).run S
        = .ok (if post then old else v) T ∧ (Node.variable name slot).Denotes T v := by
  have hplain : v.isRef = false ∧ v ≠ .unset := by
    cases v with
    | int n => exact ⟨rfl, fun h => by cases h⟩
    | float x => exact ⟨rfl, fun h => by cases h⟩
    | _ => cases hv
  obtain ⟨hget, hold⟩ := denotes_variable_iff.1 hold
  obtain ⟨g, t, hstore⟩ := Frame.exists_storeVariable_of_getVariable hget v
  refine ⟨{ S with world := { S.world with store := t }, slots := g.slots }, ?_,
    denotes_variable_iff.2 ⟨?_, hplain.2⟩⟩
  · rw [Node.eval, if_neg hsign, EStateM.run_bind, run_requireVariable_of_eq hget hold]
    simp only [EStateM.run_bind, hupdate, run_storeVariable, hstore]
    rfl
  · rw [← Frame.getVariable_of_storeVariable hget rfl hstore hplain.1]
    exact Frame.getVariable_congr rfl t slot

theorem update_stepSign (d : Counting) (v : Value) (right : Eval Value) :
    update d.stepSign v right = act (ofExcept (d.unary.evaluate v)) := by
  cases d <;> rfl

theorem update_sign (d : Counting) (v : Value) (right : Eval Value) :
    update d.sign v right = right >>= fun w => act (ofExcept (d.binary.apply v w)) := by
  cases d <;> rfl

end Eval

open Eval in
/-- Where `++` and `+= 1`, or `--` and `-= 1`, agree.  As operations they do on every
integer of 64 bits but the last one; there the first gives an integer and the second
a real.  So do the assignments: from an integer in a variable, both arrive, and
leave these values in it. -/
theorem counted_alike_iff (d : Counting) {x : Int} (hx : inWordRange x) :
    (d.unary.evaluate (.int x) = d.binary.apply (.int x) (.int 1) ↔ x ≠ d.last) ∧
    (d.unary.evaluate (.int x) = .ok (.int (d.next x)) ∧
      d.binary.apply (.int x) (.int 1) = .ok (d.sum x)) ∧
    ∀ {m : Machine} {name : String} {slot : Int} {post : Bool} {finish : Nat},
      (Node.variable name slot).Denotes m.situation (.int x) →
      (m.Before (.assignment name slot .empty d.stepSign post) finish →
        ∃ T, m.Arrives finish ((if post then .int x else .int (d.next x)) :: m.current.frame.stack) T ∧
          (Node.variable name slot).Denotes T (.int (d.next x))) ∧
      ∀ {one : Node}, one.Denotes m.situation (.int 1) →
        m.Before (.assignment name slot one d.sign post) finish →
        ∃ T, m.Arrives finish ((if post then .int x else d.sum x) :: m.current.frame.stack) T ∧
          (Node.variable name slot).Denotes T (d.sum x) := by
  have hunary := d.evaluate_eq x
  have hbinary := d.apply_eq hx
  refine ⟨?_, ⟨hunary, hbinary⟩, fun {m name slot post finish} hold => ⟨?_, ?_⟩⟩
  · rw [hunary, hbinary, Except.ok.injEq, eq_comm, d.sum_eq_iff]
  · intro hm
    have hupdate : (update d.stepSign (.int x) (Node.empty.eval 0)).run m.situation
        = .ok (.int (d.next x)) m.situation := by
      rw [update_stepSign, hunary]
      rfl
    obtain ⟨T, hrun, hleft⟩ := exists_of_update (by cases d <;> decide) hold hupdate rfl
    exact ⟨T, (hm.meaning.1 _ _).2 ⟨_, 0, rfl, hrun⟩, hleft⟩
  · intro one hone hm
    have hvalue : (one.eval 0).run m.situation = .ok (.int 1) m.situation := hone 0
    have hupdate : (update d.sign (.int x) (one.eval 0)).run m.situation
        = .ok (d.sum x) m.situation := by
      rw [update_sign, EStateM.run_bind, hvalue]
      simp only [hbinary]
      rfl
    obtain ⟨T, hrun, hleft⟩ :=
      exists_of_update (by cases d <;> decide) hold hupdate (d.isNumber_sum x)
    exact ⟨T, (hm.meaning.1 _ _).2 ⟨_, 0, rfl, hrun⟩, hleft⟩

/-- A machine that has 41 in its variable, 1 in its pool, and this code. -/
def countingMachine (code : Array (Instr Nat Bytecode)) : Machine where
  world := {}
  interpreter := {}
  current :=
    { frame :=
        { code := { (default : Bytecode) with code := code, constants := #[.int 1] }
          capacity := 2
          slots := #[.int 41] } }

/-- A machine before `$x++`, and one before `$x += 1`. -/
def beforeStep : Machine :=
  countingMachine #[.loadVar 0 "$x", .dup, .unary .incr, .assign 0 "$x", .discardTop]

def beforeSum : Machine :=
  countingMachine #[.loadVar 0 "$x", .loadConstant 0, .binary .add, .assign 0 "$x"]

/-- Both leave 42. -/
theorem counted_alike_iff_answer :
    (∃ T, beforeStep.Arrives 5 [.int 41] T ∧ (Node.variable "$x" 0).Denotes T (.int 42)) ∧
    ∃ T, beforeSum.Arrives 4 [.int 42] T ∧ (Node.variable "$x" 0).Denotes T (.int 42) := by
  have hstep : beforeStep.Before (.assignment "$x" 0 .empty "++" true) 5 := by
    refine ⟨⟨.inner, .step (by decide)⟩, fun _ => {}, {}, { items := _ }, [.instr (.loadVar 0 "$x"),
      .instr .dup, .instr (.unary .incr), .instr (.assign 0 "$x"), .instr .discardTop], [],
      by decide, rfl, rfl, ?_, rfl, by decide⟩
    simp [Instr.retarget, beforeStep, countingMachine]
  have hsum : beforeSum.Before (.assignment "$x" 0 (.constantInt 1 0) "+=" false) 4 := by
    refine ⟨⟨.inner, .assignment (by decide) (by decide) .constantInt⟩, fun _ => {}, {},
      { items := _ }, [.instr (.loadVar 0 "$x"), .instr (.loadConstant 0), .instr (.binary .add),
      .instr (.assign 0 "$x")], [], by decide, rfl, rfl, ?_, rfl, by decide⟩
    simp [Instr.retarget, beforeSum, countingMachine]
  obtain ⟨-, -, hassign⟩ := counted_alike_iff .up (x := 41) (by decide)
  exact ⟨(hassign fun _ => rfl).1 hstep, (hassign fun _ => rfl).2 (fun _ => rfl) hsum⟩

/-- At the ends of 64 bits one is an integer and the other a real. -/
theorem counted_unlike :
    (UnaryOperator.incr.evaluate (.int 9223372036854775807) = .ok (.int 9223372036854775808) ∧
      ArithOp.add.apply (.int 9223372036854775807) (.int 1) = .ok (.float Counting.up.beyond)) ∧
    UnaryOperator.decr.evaluate (.int (-9223372036854775808)) = .ok (.int (-9223372036854775809)) ∧
      ArithOp.sub.apply (.int (-9223372036854775808)) (.int 1)
        = .ok (.float Counting.down.beyond) :=
  ⟨⟨rfl, rfl⟩, rfl, rfl⟩

end PageScript
