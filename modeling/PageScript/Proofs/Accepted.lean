/-
What the compiler accepts.

Emitting code fails only for an assignment with a sign that stands for no
operation, and for a `break` or `continue` with a count or in the wrong place:
`signed` and `formed` say this of the nodes themselves, and `IsBody.assembles_iff` that
it is all.  What is accepted is tidy (`IsBody.tidy`).
-/
import PageScript.Proofs.Emission
import PageScript.Proofs.Shape

namespace PageScript

variable {body condition right : Node} {operator name : String} {globals : Bool}
  {loop : Option LoopKind} {allowed : LoopKind → Bool} {nodes : List Node}

structure Around where
  loop : Bool := false
  next : Bool := false

structure Aims.Opens (y : Aims) (x : Around) : Prop where
  started : y.started = x.loop
  finish : y.finish.isSome = x.loop
  next : y.next.isSome = x.next

namespace Node

def isSign (operator : String) : Bool := (assignmentSigns ++ stepSigns).contains operator

mutual

/-- All assignments in an expression have signs that stand for operations. -/
def signed : Node → Bool
  | .call callee arguments => signed arguments && signed callee
  | .argumentList nodes => signedAll nodes
  | .array nodes => signedAll nodes
  | .member base index => signed index && signed base
  | .assignment _ _ right operator _ => isSign operator && signed right
  | .memberAssignment base index right operator _ =>
    isSign operator && signed right && signed index && signed base
  | .ifElse condition yes no => signed condition && signed yes && signed no
  | .binary _ left right => signed left && signed right
  | .not expr => signed expr
  | .both left right => signed left && signed right
  | .either left right => signed left && signed right
  | _ => true

def signedAll : List Node → Bool
  | [] => true
  | node :: nodes => signed node && signedAll nodes

end

mutual

/-- The same for a statement, and every `break` and `continue` in it has no
count and a place to go to. -/
def formed (x : Around) : Node → Bool
  | .sourceElements _ nodes => formedAll x nodes
  | .exprStatement expr => signed expr
  | .print expr => signed expr
  | .ifElse condition yes no => signed condition && formed x yes && formed x no
  | .whileLoop condition body => signed condition && formed ⟨true, true⟩ body
  | .forLoop setup condition update body =>
    signed setup && signed condition && signed update && formed ⟨true, true⟩ body
  | .foreachLoop subject _ _ body => signed subject && formed ⟨true, x.next⟩ body
  | .block nodes => formedAll x nodes
  | .returnValue expr => signed expr
  | .breakLoop count => x.loop && count.isAbsent
  | .continueLoop count => x.loop && x.next && count.isAbsent
  | _ => true

def formedAll (x : Around) : List Node → Bool
  | [] => true
  | node :: nodes => formed x node && formedAll x nodes

end

mutual

/-- The innermost loop around every `break` and `continue` is of a kind that
may be left. -/
def leavesOnly (allowed : LoopKind → Bool) (loop : Option LoopKind) : Node → Bool
  | .program body _ => leavesOnly allowed none body
  | .function _ body _ => leavesOnly allowed none body
  | .sourceElements functions nodes =>
    leavesOnlyAll allowed none functions && leavesOnlyAll allowed none nodes
  | .ifElse _ yes no => leavesOnly allowed loop yes && leavesOnly allowed loop no
  | .whileLoop _ body => leavesOnly allowed (some .whileLoop) body
  | .forLoop _ _ _ body => leavesOnly allowed (some .forLoop) body
  | .foreachLoop _ _ _ body => leavesOnly allowed (some .foreachLoop) body
  | .block nodes => leavesOnlyAll allowed loop nodes
  | .breakLoop _ => loop.all allowed
  | .continueLoop _ => loop.all allowed
  | _ => true

def leavesOnlyAll (allowed : LoopKind → Bool) (loop : Option LoopKind) : List Node → Bool
  | [] => true
  | node :: nodes => leavesOnly allowed loop node && leavesOnlyAll allowed loop nodes

end

end Node

attribute [local simp] Node.signed Node.signedAll Node.formed Node.formedAll Node.leavesOnly
  Node.leavesOnlyAll

namespace Node

theorem leavesOnlyAll_iff :
    leavesOnlyAll allowed loop nodes = true ↔ ∀ n ∈ nodes, n.leavesOnly allowed loop = true := by
  induction nodes with
  | nil => simp
  | cons node nodes ih => simp [ih]

theorem IsStatement.leavesOnly_any {node : Node}
    (h : IsStatement globals node) : node.leavesOnly (fun _ => true) loop = true := by
  induction h generalizing loop with
  | ifThen _ _ ih => simp [ih]
  | ifElse _ _ _ ihy ihn => simp [ihy, ihn]
  | whileLoop _ _ ih | forLoop _ _ _ _ ih | foreachLoop _ _ _ _ ih => simp [ih]
  | block _ ihs => simpa [leavesOnlyAll_iff] using fun n hn => ihs n hn
  | breakLoop | continueLoop => cases loop <;> rfl
  | _ => rfl

theorem IsBody.leavesOnly_any (h : IsBody globals body) :
    body.leavesOnly (fun _ => true) none = true := by
  induction h with
  | nothing => rfl
  | elements hfunctions _ hnodes ih =>
    simp only [leavesOnly, Bool.and_eq_true, leavesOnlyAll_iff]
    refine ⟨fun f hf => ?_, fun n hn => (hnodes n hn).leavesOnly_any⟩
    obtain ⟨name, g, scope, rfl⟩ := hfunctions f hf
    exact ih name g scope hf

theorem signedAll_iff : signedAll nodes = true ↔ ∀ n ∈ nodes, n.signed = true := by
  induction nodes with
  | nil => simp
  | cons node nodes ih => simp [ih]

theorem formedAll_iff {x : Around} : formedAll x nodes = true ↔ ∀ n ∈ nodes, n.formed x = true := by
  induction nodes with
  | nil => simp
  | cons node nodes ih => simp [ih]

end Node

/-! ### Plans that are accepted -/

namespace Plan

variable {p q : Plan} {P Q : Prop}

/-- Nothing that the plan comes to is refused just if `P` holds, whichever labels are free. -/
def Accepts (p : Plan) (P : Prop) : Prop :=
  ∀ n, (∃ items, emitted (p n).1 = .ok items) ↔ P

namespace Accepts

theorem of_iff (h : p.Accepts P) (hPQ : P ↔ Q) : p.Accepts Q :=
  fun n => (h n).trans hPQ

theorem stop {s : Stop} (h : (∃ items, s.outcome = .ok items) ↔ P) : (Plan.stop s).Accepts P := by
  intro n
  rw [← h, Plan.stop, emitted]
  cases s.outcome <;> simp [emitted, bind, Except.bind, pure, Except.pure]

theorem nothing : Plan.nothing.Accepts True :=
  fun _ => ⟨fun _ => trivial, fun _ => ⟨[], rfl⟩⟩

theorem emit {i : Instr Int Bytecode} : (Plan.emit i).Accepts True :=
  .stop (by simp [Stop.outcome])

theorem refuse {fault : Fault} : (Plan.refuse fault).Accepts False :=
  .stop (by simp [Stop.outcome])

theorem append (hp : p.Accepts P) (hq : q.Accepts Q) : (p ++ q).Accepts (P ∧ Q) := by
  intro n
  rw [← hp n, ← hq (p n).2]
  show (∃ items, emitted ((p n).1 ++ (q (p n).2).1) = .ok items) ↔ _
  rw [emitted_append]
  cases emitted (p n).1 <;> cases emitted (q (p n).2).1 <;>
    simp [bind, Except.bind, Except.map]

theorem before (hp : p.Accepts True) (hq : q.Accepts Q) : (p ++ q).Accepts Q :=
  (hp.append hq).of_iff (by simp)

theorem andThen (hp : p.Accepts P) (hq : q.Accepts True) : (p ++ q).Accepts P :=
  (hp.append hq).of_iff (by simp)

theorem fresh {f : Int → Plan} (h : ∀ n, (f n).Accepts P) : (Plan.fresh f).Accepts P :=
  fun n => h n (n + 1)

theorem mark {n : Int} : (Plan.mark n).Accepts True :=
  .stop (by simp [Stop.outcome])

theorem label {n : Int} : (Plan.label n).Accepts True := by
  unfold Plan.label
  split
  · exact .fresh fun _ => .mark
  · exact .mark

theorem emitWhen {condition : Bool} {i : Instr Int Bytecode} :
    (Plan.emitWhen condition i).Accepts True := by
  cases condition with
  | true => exact .emit
  | false => exact .nothing

theorem shortCircuit {kind : Jump} (hp : p.Accepts P) (hq : q.Accepts Q) :
    (Plan.shortCircuit kind p q).Accepts (P ∧ Q) :=
  hp.append (.fresh fun _ => .before .emit (hq.andThen .label))

theorem run_iff {x : Emit Unit} (h : p.Accepts P) (hx : Emit.Follows {} {} x p) :
    (∃ a, x.run {} = .ok () a) ↔ P := by
  have hrun := hx.run_eq
  rw [← h ({} : Assembler).nextLabel]
  rw [Emit.outcome] at hrun
  cases hresult : x.run {} <;> cases hitems : emitted (p ({} : Assembler).nextLabel).1 <;>
    rw [hresult, hitems] at hrun <;> cases hrun <;> simp

end Accepts

end Plan

namespace Node

open Plan (Accepts)

variable {scopes : Nat → Scope} {p : Plan} {P Q : Prop} {y : Aims} {node base : Node}
  {nodes : List Node}

theorem accepts_argument (h : p.Accepts (node.signed = true)) :
    (Plan.argument node p).Accepts (node.signed = true) := by
  cases node with
  | «variable» name slot => exact Accepts.emit.of_iff (by simp)
  | _ => exact h

theorem accepts_planArguments (h : ∀ n ∈ nodes, (plan scopes y n).Accepts (n.signed = true)) :
    (planArguments scopes y nodes).Accepts (∀ n ∈ nodes, n.signed = true) := by
  induction nodes with
  | nil => exact Accepts.nothing.of_iff (by simp)
  | cons node nodes ih =>
    rw [List.forall_mem_cons] at h ⊢
    exact (accepts_argument h.1).append (ih h.2)

section

variable {P : Node → Prop} (h : ∀ n ∈ nodes, (plan scopes y n).Accepts (P n))

include h

theorem accepts_planAll : (planAll scopes y nodes).Accepts (∀ n ∈ nodes, P n) := by
  induction nodes with
  | nil => exact Accepts.nothing.of_iff (by simp)
  | cons node nodes ih =>
    rw [List.forall_mem_cons] at h ⊢
    exact h.1.append (ih h.2)

theorem accepts_planBlock : (planBlock scopes y nodes).Accepts (∀ n ∈ nodes, P n) := by
  induction nodes with
  | nil => exact Accepts.emit.of_iff (by simp)
  | cons node nodes ih =>
    rw [List.forall_mem_cons] at h ⊢
    cases nodes with
    | nil => exact h.1.of_iff (by simp)
    | cons next nodes => exact h.1.append (.before .emit (ih h.2))

theorem accepts_planBody : (planBody scopes y nodes).Accepts (∀ n ∈ nodes, P n) := by
  induction nodes with
  | nil => exact Accepts.emit.of_iff (by simp)
  | cons node nodes ih =>
    rw [List.forall_mem_cons] at h ⊢
    cases nodes with
    | nil => exact (h.1.andThen .emitWhen).of_iff (by simp)
    | cons next nodes => exact h.1.append (.before .emitWhen (ih h.2))

end

/-! ### Expressions -/

theorem accepts_element {direct : Int → String → Instr Int Bytecode} {other : Instr Int Bytecode}
    (h : p.Accepts (base.signed = true)) :
    (Plan.element direct other base p).Accepts (base.signed = true) := by
  cases base with
  | «variable» name slot => exact Accepts.emit.of_iff (by simp)
  | _ => exact h.andThen .emit

theorem accepts_operation (h : operator ≠ "=") :
    (Plan.operation operator).Accepts (isSign operator = true) := by
  unfold Plan.operation
  cases hoperation : (operation? operator : Option (Instr Int Bytecode)) with
  | some i =>
    refine Accepts.emit.of_iff ⟨fun _ => ?_, fun _ => trivial⟩
    unfold operation? at hoperation
    split at hoperation <;> first | decide | cases hoperation
  | none =>
    refine Accepts.refuse.of_iff ⟨False.elim, fun hsign => ?_⟩
    unfold operation? at hoperation
    split at hoperation
    case h_6 => simp_all [isSign, assignmentSigns, stepSigns]
    all_goals cases hoperation

/-- An assignment, whose right side stands between a load and a store. -/
theorem accepts_assigning {load store right : Plan} {R S : Prop} (hload : load.Accepts R)
    (hright : right.Accepts P) (hstore : store.Accepts S) (hR : S → R) :
    ((if operator = "=" then right else load ++ right ++ Plan.operation operator) ++ store).Accepts
      (isSign operator = true ∧ P ∧ S) := by
  split
  case isTrue h =>
    refine (hright.append hstore).of_iff ?_
    simp [h, isSign, assignmentSigns]
  case isFalse h =>
    refine (((hload.append hright).append (accepts_operation h)).append hstore).of_iff ?_
    tauto

theorem accepts_assignment {slot : Int} {post : Bool}
    (h : (plan scopes y right).Accepts (right.signed = true)) :
    (plan scopes y (.assignment name slot right operator post)).Accepts
      (signed (.assignment name slot right operator post) = true) := by
  rw [plan, Plan.append_assoc]
  refine (accepts_assigning (.before .emit .emitWhen) h (.before .emit .emitWhen) id).of_iff ?_
  simp

theorem accepts_memberAssignment {index : Node} {post : Bool}
    (hright : (plan scopes y right).Accepts (right.signed = true))
    (hindex : (plan scopes y index).Accepts (index.signed = true))
    (hbase : (plan scopes y base).Accepts (base.signed = true)) :
    (plan scopes y (.memberAssignment base index right operator post)).Accepts
      (signed (.memberAssignment base index right operator post) = true) := by
  rw [plan, Plan.append_assoc, Plan.append_assoc]
  refine (accepts_assigning ((hindex.append (accepts_element hbase)).andThen .emitWhen) hright
    (hindex.append ((accepts_element hbase).andThen .emitWhen)) id).of_iff ?_
  simp [and_assoc]

theorem accepts_orNull (h : node ≠ .absent → p.Accepts P) (habsent : node = .absent → P) :
    (Plan.orNull node p).Accepts P := by
  cases node with
  | absent => exact Accepts.emit.of_iff ⟨fun _ => habsent rfl, fun _ => trivial⟩
  | _ => exact h (by rintro ⟨⟩)

theorem accepts_ifElse {yes no : Node} {R : Prop} (hcondition : (plan scopes y condition).Accepts P)
    (hyes : (plan scopes y yes).Accepts Q)
    (hno : (Plan.orNull no (plan scopes y no)).Accepts R) :
    (plan scopes y (.ifElse condition yes no)).Accepts (P ∧ Q ∧ R) := by
  refine hcondition.append (.fresh fun _ => .fresh fun _ => ?_)
  exact (((((Accepts.before .emit hyes).andThen .emit).andThen .label).append hno).andThen .label)

theorem IsExpression.accepts (h : IsExpression node) (y : Aims) :
    (plan scopes y node).Accepts (node.signed = true) := by
  induction h with
  | interpolation hparts =>
    have hall : (planAll scopes y _).Accepts _ := accepts_planAll fun n hn =>
      (show (plan scopes y n).Accepts True by
        have := hparts n hn
        cases n <;> first | exact .emit | cases this)
    exact (hall.append (.before .emit .emit)).of_iff (by simp)
  | array _ ihs => exact ((accepts_planAll ihs).andThen .emit).of_iff (by simp [signedAll_iff])
  | call _ _ ihs ih =>
    exact ((accepts_planArguments ihs).append (ih.andThen .emit)).of_iff (by simp [signedAll_iff])
  | member _ _ ihi ihb => exact (ihi.append (accepts_element ihb)).of_iff (by simp)
  | assignment _ _ ih => exact accepts_assignment ih
  | step _ => exact accepts_assignment (Accepts.nothing.of_iff (by simp))
  | memberAssignment _ _ _ _ ihr ihi ihb => exact accepts_memberAssignment ihr ihi ihb
  | memberStep _ _ _ ihi ihb =>
    exact accepts_memberAssignment (Accepts.nothing.of_iff (by simp)) ihi ihb
  | conditional _ _ hno ihc ihy ihn =>
    refine (accepts_ifElse ihc ihy (accepts_orNull (fun _ => ihn) fun h => ?_)).of_iff ?_
    · exact absurd h hno.present
    · simp [and_assoc]
  | binary _ _ ihl ihr => exact (ihl.append (ihr.andThen .emit)).of_iff (by simp)
  | not _ ih => exact (ih.andThen .emit).of_iff (by simp)
  | both _ _ ihl ihr | either _ _ ihl ihr => exact (ihl.shortCircuit ihr).of_iff (by simp)
  | _ => exact Accepts.emit.of_iff (by simp)

/-! ### Statements -/

section

variable {x : Around} {globals : Bool}

theorem accepts_noCount (count : Node) : (Plan.noCount count).Accepts (count.isAbsent = true) := by
  cases count with
  | absent => exact Accepts.nothing.of_iff (by simp [isAbsent])
  | _ => exact Accepts.refuse.of_iff (by simp [isAbsent])

theorem accepts_target {target : Node} (h : target.isVariable) :
    (Plan.target target).Accepts True := by
  cases target with
  | «variable» name slot => exact .before .emit .emit
  | _ => cases h

theorem accepts_key {key : Node} (h : key.isAbsent ∨ key.isVariable) :
    (Plan.key key).Accepts True := by
  cases key with
  | absent => exact .emit
  | _ => exact accepts_target (h.resolve_left Bool.false_ne_true)

theorem IsStatement.accepts (h : IsStatement globals node) (hx : y.Opens x) :
    (plan scopes y node).Accepts (node.formed x = true) := by
  induction h generalizing x y with
  | exprStatement hexpr => exact hexpr.accepts y
  | print hexpr => exact ((hexpr.accepts y).andThen .emit).of_iff (by simp)
  | ifThen hcondition _ ih =>
    exact (accepts_ifElse (hcondition.accepts y) (ih hx) (accepts_orNull (P := True) (by simp)
      (by simp))).of_iff (by simp)
  | ifElse hcondition _ hno ihy ihn =>
    have hno := accepts_orNull (fun _ => ihn hx) fun h => absurd h hno.present
    exact (accepts_ifElse (hcondition.accepts y) (ihy hx) hno).of_iff (by simp [and_assoc])
  | whileLoop hcondition _ ih =>
    refine (Accepts.before .emit (.fresh fun _ => (Accepts.before .mark (hcondition.accepts _)).append
      (.fresh fun _ => (((Accepts.before .emit (ih (x := ⟨true, true⟩) ⟨rfl, rfl, rfl⟩)).andThen
        .emit).andThen .emit).andThen .label))).of_iff ?_
    simp
  | forLoop hsetup hcondition hupdate _ ih =>
    refine ((((hsetup.accepts y).andThen .emit).andThen .emit).append (.fresh fun _ => .before .mark
      (.fresh fun _ => .fresh fun _ => ((((((((hcondition.accepts _).andThen .emit).andThen
        .emit).append (ih (x := ⟨true, true⟩) ⟨rfl, rfl, rfl⟩)).andThen .label).append
        (hupdate.accepts _)).andThen .emit).andThen .emit).andThen .label))).of_iff ?_
    simp only [formed, Bool.and_eq_true]
    tauto
  | foreachLoop hsubject hkey hvalue _ ih =>
    have hbody finish : (plan scopes ⟨some finish, true, some finish, y.next⟩ _).Accepts _ :=
      ih (x := ⟨true, x.next⟩) ⟨rfl, rfl, hx.next⟩
    refine ((((hsubject.accepts y).andThen .emit).andThen .emit).append (.fresh fun _ =>
      .before .mark (.fresh fun finish => (((((Accepts.before .emit .emit).before
        (accepts_key hkey)).before (accepts_target hvalue)).before (hbody finish)).andThen
        .emit).andThen .label))).of_iff ?_
    simp
  | block _ ihs =>
    exact (accepts_planBlock fun n hn => ihs n hn hx).of_iff (by simp [formedAll_iff])
  | @breakLoop count =>
    have hleave : (Plan.stop (.leave y.loop y.finish)).Accepts (x.loop = true) := .stop <| by
      rw [← hx.finish]
      cases y.finish <;> simp [Stop.outcome]
    exact ((accepts_noCount count).append (.before .emit hleave)).of_iff (by simp [and_comm])
  | @continueLoop count =>
    have hgoOn : (Plan.stop (.goOn y.loop y.started y.next)).Accepts
        (x.loop = true ∧ x.next = true) := .stop <| by
      rw [← hx.started, ← hx.next]
      cases y.started <;> cases y.next <;> simp [Stop.outcome]
    exact ((accepts_noCount count).append (.before .emit hgoOn)).of_iff (by simp [and_comm])
  | returnNothing => exact (Accepts.before .emit .emit).of_iff (by simp)
  | returnValue hexpr =>
    refine ((accepts_orNull (fun _ => hexpr.accepts y) fun h => ?_).andThen .emit).of_iff (by simp)
    exact absurd h hexpr.present
  | global _ => exact Accepts.nothing.of_iff (by simp)

end

/-! ### Bodies -/

theorem accepts_function {scope : Nat} :
    (plan scopes y (.function name body scope)).Accepts
      (∃ b, assembleBody name (scopes scope) (compile scopes body) = .ok b) := by
  intro n
  rw [(compile_follows scopes .start body).assembleBody_eq, plan, Plan.declare]
  simp only [emitted_append, emitted_inner]
  cases emitted (plan scopes {} body ({} : Assembler).nextLabel).1 with
  | error fault => simp [bind, Except.bind, Except.map]
  | ok items =>
    cases hcode : Bytecode.assemble name (scopes scope) items <;>
      simp [emitted, Stop.outcome, bind, Except.bind, Except.map, pure, Except.pure, hcode]

theorem IsBody.accepts {functions : List Node}
    (h : IsBody globals (.sourceElements functions nodes)) :
    (plan scopes {} (.sourceElements functions nodes)).Accepts
      ((∀ name body scope, .function name body scope ∈ functions →
          ∃ b, assembleBody name (scopes scope) (compile scopes body) = .ok b) ∧
        formed {} (.sourceElements functions nodes) = true) := by
  cases h with
  | elements hfunctions _ hnodes =>
    have hdeclared : (planAll scopes {} functions).Accepts (∀ f ∈ functions,
        ∀ name body scope, f = .function name body scope →
          ∃ b, assembleBody name (scopes scope) (compile scopes body) = .ok b) := by
      refine accepts_planAll fun f hf => ?_
      obtain ⟨name, body, scope, rfl⟩ := hfunctions f hf
      refine accepts_function.of_iff ⟨?_, fun h => h name body scope rfl⟩
      rintro hb _ _ _ ⟨⟩
      exact hb
    have hstatements : (planBody scopes {} nodes).Accepts (∀ n ∈ nodes, n.formed {} = true) :=
      accepts_planBody fun n hn => (hnodes n hn).accepts ⟨rfl, rfl, rfl⟩
    refine (hdeclared.append hstatements).of_iff ?_
    rw [formed, formedAll_iff]
    refine and_congr_left fun _ => ⟨fun h name body scope hmem => h _ hmem name body scope rfl, ?_⟩
    rintro h _ hmem name body scope rfl
    exact h name body scope hmem

def Estimated (scopes : Nat → Scope) (body : Node) : Prop :=
  ∃ size, Bytecode.stackEstimate 0 0 (Bytecode.dropReturns false
    ((body.layout scopes 0 0 {}).map Line.instr)) = .ok size

/-- A body becomes code if it is formed as it should be and the stack it needs
can be estimated, and the same holds for all functions in it. -/
theorem IsBody.assembles_iff (h : IsBody globals body) (name : String) (scope : Scope) :
    (∃ b, assembleBody name scope (compile scopes body) = .ok b) ↔
      ∀ f, body.HasBody f → f.formed {} = true ∧ Estimated scopes f := by
  induction h generalizing name scope with
  | nothing =>
    have haccepts : (plan scopes {} (.returnValue .absent)).Accepts True := .before .emit .emit
    rw [Node.assembles_iff, haccepts.run_iff (compile_follows scopes .start _)]
    constructor
    · rintro ⟨-, hestimated⟩ f ⟨⟩
      exact ⟨rfl, hestimated⟩
    · exact fun hall => ⟨trivial, (hall _ .own).2⟩
  | @elements functions nodes hfunctions hbodies hnodes ih =>
    rw [Node.assembles_iff, (IsBody.accepts (.elements hfunctions hbodies hnodes)).run_iff
      (compile_follows scopes .start _)]
    constructor
    · rintro ⟨⟨hdeclared, hformed⟩, hestimated⟩ f hf
      cases hf with
      | own => exact ⟨hformed, hestimated⟩
      | declared hmem hf => exact (ih _ _ _ hmem _ _).1 (hdeclared _ _ _ hmem) f hf
    · intro hall
      refine ⟨⟨fun name f scope hmem => ?_, (hall _ .own).1⟩, (hall _ .own).2⟩
      exact (ih _ _ _ hmem _ _).2 fun g hg => hall g (.declared hmem hg)

/-! ### What is accepted is tidy -/

end Node

theorem Script.compiles_iff (s : Script) {scope : Nat}
    (hroot : s.root = .program body scope) (hbody : body.IsBody globals) :
    (∃ b, s.compile name = .ok b) ↔
      ∀ f, body.HasBody f → f.formed {} = true ∧ f.Estimated s.scope := by
  rw [← hbody.assembles_iff name (s.scope scope), Script.compile, Script.ownScope, hroot]
  rfl

/-- Every statement may stand anywhere, but `global` inside other statements
only if it is said so, and `break` and `continue` only in loops that may be
left. -/
def Rules.leaving (globals : Bool) (allowed : LoopKind → Bool) : Rules where
  returns := true
  globals := globals
  leaves := allowed

/-- Every statement may stand anywhere, but `global` inside other statements
only if it is said so. -/
def Rules.grammatical (globals : Bool) : Rules where
  returns := true
  globals := globals
  leaves _ := true

namespace Node

section

variable {r : Rules} {p : Place} {globals : Bool} {x : Around} {node body : Node}

theorem mem_assignmentSigns (h : isSign operator = true)
    (hstep : operator ∉ stepSigns) : operator ∈ assignmentSigns := by
  rw [isSign, List.contains_iff_mem, List.mem_append] at h
  exact h.resolve_right hstep

theorem IsExpression.tidy (h : IsExpression node) (hsigned : node.signed = true) (p : Place) :
    Tidy r p node := by
  induction h generalizing p with
  | identifier => exact .identifier
  | namedConstant => exact .namedConstant
  | constantInt => exact .constantInt
  | constantFloat => exact .constantFloat
  | constantText => exact .constantText
  | boolean => exact .boolean
  | null => exact .null
  | «variable» => exact .variable
  | emptyExpression => exact .emptyExpression
  | interpolation hparts =>
    refine .interpolation fun n hn => ?_
    have := hparts n hn
    cases n <;> first | exact .variable | cases this
  | array _ ihs => exact .array fun n hn => ihs n hn (signedAll_iff.1 hsigned n hn) _
  | call _ _ ihs ih =>
    simp only [signed, Bool.and_eq_true, signedAll_iff] at hsigned
    exact .call (fun n hn => ihs n hn (hsigned.1 n hn) _) (ih hsigned.2 _)
  | member _ _ ihi ihb =>
    simp only [signed, Bool.and_eq_true] at hsigned
    exact .member (ihi hsigned.1 _) (ihb hsigned.2 _)
  | assignment hstep _ ih =>
    simp only [signed, Bool.and_eq_true] at hsigned
    exact .assignment (mem_assignmentSigns hsigned.1 hstep) (fun _ => rfl) (ih hsigned.2 _)
  | step hstep => exact .step hstep
  | memberAssignment hstep _ _ _ ihr ihi ihb =>
    simp only [signed, Bool.and_eq_true] at hsigned
    exact .memberAssignment (mem_assignmentSigns hsigned.1.1.1 hstep) (fun _ => rfl)
      (ihr hsigned.1.1.2 _) (ihi hsigned.1.2 _) (ihb hsigned.2 _)
  | memberStep hstep _ _ ihi ihb =>
    simp only [signed, Bool.and_eq_true] at hsigned
    exact .memberStep hstep (ihi hsigned.1.2 _) (ihb hsigned.2 _)
  | conditional _ _ _ ihc ihy ihn =>
    simp only [signed, Bool.and_eq_true] at hsigned
    exact .ifElse (ihc hsigned.1.1 _) (ihy hsigned.1.2 _) (ihn hsigned.2 _)
  | binary _ _ ihl ihr =>
    simp only [signed, Bool.and_eq_true] at hsigned
    exact .binary (ihl hsigned.1 _) (ihr hsigned.2 _)
  | not _ ih => exact .not (ih hsigned _)
  | both _ _ ihl ihr =>
    simp only [signed, Bool.and_eq_true] at hsigned
    exact .both (ihl hsigned.1 _) (ihr hsigned.2 _)
  | either _ _ ihl ihr =>
    simp only [signed, Bool.and_eq_true] at hsigned
    exact .either (ihl hsigned.1 _) (ihr hsigned.2 _)

theorem IsStatement.tidyLeaving (h : IsStatement globals node)
    (hformed : node.formed x = true) (hloop : loop.isSome = x.loop)
    (hleaves : node.leavesOnly allowed loop = true) :
    Tidy (.leaving globals allowed) (.statement loop) node := by
  induction h generalizing x loop with
  | exprStatement hexpr => exact .exprStatement (hexpr.tidy hformed _)
  | print hexpr => exact .print (hexpr.tidy hformed _)
  | ifThen hcondition _ ih =>
    simp only [formed, leavesOnly, Bool.and_eq_true] at hformed hleaves
    exact .ifThen (hcondition.tidy hformed.1.1 _) (ih hformed.1.2 hloop hleaves.1)
  | ifElse hcondition _ _ ihy ihn =>
    simp only [formed, leavesOnly, Bool.and_eq_true] at hformed hleaves
    exact .ifElse (hcondition.tidy hformed.1.1 _) (ihy hformed.1.2 hloop hleaves.1)
      (ihn hformed.2 hloop hleaves.2)
  | whileLoop hcondition _ ih =>
    simp only [formed, leavesOnly, Bool.and_eq_true] at hformed hleaves
    exact .whileLoop (hcondition.tidy hformed.1 _) (ih hformed.2 rfl hleaves)
  | forLoop hsetup hcondition hupdate _ ih =>
    simp only [formed, leavesOnly, Bool.and_eq_true] at hformed hleaves
    exact .forLoop (hsetup.tidy hformed.1.1.1 _) (hcondition.tidy hformed.1.1.2 _)
      (hupdate.tidy hformed.1.2 _) (ih hformed.2 rfl hleaves)
  | foreachLoop hsubject hkey hvalue _ ih =>
    simp only [formed, leavesOnly, Bool.and_eq_true] at hformed hleaves
    exact .foreachLoop (hsubject.tidy hformed.1 _) hkey hvalue (ih hformed.2 rfl hleaves)
  | block _ ihs =>
    exact .block fun n hn =>
      ihs n hn (formedAll_iff.1 hformed n hn) hloop (leavesOnlyAll_iff.1 hleaves n hn)
  | breakLoop =>
    simp only [formed, Bool.and_eq_true] at hformed
    obtain ⟨kind, rfl⟩ := Option.isSome_iff_exists.1 (hloop.trans hformed.1)
    exact .breakLoop hleaves
  | continueLoop =>
    simp only [formed, Bool.and_eq_true] at hformed
    obtain ⟨kind, rfl⟩ := Option.isSome_iff_exists.1 (hloop.trans hformed.1.1)
    exact .continueLoop hleaves
  | returnNothing => exact .returnNothing rfl
  | returnValue hexpr => exact .returnValue rfl (hexpr.tidy hformed _)
  | global hglobals => exact .global hglobals

theorem IsStatement.tidy (h : IsStatement globals node) (hformed : node.formed x = true)
    (hloop : loop.isSome = x.loop) :
    Tidy (.grammatical globals) (.statement loop) node :=
  h.tidyLeaving hformed hloop h.leavesOnly_any

theorem IsBody.tidyLeaving (h : IsBody globals body)
    (hformed : ∀ f, body.HasBody f → f.formed {} = true)
    (hleaves : body.leavesOnly allowed none = true) : TidyBody (.leaving globals allowed) body := by
  induction h with
  | elements hfunctions _ hnodes ih =>
    simp only [leavesOnly, Bool.and_eq_true, leavesOnlyAll_iff] at hleaves
    refine .elements hfunctions (fun name f scope hf => ?_) fun n hn => .statement ?_
    · have hbody : (Node.function name f scope).leavesOnly allowed none = true := hleaves.1 _ hf
      rw [leavesOnly] at hbody
      exact ih name f scope hf (fun g hg => hformed g (.declared hf hg)) hbody
    · exact (hnodes n hn).tidyLeaving (formedAll_iff.1 (hformed _ .own) n hn) rfl (hleaves.2 n hn)
  | nothing => exact .nothing

theorem IsBody.tidy (h : IsBody globals body)
    (hformed : ∀ f, body.HasBody f → f.formed {} = true) : TidyBody (.grammatical globals) body :=
  h.tidyLeaving hformed h.leavesOnly_any

end

end Node

end PageScript
