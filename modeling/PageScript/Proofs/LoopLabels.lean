/-
Labels of loops.

While a node is compiled the assembler keeps the labels of the open loops on stacks, and
`break` and `continue` look only at these.  A plan knows besides in the body of which loop
each of them stands.  For a node with `break` and `continue` in proper places
(`Node.orderly`) the two agree at every stop (`Node.plan_agrees`):

* the stacks are left as they were,
* every `break` becomes a jump to the end of the innermost loop whose body it is in,
* a body is refused for a `break` or `continue` outside of loops if compiling it comes to
  one that no loop of the function has in its body, and only then.
-/
import PageScript.Proofs.Accepted

namespace PageScript

open Plan

namespace Node

mutual

/-- Every `break` and `continue` is without a count and in no header of a loop, unless in a
loop or function of its own there. -/
def orderly (header : Bool) : Node → Bool
  | .sourceElements functions nodes => orderlyAll header functions && orderlyAll header nodes
  | .program body _ => orderly header body
  | .exprStatement expr => orderly header expr
  | .function _ body _ => orderly false body
  | .call callee arguments => orderly header arguments && orderly header callee
  | .argumentList nodes => orderlyAll header nodes
  | .array nodes => orderlyAll header nodes
  | .member base index => orderly header index && orderly header base
  | .interpolation _ parts _ => orderlyAll header parts
  | .assignment _ _ right _ _ => orderly header right
  | .memberAssignment base index right _ _ =>
    orderly header index && orderly header base && orderly header right
  | .breakLoop count => !header && count.isAbsent
  | .continueLoop count => !header && count.isAbsent
  | .ifElse condition yes no => orderly header condition && orderly header yes && orderly header no
  | .whileLoop condition body => orderly true condition && orderly false body
  | .forLoop setup condition update body =>
    orderly true setup && orderly true condition && orderly true update && orderly false body
  | .foreachLoop subject _ _ body => orderly true subject && orderly false body
  | .print expr => orderly header expr
  | .returnValue expr => orderly header expr
  | .block nodes => orderlyAll header nodes
  | .binary _ left right => orderly header left && orderly header right
  | .not expr => orderly header expr
  | .both left right => orderly header left && orderly header right
  | .either left right => orderly header left && orderly header right
  | _ => true

def orderlyAll (header : Bool) : List Node → Bool
  | [] => true
  | node :: nodes => orderly header node && orderlyAll header nodes

end

end Node

/-! ### Stops that agree with the loops around them -/

/-- The labels of open loops are those of the loop whose body this is in.  For `continue`
this is asked only if `both` says so, as the stacks of a state may differ. -/
def Aims.Agree (both : Bool) (x : Aims) : Prop :=
  x.finish = x.loop ∧ (both = true → x.started = x.loop.isSome)

/-- A stop goes where the loops around it say. -/
def Stop.Agrees (both : Bool) : Stop → Prop
  | .item _ => True
  | .leave loop finish => finish = loop
  | .goOn loop started _ => both = true → started = loop.isSome
  | .refusal fault => ∀ c, fault = .complaint c → c = .foreachTarget
  | .inner s => s.Agrees both

namespace Plan

/-- All stops of a plan do. -/
def Agrees (both : Bool) (p : Plan) : Prop := ∀ n, ∀ s ∈ (p n).1, s.Agrees both

namespace Agrees

variable {both : Bool} {p q : Plan} {f : Int → Plan} {s : Stop} {i : Instr Int Bytecode} {n : Int}
  {node : Node}

theorem stop (h : s.Agrees both) : (stop s).Agrees both := by
  intro n t ht
  cases List.mem_singleton.1 ht
  exact h

theorem nothing : nothing.Agrees both := fun _ s hs => by cases hs

theorem emit : (emit i).Agrees both := .stop trivial

theorem mark : (mark n).Agrees both := .stop trivial

theorem refuse {fault : Fault} (h : ∀ c, fault = .complaint c → c = .foreachTarget) :
    (refuse fault).Agrees both := .stop h

theorem append (hp : p.Agrees both) (hq : q.Agrees both) : (p ++ q).Agrees both := by
  intro n s hs
  rcases List.mem_append.1 hs with hs | hs
  · exact hp n s hs
  · exact hq _ s hs

theorem fresh (h : ∀ n, (f n).Agrees both) : (fresh f).Agrees both := fun n => h n (n + 1)

theorem label : (label n).Agrees both := by
  unfold Plan.label
  split
  · exact .fresh fun _ => .mark
  · exact .mark

theorem target : (target node).Agrees both := by
  unfold Plan.target
  split
  · exact .append .emit .emit
  · exact .refuse fun _ h => (Fault.complaint.inj h).symm

theorem key : (key node).Agrees both := by
  unfold Plan.key
  split
  · exact .emit
  · exact .target

theorem emitWhen {condition : Bool} : (emitWhen condition i).Agrees both := by
  cases condition with
  | true => exact .emit
  | false => exact .nothing

theorem operation {operator : String} : (operation operator).Agrees both := by
  unfold Plan.operation
  split
  · exact .emit
  · exact .refuse fun _ h => by cases h

theorem noCount (h : node.isAbsent) : (noCount node).Agrees both := by
  cases node with
  | absent => exact .nothing
  | _ => cases h

theorem element {direct : Int → String → Instr Int Bytecode} (h : p.Agrees both) :
    (element direct i node p).Agrees both := by
  unfold Plan.element
  split
  · exact .emit
  · exact h.append .emit

theorem orNull (h : p.Agrees both) : (orNull node p).Agrees both := by
  unfold Plan.orNull
  split
  · exact .emit
  · exact h

theorem argument (h : p.Agrees both) : (argument node p).Agrees both := by
  unfold Plan.argument
  split
  · exact .emit
  · exact h

theorem call : (call node).Agrees both := by
  unfold Plan.call
  split
  · exact .emit
  · exact .refuse fun _ h => by cases h

end Agrees

end Plan

/-! ### Code that is put together -/

/-- It does not fail with a complaint. -/
def NoComplaint {α : Type} (x : Except Fault α) : Prop := ∀ c, x ≠ .error (.complaint c)

theorem NoComplaint.bind {α β : Type} {x : Except Fault α} {f : α → Except Fault β}
    (hx : NoComplaint x) (hf : ∀ a, NoComplaint (f a)) : NoComplaint (x >>= f) := by
  cases x with
  | error fault =>
    rintro c ⟨⟩
    exact hx c rfl
  | ok a => exact hf a

theorem Item.relocate_noComplaint (table : List (Int × Nat)) (items : List Item) :
    NoComplaint (relocate table items) := by
  induction items with
  | nil => exact fun _ h => by cases h
  | cons item items ih =>
    cases item with
    | label n => exact ih
    | instr i =>
      have hi : NoComplaint (i.retarget (position table)) := by
        cases i with
        | jump kind n =>
          cases h : table.lookup n <;> simp [NoComplaint, Instr.retarget, position, h, Except.map]
        | _ => exact fun _ h => by cases h
      exact hi.bind fun _ => ih.bind fun _ _ h => by cases h

theorem Bytecode.stackEstimate_noComplaint (depth greatest : Int) (is : List (Instr Nat Bytecode)) :
    NoComplaint (stackEstimate depth greatest is) := by
  induction is generalizing depth greatest with
  | nil => exact fun _ h => by cases h
  | cons i is ih =>
    dsimp only [stackEstimate]
    split
    · exact fun _ h => by cases h
    · exact ih _ _

theorem Bytecode.assemble_noComplaint (name : String) (scope : Scope) (items : List Item) :
    NoComplaint (assemble name scope items) :=
  (Item.relocate_noComplaint _ _).bind fun _ => (stackEstimate_noComplaint _ _ _).bind
    fun _ _ h => by cases h

theorem Plan.Agrees.declare {both : Bool} {p : Plan} (h : p.Agrees both) (name : String)
    (scope : Scope) : (declare name scope p).Agrees both := by
  intro n s hs
  rcases List.mem_append.1 hs with hs | hs
  · obtain ⟨t, ht, rfl⟩ := List.mem_map.1 hs
    exact h _ t ht
  · cases hitems : emitted (p ({} : Assembler).nextLabel).1 with
    | error fault => simp [hitems] at hs
    | ok items =>
      cases hcode : Bytecode.assemble name scope items with
      | error fault =>
        simp only [hitems, hcode, List.mem_singleton] at hs
        subst hs
        rintro c rfl
        exact absurd hcode (Bytecode.assemble_noComplaint name scope items c)
      | ok code =>
        simp only [hitems, hcode, List.mem_singleton] at hs
        subst hs
        trivial

namespace Node

/-- Below `header` nothing leaves a loop or goes on with it, so there the labels may be any. -/
def AgreesIn (both : Bool) (x : Aims) (isOrderly : Bool → Bool) (p : Plan) : Prop :=
  ∀ header, isOrderly header = true → (header = false → x.Agree both) → p.Agrees both

namespace AgreesIn

variable {both : Bool} {x : Aims} {f g : Bool → Bool} {p q : Plan}

theorem of_agrees (h : p.Agrees both) : AgreesIn both x f p := fun _ _ _ => h

theorem append (hp : AgreesIn both x f p) (hq : AgreesIn both x g q) :
    AgreesIn both x (fun header => f header && g header) (p ++ q) := by
  intro header h hx
  obtain ⟨hf, hg⟩ := Bool.and_eq_true_iff.1 h
  exact (hp header hf hx).append (hq header hg hx)

theorem andThen (hp : AgreesIn both x f p) (hq : q.Agrees both) : AgreesIn both x f (p ++ q) :=
  fun header h hx => (hp header h hx).append hq

theorem after (hp : p.Agrees both) (hq : AgreesIn both x f q) : AgreesIn both x f (p ++ q) :=
  fun header h hx => hp.append (hq header h hx)

theorem shortCircuit {kind : Jump} (hp : AgreesIn both x f p) (hq : AgreesIn both x g q) :
    AgreesIn both x (fun header => f header && g header) (.shortCircuit kind p q) :=
  hp.append fun header h hx => .fresh fun _ => Agrees.emit.append ((hq header h hx).append .label)

end AgreesIn

/-- The plan of an orderly node agrees with the loops around it.  The body of a loop is
planned for this loop, the body of a function for none, and headers may be planned for any. -/
theorem plan_agrees (scopes : Nat → Scope) (both : Bool) :
    (∀ x node, AgreesIn both x (orderly · node) (plan scopes x node)) ∧
    (∀ x nodes, AgreesIn both x (orderlyAll · nodes) (planBlock scopes x nodes)) ∧
    (∀ x nodes, AgreesIn both x (orderlyAll · nodes) (planArguments scopes x nodes)) ∧
    (∀ x nodes, AgreesIn both x (orderlyAll · nodes) (planBody scopes x nodes)) ∧
    ∀ x nodes, AgreesIn both x (orderlyAll · nodes) (planAll scopes x nodes) := by
  apply plan.mutual_induct
  -- Nodes that only emit, or are refused.
  case case6 | case7 | case12 | case13 | case14 | case16 | case17 | case18 | case20 =>
    intros
    exact .of_agrees .emit
  case case10 | case19 =>
    intros
    exact .of_agrees .nothing
  case case36 | case37 =>
    intros
    exact .of_agrees (.refuse fun _ h => by cases h)
  -- Nodes that are planned like their parts, one after the other.
  case case1 => exact fun _ _ _ ihf ihn => ihf.append ihn
  case case2 => exact fun _ _ _ ih => ih
  case case3 | case8 | case31 => exact fun _ _ ih => ih
  case case5 => exact fun _ _ _ iha ihc => iha.append (ihc.andThen .call)
  case case9 => exact fun _ _ ih => ih.andThen .emit
  case case11 =>
    exact fun _ _ _ ihi ihb => ihi.append fun header h hx => .element (ihb header h hx)
  case case15 => exact fun _ _ _ _ ih => ih.andThen (.append .emit .emit)
  case case21 =>
    intro x name slot right operator post ih header h hx
    refine (Agrees.append ?_ .emit).append .emitWhen
    split
    · exact ih header h hx
    · exact ((Agrees.emit.append .emitWhen).append (ih header h hx)).append .operation
  case case22 =>
    intro x base index right operator post ihr ihi ihb header h hx
    simp only [orderly, Bool.and_eq_true] at h
    have hindex := ihi _ h.1.1 hx
    have hbase {direct other} : (element direct other base (plan scopes x base)).Agrees both :=
      .element (ihb _ h.1.2 hx)
    refine ((Agrees.append ?_ hindex).append hbase).append .emitWhen
    split
    · exact ihr _ h.2 hx
    · exact (((hindex.append hbase).append .emitWhen).append (ihr _ h.2 hx)).append .operation
  case case29 => exact fun _ _ ih => ih.andThen .emit
  case case30 =>
    exact fun _ _ ih => AgreesIn.andThen (fun header h hx => .orNull (ih header h hx)) .emit
  case case32 => exact fun _ _ _ _ ihl ihr => ihl.append (ihr.andThen .emit)
  case case33 => exact fun _ _ ih => ih.andThen .emit
  case case34 | case35 => exact fun _ _ _ ihl ihr => ihl.shortCircuit ihr
  -- What leaves a loop or goes on with it, which is in no header.
  case case23 =>
    intro x count header h hx
    simp only [orderly, Bool.and_eq_true, Bool.not_eq_true'] at h
    exact (Agrees.noCount h.2).append (.append .emit (.stop (hx h.1).1))
  case case24 =>
    intro x count header h hx
    simp only [orderly, Bool.and_eq_true, Bool.not_eq_true'] at h
    exact (Agrees.noCount h.2).append (.append .emit (.stop (hx h.1).2))
  -- Branches, loops and functions.
  case case25 =>
    intro x condition yes no ihc ihy ihn header h hx
    simp only [orderly, Bool.and_eq_true] at h
    exact (ihc _ h.1.1 hx).append (.fresh fun _ => .fresh fun _ => ((((Agrees.emit.append
      (ihy _ h.1.2 hx)).append .emit).append .label).append (.orNull (ihn _ h.2 hx))).append .label)
  case case26 =>
    intro x condition body ihc ihb header h hx
    simp only [orderly, Bool.and_eq_true] at h
    have hbody start finish := ihb start finish false h.2 fun _ => ⟨rfl, fun _ => rfl⟩
    exact Agrees.emit.append (.fresh fun start => (Agrees.mark.append (ihc start true h.1 (by simp))).append
      (.fresh fun finish => (((Agrees.emit.append (hbody start finish)).append .emit).append
        .emit).append .label))
  case case27 =>
    intro x setup condition update body ihs ihc ihb ihu header h hx
    simp only [orderly, Bool.and_eq_true] at h
    have hbody finish next := ihb finish next false h.2 fun _ => ⟨rfl, fun _ => rfl⟩
    exact (((ihs true h.1.1.1 (by simp)).append .emit).append .emit).append (.fresh fun _ =>
      Agrees.mark.append (.fresh fun finish => .fresh fun next => ((((((((ihc finish next true h.1.1.2
        (by simp)).append .emit).append .emit).append (hbody finish next)).append .label).append
        (ihu finish true h.1.2 (by simp))).append .emit).append .emit).append .label))
  case case28 =>
    intro x subject key value body ihs ihb header h hx
    simp only [orderly, Bool.and_eq_true] at h
    have hbody finish := ihb finish false h.2 fun _ => ⟨rfl, fun _ => rfl⟩
    exact (((ihs true h.1 (by simp)).append .emit).append .emit).append (.fresh fun _ =>
      Agrees.mark.append (.fresh fun finish => (((((Agrees.emit.append .emit).append .key).append
        .target).append (hbody finish)).append .emit).append .label))
  case case4 =>
    intro x name body scope ih header h hx
    exact (ih false h fun _ => ⟨rfl, fun _ => rfl⟩).declare name _
  -- Lists of nodes.
  case case38 | case43 => exact fun _ => .of_agrees .emit
  case case41 | case46 => exact fun _ => .of_agrees .nothing
  case case39 =>
    intro x node ih header h hx
    exact ih header (Bool.and_eq_true_iff.1 h).1 hx
  case case44 =>
    intro x node ih header h hx
    exact (ih header (Bool.and_eq_true_iff.1 h).1 hx).append .emitWhen
  case case40 =>
    intro x node nodes hne ih ihs
    rw [planBlock.eq_3 scopes x node nodes hne]
    exact ih.append (.after .emit ihs)
  case case45 =>
    intro x node nodes hne ih ihs
    rw [planBody.eq_3 scopes x node nodes hne]
    exact ih.append (.after .emitWhen ihs)
  case case42 =>
    intro x node nodes ih ihs
    exact AgreesIn.append (fun header h hx => .argument (ih header h hx)) ihs
  case case47 => exact fun _ _ _ ih ihs => ih.append ihs

end Node

/-! ### Where compiling comes to -/

/-- Compiling comes to a stop: nothing before it is refused. -/
def Reached (stops : List Stop) (s : Stop) : Prop :=
  ∃ before after items, stops = before ++ s :: after ∧ emitted before = .ok items

theorem emitted_eq_error {stops : List Stop} {fault : Fault} :
    emitted stops = .error fault ↔ ∃ s, Reached stops s ∧ s.outcome = .error fault := by
  constructor
  · intro h
    induction stops with
    | nil => cases h
    | cons t stops ih =>
      cases ht : t.outcome with
      | error e =>
        rw [emitted, ht] at h
        cases h
        exact ⟨t, ⟨[], stops, [], rfl, rfl⟩, ht⟩
      | ok is =>
        cases hrest : emitted stops with
        | ok js =>
          rw [emitted, ht, hrest] at h
          cases h
        | error e =>
          rw [emitted, ht, hrest] at h
          cases h
          obtain ⟨s, ⟨before, after, items, rfl, hbefore⟩, hs⟩ := ih hrest
          exact ⟨s, ⟨t :: before, after, is ++ items, rfl, by rw [emitted, ht, hbefore]; rfl⟩, hs⟩
  · rintro ⟨s, ⟨before, after, items, rfl, hbefore⟩, hs⟩
    rw [emitted_append, hbefore, emitted, hs]
    rfl

namespace Stop

/-- The complaint about a `break` or `continue` that no loop of its function has in its
body. -/
def stray? : Stop → Option Complaint
  | .leave none _ => some .breakOutsideLoop
  | .goOn none _ _ => some .continueOutsideLoop
  | .inner s => s.stray?
  | _ => none

theorem outcome_iff_stray {s : Stop} (h : s.Agrees true) {c : Complaint}
    (hc : c ∈ [Complaint.breakOutsideLoop, .continueOutsideLoop]) :
    s.outcome = .error (.complaint c) ↔ s.stray? = some c := by
  induction s with
  | item i => simp [outcome, stray?]
  | leave loop finish =>
    obtain rfl : finish = loop := h
    cases finish <;> simp [outcome, stray?]
  | goOn loop started next =>
    obtain rfl : started = loop.isSome := h rfl
    cases loop <;> cases next <;> simp [outcome, stray?]
  | refusal fault =>
    refine iff_of_false (fun hfault => ?_) (by simp [stray?])
    cases hfault
    cases h c rfl
    simp at hc
  | inner s ih =>
    rw [stray?, ← ih h, outcome]
    cases s.outcome <;> simp [Except.map]

end Stop

theorem Node.assembleBody_eq_complaint {scopes : Nat → Scope} {body : Node} {c : Complaint}
    (name : String) (scope : Scope) :
    assembleBody name scope (body.compile scopes) = .error (.complaint c) ↔
      ∃ s, Reached (body.plan scopes {} ({} : Assembler).nextLabel).1 s ∧
        s.outcome = .error (.complaint c) := by
  rw [(compile_follows scopes .start body).assembleBody_eq, ← emitted_eq_error]
  cases h : emitted (body.plan scopes {} ({} : Assembler).nextLabel).1 with
  | error fault => simp [bind, Except.bind]
  | ok items => exact iff_of_false (Bytecode.assemble_noComplaint name scope items c) fun h => by cases h

/-- The labels of loops are kept in balance.  Compiling leaves the four stacks as they were,
and each `break` on the way is one jump in its place among the items, to the end of the
innermost loop that has it in its body.  A program or function is refused for a `break`
outside of loops just if compiling it comes to one that no loop of its function has in its
body, and the same holds for `continue`. -/
theorem loop_labels_balanced {scopes : Nat → Scope} {node : Node}
    (h : node.orderly false = true) :
    (∀ a a', (node.compile scopes).run a = .ok () a' →
      a'.starts = a.starts ∧ a'.ends = a.ends ∧ a'.updates = a.updates ∧
      a'.popAfterBreak = a.popAfterBreak ∧
      ∀ before loop finish after,
        (node.plan scopes a.aims a.nextLabel).1 = before ++ .leave loop finish :: after →
        ∃ label xs ys, loop = some label ∧ emitted before = .ok xs ∧ emitted after = .ok ys ∧
          a'.items = a.items ++ (xs ++ .instr (.jump .always label) :: ys).toArray) ∧
    ∀ name scope, ∀ c ∈ [Complaint.breakOutsideLoop, .continueOutsideLoop],
      Node.assembleBody name scope (node.compile scopes) = .error (.complaint c) ↔
        ∃ s, Reached (node.plan scopes {} ({} : Assembler).nextLabel).1 s ∧
          s.stray? = some c := by
  refine ⟨fun a a' hrun => ?_, fun name scope c hc => ?_⟩
  · obtain ⟨items, hitems, rfl⟩ := (node.compile_follows scopes .own).ok_of_run hrun
    refine ⟨rfl, rfl, rfl, rfl, fun before loop finish after hplan => ?_⟩
    have hagrees := (Node.plan_agrees scopes false).1 a.aims node false h fun _ => ⟨rfl, by simp⟩
    obtain rfl : finish = loop := hagrees a.nextLabel (.leave loop finish) (by simp [hplan])
    rw [hplan, emitted_append, emitted] at hitems
    cases hbefore : emitted before <;> rw [hbefore] at hitems <;> cases finish <;>
      cases hafter : emitted after <;> rw [hafter] at hitems <;> cases hitems
    exact ⟨_, _, _, rfl, rfl, rfl, rfl⟩
  · rw [Node.assembleBody_eq_complaint]
    refine exists_congr fun s => and_congr_right fun hs => Stop.outcome_iff_stray ?_ hc
    obtain ⟨before, after, items, hplan, -⟩ := hs
    have hagrees := (Node.plan_agrees scopes true).1 {} node false h fun _ => ⟨rfl, fun _ => rfl⟩
    exact hagrees ({} : Assembler).nextLabel s (by simp [hplan])

/-- `while (true) { break; }` -/
def breakingLoop : Node := .whileLoop (.boolean true) (.block [.breakLoop .absent])

/-- A `break` is compiled in the loop, and refused without it. -/
theorem loop_labels_balanced_while :
    (∃ a, (breakingLoop.compile fun _ => {}).run {} = .ok () a ∧ a.ends = ({} : Assembler).ends) ∧
      Node.assembleBody "main" {} ((Node.breakLoop .absent).compile fun _ => {})
        = .error (.complaint .breakOutsideLoop) := by
  have hloop : breakingLoop.orderly false = true := by decide
  have halone : (Node.breakLoop .absent).orderly false = true := by decide
  have hreached : Reached ((Node.breakLoop .absent).plan (fun _ => {}) {}
      ({} : Assembler).nextLabel).1 (.leave none none) :=
    ⟨[.item (.instr .loadNull)], [], _, rfl, rfl⟩
  refine ⟨?_, ((loop_labels_balanced halone).2 "main" {} _ (by decide)).2 ⟨_, hreached, rfl⟩⟩
  obtain ⟨a, ha⟩ : ∃ a, (breakingLoop.compile fun _ => {}).run {} = .ok () a := ⟨_, rfl⟩
  exact ⟨a, ha, ((loop_labels_balanced hloop).1 _ a ha).2.1⟩

end PageScript
