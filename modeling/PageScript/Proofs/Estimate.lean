/-
What the estimate of the stack makes of a body.

The estimate adds up the changes of the stack along the code, and must never fall below
zero.  What a node adds can be read off the tree (`rise`), and so can whether the sum
stays up (`afloat`).  Behind a `return` or `global` inside a block or a loop something is
discarded that was never counted.  So a grammatical program is compiled just if its
bodies are formed as they should be and stay afloat (`compiles_iff_afloat`).
-/
import PageScript.Proofs.Course
import PageScript.Proofs.Reading
import PageScript.Proofs.Spacing
import PageScript.Sample.Grammar

namespace PageScript

open List

variable {body right condition : Node} {operator : String} {d : Nat} {globals : Bool} {e : Int}

namespace Node

/-! ### Nodes -/

mutual

/-- By how much the estimate takes the stack to grow over the code of a node.
A part that is missing counts as null. -/
def rise : Node → Int
  | .exprStatement expr => rise expr
  | .call callee arguments => rise arguments + rise callee - arguments.count
  | .argumentList nodes => riseAll nodes
  | .array nodes => riseAll nodes + 1 - nodes.length
  | .global _ => 0
  | .member base index => rise index + rise base - 1
  | .assignment _ _ right _ _ => rise right + 1 - right.operands
  | .memberAssignment base index right operator _ =>
    let access := rise index + rise base - 2
    rise right + 1 - right.operands + access + if operator = "=" then 0 else access
  | .ifElse condition yes no => rise condition + rise yes + rise no - 1
  | .whileLoop condition body => rise condition + rise body - 1
  | .forLoop setup condition update body =>
    rise setup + rise condition + rise update + rise body - 3
  | .foreachLoop subject _ _ body => rise subject + rise body + 1
  | .print expr => rise expr
  | .returnValue expr => rise expr - 1
  | .block nodes => riseBlock nodes
  | .binary op left right => rise left + rise right + op.stackChange
  | .not expr => rise expr
  | .both left right => rise left + rise right - 1
  | .either left right => rise left + rise right - 1
  | .empty => 0
  | _ => 1

def riseAll : List Node → Int
  | [] => 0
  | node :: nodes => rise node + riseAll nodes

def riseBlock : List Node → Int
  | [] => 1
  | [node] => rise node
  | node :: nodes => rise node - 1 + riseBlock nodes

end

mutual

/-- Whether the code of a statement ends with a `RETURN`, given whether it
comes after one. -/
def closes (after : Bool) : Node → Bool
  | .returnValue _ => true
  | .global _ => after
  | .ifElse _ _ no => closes false no
  | .block nodes => closesBlock after nodes
  | _ => false

def closesBlock (after : Bool) : List Node → Bool
  | [] => false
  | [node] => closes after node
  | _ :: nodes => closesBlock false nodes

end

mutual

/-- Whether the estimate stays up over a statement, from what it is before. -/
def afloat (d : Int) : Node → Bool
  | .sourceElements _ nodes => afloatBody d false nodes
  | .ifElse condition yes no =>
    let d := d + rise condition - 1
    afloat d yes && afloat (d + rise yes) no
  | .whileLoop condition body =>
    let d := d + rise condition
    afloat d body && decide (0 < d + rise body)
  | .forLoop setup condition _ body => afloat (d + rise setup + rise condition - 2) body
  | .foreachLoop subject _ _ body => afloat (d + rise subject + 1) body
  | .block nodes => afloatBlock d nodes
  | _ => true

/-- Whether it stays up over statements of a body; from the last one a value is
returned, unless a `RETURN` comes just before. -/
def afloatBody (d : Int) (after : Bool) : List Node → Bool
  | [] => true
  | [node] => afloat d node && (node.isReturn || closes after node || decide (0 < d + rise node))
  | node :: nodes =>
    let d' := d + rise node
    afloat d node && if node.isReturn then afloatBody d' true nodes
      else decide (0 < d') && afloatBody (d' - 1) false nodes

def afloatBlock (d : Int) : List Node → Bool
  | [] => true
  | [node] => afloat d node
  | node :: nodes =>
    let d' := d + rise node
    afloat d node && decide (0 < d') && afloatBlock (d' - 1) nodes

end

-- Their equations, once for all the proofs below.
attribute [local simp] rise riseAll riseBlock closes closesBlock afloat afloatBody afloatBlock
  Instr.stackChange

end Node

/-! ### Lines -/

/-- The changes along lines, added up. -/
def climb : List Line → Int
  | [] => 0
  | line :: lines => line.instr.stackChange + climb lines

/-- No sum of changes along the lines falls below zero. -/
def StaysUp (d : Int) : List Line → Prop
  | [] => True
  | line :: lines =>
    0 ≤ d + line.instr.stackChange ∧ StaysUp (d + line.instr.stackChange) lines

/-- Along lines the sum changes by `k`, and it stays up just if something holds
of what it is before them. -/
structure Tallies (k : Int) (P : Int → Prop) (lines : List Line) : Prop where
  climb_eq : climb lines = k
  stays : ∀ {d}, 0 ≤ d → (StaysUp d lines ↔ P d)

section

variable {d k l c : Int} {xs ys : List Line} {P Q : Int → Prop}
  {i : Instr Nat Bytecode} {n : Nat} {mark : Mark}

theorem climb_append : climb (xs ++ ys) = climb xs + climb ys := by
  induction xs with
  | nil => simp [climb]
  | cons x xs ih => simp [climb, ih, Int.add_assoc]

theorem staysUp_append : StaysUp d (xs ++ ys) ↔ StaysUp d xs ∧ StaysUp (d + climb xs) ys := by
  induction xs generalizing d with
  | nil => simp [StaysUp, climb]
  | cons x xs ih => simp [StaysUp, climb, ih, and_assoc, Int.add_assoc]

theorem StaysUp.nonneg (h : StaysUp d xs) (hd : 0 ≤ d) : 0 ≤ d + climb xs := by
  induction xs generalizing d with
  | nil => simpa [climb] using hd
  | cons x xs ih => simpa [climb, Int.add_assoc] using ih h.2 h.1

theorem stackEstimate_iff {greatest : Int} : (∃ size, Bytecode.stackEstimate d greatest
    (xs.map Line.instr) = .ok size) ↔ StaysUp d xs := by
  induction xs generalizing d greatest with
  | nil => simp [Bytecode.stackEstimate, StaysUp]
  | cons x xs ih =>
    rw [map_cons, Bytecode.stackEstimate, StaysUp]
    by_cases h : d + x.instr.stackChange < 0
    · simp [h, Int.not_le.2 h]
    · simp [h, Int.not_lt.1 h, ih]

namespace Tallies

theorem nil : Tallies 0 (0 ≤ ·) [] := ⟨rfl, fun hd => iff_of_true trivial hd⟩

theorem line (h : i.stackChange = c) : Tallies c (0 ≤ · + c) [⟨i, n, mark⟩] := by
  subst h
  exact ⟨Int.add_zero _, fun _ => and_iff_left trivial⟩

theorem lineIf (h : i.stackChange = c) (condition : Bool) :
    Tallies (condition.toNat * c) (0 ≤ · + condition.toNat * c) (Node.lineIf condition i n) := by
  cases condition with
  | false => simpa [Node.lineIf] using nil
  | true => simpa [Node.lineIf] using line h

theorem append (hx : Tallies k P xs) (hy : Tallies l Q ys) :
    Tallies (k + l) (fun d => P d ∧ Q (d + k)) (xs ++ ys) := by
  refine ⟨by rw [climb_append, hx.climb_eq, hy.climb_eq], fun {d} hd => ?_⟩
  rw [staysUp_append, hx.climb_eq, ← hx.stays hd]
  refine and_congr_right fun hxs => hy.stays ?_
  exact hx.climb_eq ▸ hxs.nonneg hd

theorem cons (c : Int) (h : i.stackChange = c) (hx : Tallies k P xs) :
    Tallies (c + k) (fun d => 0 ≤ d + c ∧ P (d + c)) (⟨i, n, mark⟩ :: xs) :=
  (line h).append hx

theorem of_iff (h : Tallies k P xs) (hk : k = l) (hP : ∀ d, 0 ≤ d → (P d ↔ Q d)) : Tallies l Q xs :=
  ⟨h.climb_eq.trans hk, fun hd => (h.stays hd).trans (hP _ hd)⟩

theorem nonneg (h : Tallies k P xs) (hd : 0 ≤ d) (hP : P d) : 0 ≤ d + k :=
  h.climb_eq ▸ ((h.stays hd).2 hP).nonneg hd

end Tallies

end

namespace Node

variable {scopes : Nat → Scope} {node base target key : Node} {nodes : List Node}

/-! ### Expressions -/

/-- Code that leaves more than it finds. -/
structure Lifts (scopes : Nat → Scope) (node : Node) : Prop where
  sums : ∀ {pos d x}, Tallies (rise node) (0 ≤ ·) (layout scopes pos d x node)
  pos : 0 < rise node

theorem orNullLines_of_present {lines : List Line} (h : node ≠ .absent) :
    orNullLines node lines d = lines := by
  cases node with
  | absent => exact absurd rfl h
  | _ => rfl

section

variable {pos d d' step : Nat} {x : Exits}

theorem length_le_riseAll (h : ∀ n ∈ nodes, Lifts scopes n) : (nodes.length : Int) ≤ riseAll nodes := by
  induction nodes with
  | nil => simp [riseAll]
  | cons node nodes ih =>
    rw [forall_mem_cons] at h
    have hnode := h.1.pos
    have hnodes := ih h.2
    rw [riseAll, length_cons]
    omega

theorem tallies_layoutAll (h : ∀ n ∈ nodes, Lifts scopes n) :
    Tallies (riseAll nodes) (0 ≤ ·) (layoutAll scopes pos d step x nodes) := by
  induction nodes generalizing pos d with
  | nil => exact .nil
  | cons node nodes ih =>
    rw [forall_mem_cons] at h
    have hpos := h.1.pos
    exact (h.1.sums.append (ih h.2)).of_iff rfl fun e he => by omega

theorem tallies_layoutArguments (h : ∀ n ∈ nodes, Lifts scopes n) :
    Tallies (riseAll nodes) (0 ≤ ·) (layoutArguments scopes pos d x nodes) := by
  induction nodes generalizing pos d with
  | nil => exact .nil
  | cons node nodes ih =>
    rw [forall_mem_cons] at h
    obtain ⟨hnode, hnodes⟩ := h
    have hpos := hnode.pos
    have hsums : Tallies (rise node) (0 ≤ ·) (layout scopes pos d x node) := hnode.sums
    have hargument : Tallies (rise node) (0 ≤ ·) (argumentLines node (layout scopes pos d x node) d) := by
      cases node with
      | «variable» name slot => exact (Tallies.line (c := 1) rfl).of_iff rfl fun e he => by omega
      | _ => exact hsums
    exact (hargument.append (ih hnodes)).of_iff rfl fun e he => by omega

theorem Lifts.memberLines (h : Lifts scopes base) :
    Tallies (rise base - 1) (0 ≤ ·) (memberLines base (layout scopes pos d x base) d') := by
  have hpos := h.pos
  cases base with
  | «variable» name slot => exact (Tallies.line (c := 0) rfl).of_iff rfl fun e he => by omega
  | _ => exact (h.sums.append (.line (c := -1) rfl)).of_iff rfl fun e he => by omega

theorem Lifts.storeLines (h : Lifts scopes base) :
    Tallies (rise base - 2) (fun e => 0 ≤ e + (rise base - 2))
      (storeLines base (layout scopes pos d x base) d') := by
  have hpos := h.pos
  cases base with
  | «variable» name slot => exact .line rfl
  | _ => exact (h.sums.append (.line (c := -2) rfl)).of_iff rfl fun e he => by omega

theorem stackChange_ge (op : Operator) : -1 ≤ op.stackChange := by
  cases op <;> decide

end

theorem stackChange_operationLine (hsign : isSign operator = true) (hoperator : operator ≠ "=") :
    (operationLine operator d).instr.stackChange = if operator ∈ stepSigns then 0 else -1 := by
  have hmem : operator ∈ assignmentSigns ++ stepSigns := contains_iff_mem.1 hsign
  simp only [assignmentSigns, stepSigns, cons_append, nil_append, mem_cons,
    not_mem_nil, or_false] at hmem
  rcases hmem with rfl | rfl | rfl | rfl | rfl | rfl
  · exact absurd rfl hoperator
  all_goals rfl

/-- The right side of an assignment with a sign: none for a step, else an
expression. -/
structure RightSide (scopes : Nat → Scope) (operator : String) (right : Node) : Prop where
  sign : isSign operator = true
  sums : ∀ {pos d x}, Tallies (rise right) (0 ≤ ·) (layout scopes pos d x right)
  rise_ge : (right.operands : Int) ≤ rise right
  operands : (right.operands : Int) = if operator ∈ stepSigns then 0 else 1

theorem rightSide_empty (h : operator ∈ stepSigns) :
    RightSide scopes operator .empty where
  sign := contains_iff_mem.2 (mem_append_right _ h)
  sums := .nil
  rise_ge := by decide
  operands := by rw [if_pos h]; rfl

theorem Lifts.rightSide (h : Lifts scopes right)
    (hright : right.operands = 1) (hsign : isSign operator = true) (hstep : operator ∉ stepSigns) :
    RightSide scopes operator right where
  sign := hsign
  sums := h.sums
  rise_ge := by
    have := h.pos
    rw [hright]
    omega
  operands := by rw [if_neg hstep, hright]; rfl

theorem RightSide.operation (h : RightSide scopes operator right) (hoperator : operator ≠ "=") :
    Tallies (-right.operands) (0 ≤ · + -(right.operands : Int)) [operationLine operator d] := by
  refine .line ((stackChange_operationLine (d := d) h.sign hoperator).trans ?_)
  rw [h.operands]
  split <;> rfl

theorem lifts_assignment {name : String} {slot : Int} {post : Bool}
    (h : RightSide scopes operator right) (hpost : operator = "=" → post = false) :
    Lifts scopes (.assignment name slot right operator post) := by
  have hrise := h.rise_ge
  have hoperands := h.operands
  refine ⟨fun {pos d x} => ?_, by simp only [rise]; omega⟩
  rw [layout, rise]
  by_cases hoperator : operator = "="
  · subst hoperator
    cases hpost rfl
    have hone : (right.operands : Int) = 1 := hoperands
    exact (h.sums.append (.line (c := 0) rfl)).of_iff (by omega) fun e he => by omega
  · rw [if_neg hoperator]
    exact ((((Tallies.cons 1 rfl (.lineIf (c := 1) rfl post)).append h.sums).append
      (h.operation hoperator)).append (.cons 0 rfl (.lineIf (c := -1) rfl post))).of_iff (by omega)
      fun e he => by omega

theorem lifts_memberAssignment {index : Node} {post : Bool}
    (h : RightSide scopes operator right) (hindex : Lifts scopes index) (hbase : Lifts scopes base)
    (hpost : operator = "=" → post = false) :
    Lifts scopes (.memberAssignment base index right operator post) := by
  have hrise := h.rise_ge
  have hoperands := h.operands
  have hi := hindex.pos
  have hb := hbase.pos
  refine ⟨fun {pos d x} => ?_, by simp only [rise]; split <;> omega⟩
  rw [layout, rise]
  by_cases hoperator : operator = "="
  · subst hoperator
    cases hpost rfl
    have hone : (right.operands : Int) = 1 := hoperands
    exact (((h.sums.append hindex.sums).append hbase.storeLines).append
      .nil).of_iff (by simp only [if_true]; omega) fun e he => by omega
  · simp only [if_neg hoperator]
    exact (((((((hindex.sums.append hbase.memberLines).append
      (.lineIf (c := 1) rfl post)).append h.sums).append (h.operation hoperator)).append
      hindex.sums).append hbase.storeLines).append (.lineIf (c := -1) rfl post)).of_iff
      (by omega) fun e he => by omega

theorem lifts_load {i : Instr Nat Bytecode}
    (h : ∀ pos d x, layout scopes pos d x node = [⟨i, d, .plain⟩]) (hi : i.stackChange = 1)
    (hrise : rise node = 1) : Lifts scopes node := by
  refine ⟨fun {pos d x} => ?_, by rw [hrise]; decide⟩
  rw [h, hrise]
  exact (Tallies.line hi).of_iff rfl fun e he => by omega

theorem lifts_variable (h : node.isVariable) : Lifts scopes node := by
  cases node with
  | «variable» name slot => exact lifts_load (fun _ _ _ => rfl) rfl rfl
  | _ => cases h

theorem riseAll_variables (h : ∀ n ∈ nodes, n.isVariable) : riseAll nodes = nodes.length := by
  induction nodes with
  | nil => rfl
  | cons node nodes ih =>
    rw [forall_mem_cons] at h
    have hnode : rise node = 1 := by
      cases node with
      | «variable» name slot => rfl
      | _ => cases h.1
    rw [riseAll, ih h.2, hnode, length_cons]
    omega

/-- Over an expression the sum stays up and rises. -/
theorem IsExpression.lifts (h : IsExpression node) (hsigned : node.signed = true) :
    Lifts scopes node := by
  induction h with
  | @interpolation text parts place hparts =>
    have hall : ∀ n ∈ parts, Lifts scopes n := fun n hn => lifts_variable (hparts n hn)
    have hrise := riseAll_variables hparts
    refine ⟨?_, by simp [rise]⟩
    exact ((tallies_layoutAll hall).append (.cons 1 rfl (.line (c := -parts.length) rfl))).of_iff
      (by simp only [rise]; omega) fun e he => by omega
  | @array nodes _ ihs =>
    have hall : ∀ n ∈ nodes, Lifts scopes n := fun n hn => ihs n hn (signedAll_iff.1 hsigned n hn)
    have hlength := length_le_riseAll hall
    refine ⟨?_, by simp only [rise]; omega⟩
    exact ((tallies_layoutAll hall).append (.line (c := 1 - nodes.length) rfl)).of_iff
      (by simp only [rise]; omega) fun e he => by omega
  | @call callee nodes _ _ ihs ih =>
    simp only [signed, Bool.and_eq_true, signedAll_iff] at hsigned
    have hall : ∀ n ∈ nodes, Lifts scopes n := fun n hn => ihs n hn (hsigned.1 n hn)
    have hcallee := ih hsigned.2
    have hpos := hcallee.pos
    have hlength := length_le_riseAll hall
    have hcount : count (.argumentList nodes) = nodes.length := rfl
    refine ⟨?_, by simp only [rise]; omega⟩
    exact (((tallies_layoutArguments hall).append hcallee.sums).append
      (.line (c := -nodes.length) rfl)).of_iff (by simp only [rise]; omega) fun e he => by omega
  | member _ _ ihi ihb =>
    simp only [signed, Bool.and_eq_true] at hsigned
    have hindex := ihi hsigned.1
    have hbase := ihb hsigned.2
    have hi := hindex.pos
    have hb := hbase.pos
    refine ⟨?_, by simp only [rise]; omega⟩
    exact (hindex.sums.append hbase.memberLines).of_iff (by simp only [rise]; omega)
      fun e he => by omega
  | assignment hstep hright ih =>
    simp only [signed, Bool.and_eq_true] at hsigned
    exact lifts_assignment ((ih hsigned.2).rightSide hright.operands_eq hsigned.1 hstep) fun _ => rfl
  | step hstep =>
    exact lifts_assignment (rightSide_empty hstep) fun h => absurd (h ▸ hstep) (by decide)
  | memberAssignment hstep hright _ _ ihr ihi ihb =>
    simp only [signed, Bool.and_eq_true] at hsigned
    exact lifts_memberAssignment
      ((ihr hsigned.1.1.2).rightSide hright.operands_eq hsigned.1.1.1 hstep)
      (ihi hsigned.1.2) (ihb hsigned.2) fun _ => rfl
  | memberStep hstep _ _ ihi ihb =>
    simp only [signed, Bool.and_eq_true] at hsigned
    exact lifts_memberAssignment (rightSide_empty hstep) (ihi hsigned.1.2) (ihb hsigned.2)
      fun h => absurd (h ▸ hstep) (by decide)
  | conditional _ _ hno ihc ihy ihn =>
    simp only [signed, Bool.and_eq_true] at hsigned
    have hcondition := ihc hsigned.1.1
    have hyes := ihy hsigned.1.2
    have hno' := ihn hsigned.2
    have hc := hcondition.pos
    have hy := hyes.pos
    have hn := hno'.pos
    refine ⟨fun {pos d x} => ?_, by simp only [rise]; omega⟩
    simp only [layout, orNullLines_of_present hno.present]
    exact ((hcondition.sums.append (.cons (-1) rfl hyes.sums)).append
      (.cons 0 rfl hno'.sums)).of_iff (by simp only [rise]; omega) fun e he => by omega
  | @binary op left right _ _ ihl ihr =>
    simp only [signed, Bool.and_eq_true] at hsigned
    have hleft := ihl hsigned.1
    have hright := ihr hsigned.2
    have hl := hleft.pos
    have hr := hright.pos
    have hop := stackChange_ge op
    refine ⟨?_, by simp only [rise]; omega⟩
    exact ((hleft.sums.append hright.sums).append
      (.line (c := op.stackChange) rfl)).of_iff (by simp only [rise]) fun e he => by omega
  | not _ ih =>
    have hexpr := ih hsigned
    have hpos := hexpr.pos
    refine ⟨?_, hpos⟩
    exact (hexpr.sums.append (.line (c := 0) rfl)).of_iff (by simp only [rise]; omega)
      fun e he => by omega
  | both _ _ ihl ihr | either _ _ ihl ihr =>
    simp only [signed, Bool.and_eq_true] at hsigned
    have hleft := ihl hsigned.1
    have hright := ihr hsigned.2
    have hl := hleft.pos
    have hr := hright.pos
    refine ⟨?_, by simp only [rise]; omega⟩
    exact (hleft.sums.append (.cons (-1) rfl hright.sums)).of_iff
      (by simp only [rise]; omega) fun e he => by omega
  | _ => exact lifts_load (fun _ _ _ => rfl) rfl rfl

/-! ### Statements -/

/-- The lines change the depth as the node says. -/
def Counted (scopes : Nat → Scope) (node : Node) : Prop :=
  ∀ pos d x, Tallies (rise node) (fun e => node.afloat e = true) (layout scopes pos d x node)

theorem counted_ifElse {yes no : Node} (hcondition : Lifts scopes condition)
    (hyes : Counted scopes yes) (hno : ∀ pos d x, Tallies (rise no)
      (fun e => no.afloat e = true) (orNullLines no (layout scopes pos d x no) d)) :
    Counted scopes (.ifElse condition yes no) := by
  have hc := hcondition.pos
  intro pos d x
  refine ((hcondition.sums.append (.cons (-1) rfl (hyes _ _ _))).append
    (.cons 0 rfl (hno _ _ _))).of_iff (by simp only [rise]; omega) fun e he => ?_
  have hup := (hyes 0 0 {}).nonneg (d := e + condition.rise - 1) (by omega)
  simp only [afloat, Bool.and_eq_true]
  grind

theorem counted_whileLoop (hcondition : Lifts scopes condition)
    (hbody : Counted scopes body) : Counted scopes (.whileLoop condition body) := by
  have hc := hcondition.pos
  intro pos d x
  refine (((Tallies.cons 1 rfl hcondition.sums).append (.cons (-1) rfl (hbody _ _ _))).append
    (.cons (-1) rfl (.line (c := 0) rfl))).of_iff (by simp only [rise]; omega) fun e he => ?_
  simp only [afloat, Bool.and_eq_true, decide_eq_true_eq]
  grind

theorem counted_forLoop {setup update : Node} (hsetup : Lifts scopes setup)
    (hcondition : Lifts scopes condition) (hupdate : Lifts scopes update)
    (hbody : Counted scopes body) : Counted scopes (.forLoop setup condition update body) := by
  have hs := hsetup.pos
  have hc := hcondition.pos
  have hu := hupdate.pos
  intro pos d x
  refine ((((hsetup.sums.append (.cons (-1) rfl (.cons 1 rfl hcondition.sums))).append
    (.cons (-1) rfl (.cons (-1) rfl (hbody _ _ _)))).append hupdate.sums).append
    (.cons (-1) rfl (.line (c := 0) rfl))).of_iff (by simp only [rise]; omega) fun e he => ?_
  have hup := (hbody 0 0 {}).nonneg (d := e + setup.rise + condition.rise - 2) (by omega)
  simp only [afloat]
  grind

theorem tallies_targetLines (h : target.isVariable) :
    Tallies (-1) (0 < ·) (targetLines target d) := by
  cases target with
  | «variable» name slot =>
    exact (Tallies.cons 0 rfl (.line (c := -1) rfl)).of_iff rfl fun e he => by omega
  | _ => cases h

theorem tallies_keyLines (h : key.isAbsent ∨ key.isVariable) :
    Tallies (-1) (0 < ·) (keyLines key d) := by
  cases key with
  | absent => exact (Tallies.line (c := -1) rfl).of_iff rfl fun e he => by omega
  | _ => exact tallies_targetLines (h.resolve_left Bool.false_ne_true)

theorem counted_foreachLoop {subject value : Node} (hsubject : Lifts scopes subject)
    (hkey : key.isAbsent ∨ key.isVariable) (hvalue : value.isVariable)
    (hbody : Counted scopes body) : Counted scopes (.foreachLoop subject key value body) := by
  have hs := hsubject.pos
  intro pos d x
  refine (((((hsubject.sums.append (.cons 0 rfl (.cons 1 rfl (.cons 0 rfl
    (.cons 2 rfl (tallies_keyLines hkey)))))).append (tallies_targetLines hvalue)).append
    (hbody _ _ _))).append (.line (c := 0) rfl)).of_iff (by simp only [rise]; omega) fun e he => ?_
  have hup := (hbody 0 0 {}).nonneg (d := e + subject.rise + 1) (by omega)
  simp only [afloat]
  grind

theorem counted_block (h : ∀ n ∈ nodes, Counted scopes n) : Counted scopes (.block nodes) := by
  induction nodes with
  | nil =>
    intro pos d x
    exact (Tallies.line (c := 1) rfl).of_iff rfl fun e he => iff_of_true (by omega) rfl
  | cons node nodes ih =>
    rw [forall_mem_cons] at h
    obtain ⟨hnode, hnodes⟩ := h
    cases nodes with
    | nil => exact hnode
    | cons next nodes =>
      intro pos d x
      have hrest := ih hnodes (pos + width node + 1) d x
      simp only [layout, rise, afloat] at hrest
      simp only [layout, layoutBlock, rise, riseBlock, afloat, afloatBlock, Bool.and_eq_true,
        decide_eq_true_eq]
      refine ((hnode pos d x).append (.cons (-1) rfl hrest)).of_iff
        (by omega) fun e he => ?_
      grind

theorem counted_of_up (hafloat : ∀ e, node.afloat e = true)
    (h : ∀ pos d x, Tallies (rise node) (0 ≤ ·) (layout scopes pos d x node)) :
    Counted scopes node :=
  fun pos d x => (h pos d x).of_iff rfl fun e he => iff_of_true he (hafloat e)

/-- Over a statement the sum does what `rise` and `afloat` say. -/
theorem IsStatement.counted {y : Around} (h : IsStatement globals node)
    (hformed : node.formed y = true) : Counted scopes node := by
  induction h generalizing y with
  | exprStatement hexpr => exact counted_of_up (fun _ => rfl) fun _ _ _ => (hexpr.lifts hformed).sums
  | print hexpr =>
    have hlifts : Lifts scopes _ := hexpr.lifts hformed
    have hpos := hlifts.pos
    refine counted_of_up (fun _ => rfl) fun pos d x => ?_
    exact (hlifts.sums.append (.line (c := 0) rfl)).of_iff (by simp only [rise]; omega)
      fun e he => by omega
  | ifThen hcondition _ ih =>
    simp only [formed, Bool.and_eq_true] at hformed
    refine counted_ifElse (hcondition.lifts hformed.1.1) (ih hformed.1.2) fun pos d x => ?_
    exact (Tallies.line (c := 1) rfl).of_iff rfl fun e he => iff_of_true (by omega) rfl
  | ifElse hcondition _ hno ihy ihn =>
    simp only [formed, Bool.and_eq_true] at hformed
    refine counted_ifElse (hcondition.lifts hformed.1.1) (ihy hformed.1.2) fun pos d x => ?_
    rw [orNullLines_of_present hno.present]
    exact ihn hformed.2 pos d x
  | whileLoop hcondition _ ih =>
    simp only [formed, Bool.and_eq_true] at hformed
    exact counted_whileLoop (hcondition.lifts hformed.1) (ih hformed.2)
  | forLoop hsetup hcondition hupdate _ ih =>
    simp only [formed, Bool.and_eq_true] at hformed
    exact counted_forLoop (hsetup.lifts hformed.1.1.1) (hcondition.lifts hformed.1.1.2)
      (hupdate.lifts hformed.1.2) (ih hformed.2)
  | foreachLoop hsubject hkey hvalue _ ih =>
    simp only [formed, Bool.and_eq_true] at hformed
    exact counted_foreachLoop (hsubject.lifts hformed.1) hkey hvalue (ih hformed.2)
  | block _ ihs => exact counted_block fun n hn => ihs n hn (formedAll_iff.1 hformed n hn)
  | breakLoop | continueLoop =>
    exact counted_of_up (fun _ => rfl) fun pos d x =>
      (Tallies.cons 1 rfl (.line (c := 0) rfl)).of_iff rfl fun e he => by omega
  | returnNothing =>
    exact counted_of_up (fun _ => rfl) fun pos d x =>
      (Tallies.cons 1 rfl (.line (c := -1) rfl)).of_iff rfl fun e he => by omega
  | returnValue hexpr =>
    have hlifts : Lifts scopes _ := hexpr.lifts hformed
    have hpos := hlifts.pos
    refine counted_of_up (fun _ => rfl) fun pos d x => ?_
    rw [layout, orNullLines_of_present hexpr.present]
    exact (hlifts.sums.append (.line (c := -1) rfl)).of_iff (by simp only [rise]; omega)
      fun e he => by omega
  | global _ => exact counted_of_up (fun _ => rfl) fun _ _ _ => .nil

/-! ### Bodies -/

section

variable {pos d : Nat} {x : Exits} {after : Bool}

theorem closes_block (h : ∀ n ∈ nodes, ∀ {pos d x after},
      endsReturn after (layout scopes pos d x n) = closes after n) :
    endsReturn after (layoutBlock scopes pos d x nodes) = closesBlock after nodes := by
  induction nodes generalizing pos after with
  | nil => rfl
  | cons node nodes ih =>
    rw [forall_mem_cons] at h
    cases nodes with
    | nil => exact h.1
    | cons next nodes =>
      have hlayout : layoutBlock scopes pos d x (node :: next :: nodes)
          = layout scopes pos d x node ++ ⟨.discardTop, d + 1, .plain⟩ ::
            layoutBlock scopes (pos + width node + 1) d x (next :: nodes) := by
        simp only [layoutBlock]
      have hcloses : closesBlock after (node :: next :: nodes) = closesBlock false (next :: nodes) := by
        simp only [closesBlock]
      rw [hlayout, hcloses, endsReturn_append, endsReturn_cons]
      exact ih h.2

theorem IsStatement.closes_eq {y : Around} (h : IsStatement globals node)
    (hformed : node.formed y = true) :
    endsReturn after (layout scopes pos d x node) = closes after node := by
  induction h generalizing y pos d x after with
  | exprStatement hexpr =>
    exact (hexpr.tidy (r := {}) hformed .inner).calm.open
  | print hexpr => simp [layout, closes, Instr.isReturn]
  | ifThen _ _ _ => simp [layout, orNullLines, closes, Instr.isReturn]
  | ifElse _ _ hno _ ihn =>
    simp only [formed, Bool.and_eq_true] at hformed
    simp [layout, orNullLines_of_present hno.present, closes, ihn hformed.2, Instr.isReturn]
  | whileLoop _ _ _ => simp [layout, closes, Instr.isReturn]
  | forLoop _ _ _ _ _ => simp [layout, closes, Instr.isReturn]
  | foreachLoop _ _ _ _ _ => simp [layout, closes, Instr.isReturn]
  | block _ ihs =>
    exact closes_block fun n hn => ihs n hn (formedAll_iff.1 hformed n hn)
  | breakLoop | continueLoop => rfl
  | returnNothing => rfl
  | returnValue _ => simp [layout, closes, Instr.isReturn]
  | global _ => rfl

theorem afloatBody_cons (e : Int) (after : Bool) (node next : Node) (nodes : List Node) :
    afloatBody e after (node :: next :: nodes) = (afloat e node &&
      if node.isReturn then afloatBody (e + rise node) true (next :: nodes)
      else decide (0 < e + rise node) && afloatBody (e + rise node - 1) false (next :: nodes)) := by
  simp only [afloatBody]

theorem closes_of_isReturn (h : node.isReturn = true) : closes after node = true := by
  cases node with
  | returnValue expr => rfl
  | _ => cases h

/-- The statements of a body, the first of which comes after a `RETURN` or
not: what is left of their code keeps the sum up if they are afloat. -/
theorem exists_layoutBody (h : ∀ n ∈ nodes, IsStatement globals n)
    (hformed : ∀ n ∈ nodes, n.formed {} = true) :
    ∃ lines k, Bytecode.dropReturns after
        ((layoutBody scopes pos d x nodes).map Line.instr) = lines.map Line.instr ∧
      Tallies k (fun e => afloatBody e after nodes = true) lines := by
  induction nodes generalizing pos after with
  | nil =>
    refine ⟨[⟨.loadNull, d, .plain⟩], 1, by cases after <;> rfl, ?_⟩
    exact (Tallies.line (c := 1) rfl).of_iff rfl fun e he => iff_of_true (by omega) rfl
  | cons node nodes ih =>
    rw [forall_mem_cons] at h hformed
    have hcounted : Counted scopes node := h.1.counted hformed.1
    replace hcounted := hcounted pos d x
    have htidy : Tidy (.grammatical globals) (.statement none) node := h.1.tidy hformed.1 rfl
    have hspaced : Spaced after (layout scopes pos d x node) := htidy.calm.spaced pos d x after
    have hcloses : endsReturn after (layout scopes pos d x node) = closes after node :=
      h.1.closes_eq hformed.1
    cases nodes with
    | nil =>
      cases hreturn : node.isReturn with
      | true =>
        refine ⟨layout scopes pos d x node, _, ?_, hcounted.of_iff rfl fun e he => ?_⟩
        · rw [layoutBody, hreturn]
          simpa [lineIf] using hspaced.dropReturns_eq
        · simp [afloatBody, hreturn]
      | false =>
        refine ⟨layout scopes pos d x node ++ lineIf (!closes after node) .returnTop (d + 1), _, ?_,
          (hcounted.append (.lineIf (c := -1) rfl _)).of_iff rfl fun e he => ?_⟩
        · rw [layoutBody, hreturn, map_append, map_append]
          refine hspaced.dropReturns_snoc.trans ?_
          rw [hcloses]
          cases closes after node <;> rfl
        · have hup := hcounted.nonneg he
          cases hend : closes after node <;> simp [afloatBody, hreturn, hend] <;> omega
    | cons next nodes =>
      rw [layoutBody_cons]
      cases hreturn : node.isReturn with
      | true =>
        obtain ⟨lines, k, hlines, hrest⟩ := ih h.2 hformed.2
        refine ⟨layout scopes pos d x node ++ lines, _, ?_,
          (hcounted.append hrest).of_iff rfl fun e he => ?_⟩
        · rw [closes_of_isReturn hreturn] at hcloses
          simp only [Bool.not_true, lineIf, Bool.false_eq_true, if_false, append_nil,
            Bool.toNat_false, Nat.add_zero, map_append]
          rw [hspaced.dropReturns_append, hcloses, hlines]
        · rw [afloatBody_cons, hreturn, if_pos rfl, Bool.and_eq_true]
      | false =>
        obtain ⟨lines, k, hlines, hrest⟩ := @ih _ false h.2 hformed.2
        refine ⟨layout scopes pos d x node ++ ⟨.discardTop, d + 1, .plain⟩ :: lines, _, ?_,
          (hcounted.append (.cons (-1) rfl hrest)).of_iff rfl fun e he => ?_⟩
        · simp only [Bool.not_false, lineIf, if_true, Bool.toNat_true, map_append,
            append_assoc, map_cons]
          rw [hspaced.dropReturns_append]
          exact congrArg (_ ++ Instr.discardTop :: ·) hlines
        · rw [afloatBody_cons, hreturn, if_neg Bool.false_ne_true, Bool.and_eq_true,
            Bool.and_eq_true, decide_eq_true_eq]
          grind

theorem tallies_functions {functions : List Node}
    (h : ∀ f ∈ functions, ∃ name body scope, f = .function name body scope) :
    Tallies 0 (0 ≤ ·) (layoutAll scopes pos d 0 x functions) ∧
      endsReturn false (layoutAll scopes pos d 0 x functions) = false := by
  induction functions generalizing pos with
  | nil => exact ⟨.nil, rfl⟩
  | cons f functions ih =>
    rw [forall_mem_cons] at h
    obtain ⟨⟨name, body, scope, rfl⟩, hfunctions⟩ := h
    obtain ⟨hrest, hends⟩ := ih hfunctions
    exact ⟨(Tallies.cons 0 rfl hrest).of_iff rfl fun e he => by omega, hends⟩

end

theorem IsBody.estimated_iff (h : IsBody globals body)
    (hformed : body.formed {} = true) : Estimated scopes body ↔ body.afloat 0 = true := by
  rw [Estimated]
  cases h with
  | nothing => exact iff_of_true ⟨1, rfl⟩ rfl
  | @elements functions nodes hfunctions _ hnodes =>
    obtain ⟨hdeclared, hends⟩ := tallies_functions hfunctions
    obtain ⟨lines, k, hlines, hbody⟩ := exists_layoutBody hnodes (formedAll_iff.1 hformed)
    rw [layout, map_append,
      (spaced_functions hfunctions).dropReturns_append, hends, hlines,
      ← map_append, stackEstimate_iff, (hdeclared.append hbody).stays (Int.le_refl 0)]
    exact and_iff_right (Int.le_refl 0)

end Node

/-! ### Where nothing is missing -/

/-- `return` and `global` stand directly in bodies only. -/
def Rules.lasting : Rules where
  leaves _ := true

namespace Node

section

variable {globals : Bool} {y : Around} {p : Place} {node body : Node} {nodes : List Node}

theorem IsExpression.rise_pos (h : IsExpression node) (hsigned : node.signed = true) :
    0 < rise node := by
  have hlifts : Lifts (fun _ => {}) node := h.lifts hsigned
  exact hlifts.pos

theorem afloat_block (h : ∀ n ∈ nodes, ∀ e : Int, 0 ≤ e → n.afloat e = true ∧ 0 < n.rise)
    (he : 0 ≤ e) : afloatBlock e nodes = true ∧ 0 < riseBlock nodes := by
  induction nodes generalizing e with
  | nil => exact ⟨rfl, by decide⟩
  | cons node nodes ih =>
    rw [forall_mem_cons] at h
    obtain ⟨hafloat, hrise⟩ := h.1 e he
    cases nodes with
    | nil => exact ⟨hafloat, hrise⟩
    | cons next nodes =>
      obtain ⟨hafloat', hrise'⟩ := ih h.2 (show 0 ≤ e + node.rise - 1 by omega)
      rw [afloatBlock, riseBlock]
      · refine ⟨?_, by omega⟩
        simp only [hafloat, hafloat', Bool.and_eq_true, decide_eq_true_eq, and_true, true_and]
        omega
      · exact cons_ne_nil next nodes
      · exact cons_ne_nil next nodes

theorem IsStatement.afloat_of_tidy (h : IsStatement globals node) (hformed : node.formed y = true)
    (htidy : Tidy .lasting p node) (he : 0 ≤ e) :
    node.afloat e = true ∧ 0 < node.rise := by
  induction h generalizing y p e with
  | exprStatement hexpr | print hexpr => exact ⟨rfl, hexpr.rise_pos hformed⟩
  | @ifThen condition yes hcondition _ ih =>
    simp only [formed, Bool.and_eq_true] at hformed
    have hc := hcondition.rise_pos hformed.1.1
    cases htidy with
    | ifElse _ hyes hno => cases hno
    | ifThen _ hyes =>
      obtain ⟨hafloat, hrise⟩ := ih hformed.1.2 hyes (show 0 ≤ e + condition.rise - 1 by omega)
      exact ⟨by simp [afloat, hafloat], by simp only [rise]; omega⟩
  | @ifElse condition yes no hcondition _ hpresent ihy ihn =>
    simp only [formed, Bool.and_eq_true] at hformed
    have hc := hcondition.rise_pos hformed.1.1
    cases htidy with
    | ifThen _ _ => cases hpresent
    | ifElse _ hyes hno =>
      obtain ⟨hafloat, hrise⟩ := ihy hformed.1.2 hyes (show 0 ≤ e + condition.rise - 1 by omega)
      obtain ⟨hafloat', hrise'⟩ :=
        ihn hformed.2 hno (show 0 ≤ e + condition.rise - 1 + yes.rise by omega)
      exact ⟨by simp [afloat, hafloat, hafloat'], by simp only [rise]; omega⟩
  | @whileLoop condition body hcondition _ ih =>
    simp only [formed, Bool.and_eq_true] at hformed
    have hc := hcondition.rise_pos hformed.1
    cases htidy with
    | whileLoop _ hbody =>
      obtain ⟨hafloat, hrise⟩ := ih hformed.2 hbody (show 0 ≤ e + condition.rise by omega)
      refine ⟨?_, by simp only [rise]; omega⟩
      simp only [afloat, hafloat, Bool.true_and, decide_eq_true_eq]
      omega
  | @forLoop setup condition update body hsetup hcondition hupdate _ ih =>
    simp only [formed, Bool.and_eq_true] at hformed
    have hs := hsetup.rise_pos hformed.1.1.1
    have hc := hcondition.rise_pos hformed.1.1.2
    have hu := hupdate.rise_pos hformed.1.2
    cases htidy with
    | forLoop _ _ _ hbody =>
      obtain ⟨hafloat, hrise⟩ :=
        ih hformed.2 hbody (show 0 ≤ e + setup.rise + condition.rise - 2 by omega)
      exact ⟨by simp [afloat, hafloat], by simp only [rise]; omega⟩
  | @foreachLoop subject key value body hsubject _ _ _ ih =>
    simp only [formed, Bool.and_eq_true] at hformed
    have hs := hsubject.rise_pos hformed.1
    cases htidy with
    | foreachLoop _ _ _ hbody =>
      obtain ⟨hafloat, hrise⟩ := ih hformed.2 hbody (show 0 ≤ e + subject.rise + 1 by omega)
      exact ⟨by simp [afloat, hafloat], by simp only [rise]; omega⟩
  | block _ ihs =>
    cases htidy with
    | block hnodes =>
      exact afloat_block (fun n hn e he =>
        ihs n hn (formedAll_iff.1 hformed n hn) (hnodes n hn) he) he
  | breakLoop | continueLoop => exact ⟨rfl, by simp [rise]⟩
  | returnNothing | returnValue _ | global _ =>
    cases htidy <;> contradiction

theorem afloatBody_of_tidy (h : ∀ n ∈ nodes, IsStatement globals n)
    (hformed : ∀ n ∈ nodes, n.formed y = true) (htidy : ∀ n ∈ nodes, TidyElement .lasting n)
    (after : Bool) (he : 0 ≤ e) : afloatBody e after nodes = true := by
  induction nodes generalizing after e with
  | nil => rfl
  | cons node nodes ih =>
    rw [forall_mem_cons] at h hformed htidy
    have hnode : node.afloat e = true ∧
        (node.isReturn = true ∧ 0 ≤ node.rise ∨ node.isReturn = false ∧ 0 < node.rise) := by
      cases h.1 with
      | returnNothing => exact ⟨rfl, .inl ⟨rfl, by decide⟩⟩
      | returnValue hexpr =>
        have hpos := hexpr.rise_pos hformed.1
        exact ⟨rfl, .inl ⟨rfl, by simp only [rise]; omega⟩⟩
      | _ =>
        cases htidy.1 with
        | statement htidy =>
          obtain ⟨hafloat, hrise⟩ := h.1.afloat_of_tidy hformed.1 htidy he
          exact ⟨hafloat, .inr ⟨rfl, hrise⟩⟩
    obtain ⟨hafloat, ⟨hreturn, hrise⟩ | ⟨hreturn, hrise⟩⟩ := hnode
    · cases nodes with
      | nil => simp [afloatBody, hafloat, hreturn]
      | cons next nodes =>
        rw [afloatBody_cons, hafloat, hreturn, if_pos rfl, Bool.true_and]
        exact ih h.2 hformed.2 htidy.2 true (by omega)
    · have hup : decide (0 < e + node.rise) = true := decide_eq_true (by omega)
      cases nodes with
      | nil => simp [afloatBody, hafloat, hup]
      | cons next nodes =>
        rw [afloatBody_cons, hafloat, hreturn, if_neg Bool.false_ne_true, hup, Bool.true_and,
          Bool.true_and]
        exact ih h.2 hformed.2 htidy.2 false (by omega)

theorem IsBody.afloat_of_tidy (h : IsBody globals body) (hformed : body.formed {} = true)
    (htidy : TidyBody .lasting body) : body.afloat 0 = true := by
  cases h with
  | nothing => rfl
  | elements _ _ hnodes =>
    cases htidy with
    | elements _ _ helements =>
      exact afloatBody_of_tidy hnodes (formedAll_iff.1 hformed) helements false (Int.le_refl 0)

end

end Node

def Script.HasBody (s : Script) (f : Node) : Prop :=
  ∃ body scope, s.root = .program body scope ∧ body.HasBody f

/-- A grammatical program is compiled just if each of its bodies is formed as it
should be and stays afloat.  It stays afloat if `return` and `global` stand
directly in bodies only. -/
theorem compiles_iff_afloat {tree : Tree} (htree : tree.Program true) {s : Script}
    (hread : Script.ofTree tree = .ok s) (name : String) :
    ((∃ b, s.compile name = .ok b) ↔
      ∀ body, s.HasBody body → body.formed {} = true ∧ body.afloat 0 = true) ∧
    ∀ body, s.HasBody body → body.formed {} = true → body.TidyBody .lasting →
      body.afloat 0 = true := by
  obtain ⟨main, scope, hroot, hmain⟩ := htree.isBody hread
  have hbodies : ∀ {body}, s.HasBody body ↔ main.HasBody body := by
    intro body
    refine ⟨fun ⟨_, _, heq, hbody⟩ => ?_, fun hbody => ⟨main, scope, hroot, hbody⟩⟩
    rw [hroot] at heq
    cases heq
    exact hbody
  refine ⟨?_, fun body hbody hformed htidy => ?_⟩
  · rw [s.compiles_iff hroot hmain]
    refine forall_congr' fun body => ⟨fun h hbody => ?_, fun h hbody => ?_⟩
    · have hbody' := hmain.of_hasBody (hbodies.1 hbody)
      exact (h (hbodies.1 hbody)).imp_right (hbody'.estimated_iff (h (hbodies.1 hbody)).1).1
    · have hbody' := hmain.of_hasBody hbody
      exact (h (hbodies.2 hbody)).imp_right (hbody'.estimated_iff (h (hbodies.2 hbody)).1).2
  · exact (hmain.of_hasBody (hbodies.1 hbody)).afloat_of_tidy hformed htidy

open Sample

/-- `return 1;` in a loop, directly or under a condition. -/
def returnLoop (condition : Option Tree) : Tree :=
  let leave : Tree := .branch "returnstatement" [numeral "1"]
  let body := match condition with
    | none => leave
    | some condition => .branch "ifstatement" [condition, blockTree [leave]]
  programTree [whileLoopTree (truthLiteral "true") (blockTree [body])]

theorem program_returnLoop {condition : Option Tree} (h : ∀ c ∈ condition, c.Expression) :
    (returnLoop condition).Program true := by
  have hone : ∀ t ∈ [numeral "1"], t.Expression := by simpa using .number
  have hblock : ∀ {t : Tree}, t.Statement true → (blockTree [t]).Statement true := fun ht =>
    .block (by simpa using ht)
  refine .main ?_
  simp only [forall_mem_cons]
  refine ⟨.statement (.whileLoop (.word (by decide)) (hblock ?_)), by simp⟩
  cases condition with
  | none => exact .returnValue hone
  | some c => exact .ifThen (h c rfl) (hblock (.returnValue hone))

/-- Under a condition the null of the other case is counted as well. -/
theorem compiles_iff_afloat_condition :
    ∃ s b, Script.ofTree (returnLoop (some (truthLiteral "true"))) = .ok s ∧
      s.compile "main" = .ok b ∧
      ∀ body, s.HasBody body → body.formed {} = true ∧ body.afloat 0 = true := by
  have htree : (returnLoop (some (truthLiteral "true"))).Program true :=
    program_returnLoop (by simpa using .word (by decide))
  obtain ⟨s, hread, b, hcompile, -⟩ : (returnLoop (some (truthLiteral "true"))).ComesTo {} {} 0
      fun _ _ _ => True := by decide +kernel
  exact ⟨s, b, hread, hcompile, (compiles_iff_afloat htree hread "main").1.1 ⟨b, hcompile⟩⟩

/-- Whether a script without functions is formed as it should be, and refused
for its estimate. -/
def Script.sinks (s : Script) : Bool :=
  match s.root, s.compile "main" with
  | .program (.sourceElements [] nodes) _, .error .checkFailed => Node.formedAll {} nodes
  | _, _ => false

theorem Script.sinks_spec {s : Script} (h : s.sinks = true) :
    (∀ body, s.HasBody body → body.formed {} = true) ∧ s.compile "main" = .error .checkFailed := by
  unfold sinks at h
  split at h
  · rename_i nodes scope hroot hcompile
    refine ⟨?_, hcompile⟩
    rintro body ⟨main, scope', heq, hbody⟩
    cases hroot.symm.trans heq
    cases hbody with
    | own => exact h
    | declared hmem _ => cases hmem
  · cases h

/-- Without it nothing is counted for the body of the loop, and the program is
refused. -/
theorem return_in_loop_refused :
    (returnLoop none).Program true ∧ ∃ s, Script.ofTree (returnLoop none) = .ok s ∧
      (∀ body, s.HasBody body → body.formed {} = true) ∧
      s.compile "main" = .error .checkFailed := by
  obtain ⟨s, hread, hsinks⟩ : ∃ s, Script.ofTree (returnLoop none) = .ok s ∧ s.sinks = true := by
    decide +kernel
  exact ⟨program_returnLoop nofun, s, hread, Script.sinks_spec hsinks⟩

end PageScript
