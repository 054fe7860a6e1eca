/-
One induction for all that is shown of reading.

A discipline (`Reading.Discipline`) is what is asked of actions: of one and of another
that does the same with renumbered scopes.  It is closed under sequencing and says
something of variables, constants and declarations; from this comes one lemma per rule
of the grammar, up to `Discipline.obeys_rule`.  Lists of statements and functions are
left to each discipline.
-/
import PageScript.Proofs.Reading

namespace PageScript

open List

namespace Node

/-- The nodes right below a node that belong to the same scope.  The bodies of
programs and functions have scopes of their own. -/
def parts : Node → List Node
  | .sourceElements functions nodes => functions ++ nodes
  | .exprStatement expr => [expr]
  | .call callee arguments => [callee, arguments]
  | .argumentList nodes => nodes
  | .array nodes => nodes
  | .global nodes => nodes
  | .member base index => [base, index]
  | .interpolation _ parts _ => parts
  | .assignment _ _ right _ _ => [right]
  | .memberAssignment base index right _ _ => [base, index, right]
  | .breakLoop count => [count]
  | .continueLoop count => [count]
  | .ifElse condition thenBranch elseBranch => [condition, thenBranch, elseBranch]
  | .whileLoop condition body => [condition, body]
  | .forLoop setup condition update body => [setup, condition, update, body]
  | .foreachLoop subject key value body => [subject, key, value, body]
  | .print expr => [expr]
  | .returnValue expr => [expr]
  | .block nodes => nodes
  | .binary _ left right => [left, right]
  | .not expr => [expr]
  | .both left right => [left, right]
  | .either left right => [left, right]
  | _ => []

theorem sizeOf_lt_of_mem_parts {m n : Node} (h : m ∈ n.parts) : sizeOf m < sizeOf n := by
  cases n with
  | sourceElements functions nodes =>
    rcases mem_append.1 h with h | h
    all_goals
      have hlt := sizeOf_lt_of_mem h
      rw [sourceElements.sizeOf_spec]
      omega
  | argumentList nodes | array nodes | global nodes | block nodes | interpolation _ nodes _ =>
    have hlt : sizeOf m < sizeOf nodes := sizeOf_lt_of_mem h
    simp
    omega
  | _ =>
    simp only [parts, mem_cons, not_mem_nil, or_false] at h <;>
      rcases h with rfl | rfl | rfl | rfl <;> simp <;> omega

/-- Induction over the parts of a node. -/
theorem induction_on_parts {P : Node → Prop} (step : ∀ n, (∀ m ∈ n.parts, P m) → P n) (n : Node) :
    P n :=
  step n fun m _ => induction_on_parts step m
termination_by sizeOf n
decreasing_by exact sizeOf_lt_of_mem_parts ‹m ∈ n.parts›

/-- A node that is as good as its parts: it has no place in a scope, and no
scope of its own. -/
def isBare : Node → Bool
  | .program _ _ | .function _ _ _ | .variable _ _ | .assignment _ _ _ _ _ => false
  | .constantInt _ _ | .constantFloat _ _ | .constantText _ _ | .interpolation _ _ _ => false
  | _ => true

mutual

/-- A node whose programs and functions have other numbers for their scopes. -/
def rescoped (f : Nat → Nat) : Node → Node
  | .sourceElements functions nodes =>
    .sourceElements (rescopedAll f functions) (rescopedAll f nodes)
  | .program body scope => .program (rescoped f body) (f scope)
  | .exprStatement expr => .exprStatement (rescoped f expr)
  | .function name body scope => .function name (rescoped f body) (f scope)
  | .call callee arguments => .call (rescoped f callee) (rescoped f arguments)
  | .argumentList nodes => .argumentList (rescopedAll f nodes)
  | .array nodes => .array (rescopedAll f nodes)
  | .global nodes => .global (rescopedAll f nodes)
  | .member base index => .member (rescoped f base) (rescoped f index)
  | .interpolation text parts place => .interpolation text (rescopedAll f parts) place
  | .assignment name slot right operator post =>
    .assignment name slot (rescoped f right) operator post
  | .memberAssignment base index right operator post =>
    .memberAssignment (rescoped f base) (rescoped f index) (rescoped f right) operator post
  | .breakLoop count => .breakLoop (rescoped f count)
  | .continueLoop count => .continueLoop (rescoped f count)
  | .ifElse condition thenBranch elseBranch =>
    .ifElse (rescoped f condition) (rescoped f thenBranch) (rescoped f elseBranch)
  | .whileLoop condition body => .whileLoop (rescoped f condition) (rescoped f body)
  | .forLoop setup condition update body =>
    .forLoop (rescoped f setup) (rescoped f condition) (rescoped f update) (rescoped f body)
  | .foreachLoop subject key value body =>
    .foreachLoop (rescoped f subject) (rescoped f key) (rescoped f value) (rescoped f body)
  | .print expr => .print (rescoped f expr)
  | .returnValue expr => .returnValue (rescoped f expr)
  | .block nodes => .block (rescopedAll f nodes)
  | .binary op left right => .binary op (rescoped f left) (rescoped f right)
  | .not expr => .not (rescoped f expr)
  | .both left right => .both (rescoped f left) (rescoped f right)
  | .either left right => .either (rescoped f left) (rescoped f right)
  | .identifier name => .identifier name
  | .namedConstant name => .namedConstant name
  | .constantInt value place => .constantInt value place
  | .constantFloat value place => .constantFloat value place
  | .constantText text place => .constantText text place
  | .boolean value => .boolean value
  | .null => .null
  | .variable name slot => .variable name slot
  | .empty => .empty
  | .emptyExpression => .emptyExpression
  | .absent => .absent
  | .foreign tree => .foreign tree

def rescopedAll (f : Nat → Nat) : List Node → List Node
  | [] => []
  | node :: nodes => rescoped f node :: rescopedAll f nodes

end

variable {f : Nat → Nat}

theorem rescopedAll_eq_map (nodes : List Node) : rescopedAll f nodes = nodes.map (rescoped f) := by
  induction nodes with
  | nil => rfl
  | cons node nodes ih => rw [rescopedAll, ih, map_cons]

theorem literal?_rescoped (node : Node) : (node.rescoped f).literal? = node.literal? := by
  cases node <;> rfl

theorem isReturn_rescoped (node : Node) : (node.rescoped f).isReturn = node.isReturn := by
  cases node <;> rfl

end Node

namespace Reading

open Node (rescoped rescopedAll)

section

variable {f : Nat → Nat}

theorem binary?_rescoped (op : String) (left right : Node) :
    binary? op (left.rescoped f) (right.rescoped f) = (binary? op left right).map (rescoped f) := by
  unfold binary?
  split <;> rfl

theorem orEmpty_rescoped (node : Node) : orEmpty (node.rescoped f) = (orEmpty node).rescoped f := by
  cases node <;> rfl

theorem orTrue_rescoped (node : Node) : orTrue (node.rescoped f) = (orTrue node).rescoped f := by
  cases node <;> rfl

end

/-! ### Disciplines -/

/-- What is asked of reading.  `Does g P x x'` is asked of an action `x` that
gives results with the property `P` and of an action `x'` that does the same,
with its result renumbered by `g`.  A node that is read is to be `Good` in the
scopes of the script. -/
structure Discipline where
  renumber : Nat → Nat
  Good : (Nat → Scope) → Node → Prop
  Does {α : Type} : (α → α) → ((Nat → Scope) → α → Prop) → Reading α → Reading α → Prop
  pure {α : Type} {g : α → α} {P : (Nat → Scope) → α → Prop} (a : α) :
    (∀ scopes, P scopes a) → Does g P (Pure.pure a) (Pure.pure (g a))
  throw {α : Type} {g : α → α} {P : (Nat → Scope) → α → Prop} (fault : Fault) :
    Does g P (throw fault) (throw fault)
  -- What is read first may be used to show what the whole has.
  bind {α β : Type} {g : α → α} {h : β → β} {P : (Nat → Scope) → α → Prop}
    {Q : (Nat → Scope) → β → Prop} {x x' : Reading α} {k k' : α → Reading β} :
    Does g P x x' → (∀ a, Does h (fun s b => P s a → Q s b) (k a) (k' (g a))) →
      Does h Q (x >>= k) (x' >>= k')
  imp {α : Type} {g : α → α} {P P' : (Nat → Scope) → α → Prop} {x x' : Reading α} :
    Does g P x x' → (∀ s a, P s a → P' s a) → Does g P' x x'
  global (name : String) :
    Does id (fun _ _ => True) (declare (·.addGlobal name)) (declare (·.addGlobal name))
  parameter (name : String) (byValue : Bool) :
    Does id (fun _ _ => True) (declare (·.addParameter name byValue))
      (declare (·.addParameter name byValue))
  variable_ (name : String) : Does (rescoped renumber) Good (readVariable name) (readVariable name)
  number (own : String) (parts : List Part) :
    Does (rescoped renumber) Good (readNumber own parts) (readNumber own parts)
  text (literal : String) : Does (rescoped renumber) Good (readText literal) (readText literal)
  good {scopes : Nat → Scope} {n : Node} :
    n.isBare → (∀ p ∈ n.parts, Good scopes p) → Good scopes n
  part {scopes : Nat → Scope} {n p : Node} : Good scopes n → p ∈ n.parts → Good scopes p
  assigned {scopes : Nat → Scope} {name : String} {slot : Int} {right : Node} {op : String}
    {post : Bool} : Good scopes (.variable name slot) → Good scopes right →
      Good scopes (.assignment name slot right op post)

namespace Discipline

variable {D : Discipline} {α : Type} {g : α → α} {P : (Nat → Scope) → α → Prop}
  {scopes : Nat → Scope} {parts : List Part}

attribute [local simp] Node.parts

/-- An action that reads a good node, and reads it renumbered too. -/
def Obeys (D : Discipline) (x : Reading Node) : Prop := D.Does (rescoped D.renumber) D.Good x x

theorem child {i : Nat} {k k' : Part → Reading α}
    (hk : ∀ p, parts[i]? = some p → D.Does g P (k p) (k' p)) :
    D.Does g P (child parts i >>= k) (child parts i >>= k') := by
  unfold Reading.child
  cases hp : parts[i]? with
  | none => exact D.throw _
  | some p => exact hk p hp

theorem literal (node : Node) :
    D.Does id (fun _ _ => True) (literal node) (literal (node.rescoped D.renumber)) := by
  unfold Reading.literal
  rw [Node.literal?_rescoped]
  cases node.literal? with
  | none => exact D.throw _
  | some name => exact D.pure name fun _ => trivial

theorem good_leaf {n : Node} (hbare : n.isBare) (hparts : n.parts = []) : D.Good scopes n :=
  D.good hbare (by rw [hparts]; exact forall_mem_nil _)

theorem good_absent : D.Good scopes .absent := good_leaf rfl rfl

theorem good_ifElse {condition yes no : Node} (hcondition : D.Good scopes condition)
    (hyes : D.Good scopes yes) (hno : D.Good scopes no) :
    D.Good scopes (.ifElse condition yes no) :=
  D.good rfl (by simpa using ⟨hcondition, hyes, hno⟩)

theorem good_orEmpty {n : Node} (h : D.Good scopes n) : D.Good scopes (orEmpty n) := by
  unfold orEmpty
  split
  · exact good_leaf rfl rfl
  · exact h

theorem good_orTrue {n : Node} (h : D.Good scopes n) : D.Good scopes (orTrue n) := by
  unfold orTrue
  split
  · exact good_leaf rfl rfl
  · exact good_leaf rfl rfl
  · exact h

theorem good_binary {op : String} {left right node : Node}
    (h : binary? op left right = some node) (hleft : D.Good scopes left)
    (hright : D.Good scopes right) : D.Good scopes node := by
  have hboth : ∀ n ∈ [left, right], D.Good scopes n := by simpa using ⟨hleft, hright⟩
  unfold binary? at h
  split at h <;> cases h <;> exact D.good rfl hboth

theorem does_assign (left right : Node) (op : String) (post : Bool) :
    D.Does (rescoped D.renumber)
      (fun s n => D.Good s left → D.Good s right → D.Good s n) (assign left right op post)
      (assign (left.rescoped D.renumber) (right.rescoped D.renumber) op post) := by
  have hempty : ∀ s, D.Good s .empty := fun _ => good_leaf rfl rfl
  cases left with
  | «variable» name slot =>
    cases right with
    | absent =>
      exact D.pure (Node.assignment name slot .empty op post) fun s hl _ => D.assigned hl (hempty s)
    | _ => exact D.pure (Node.assignment name slot _ op post) fun s hl hr => D.assigned hl hr
  | member base index =>
    have hmember : ∀ s right, D.Good s (.member base index) → D.Good s right →
        D.Good s (.memberAssignment base index right op post) := fun s right hl hr =>
      D.good rfl (by simpa using
        ⟨D.part (p := base) hl (by simp), D.part (p := index) hl (by simp), hr⟩)
    cases right with
    | absent =>
      exact D.pure (Node.memberAssignment base index .empty op post) fun s hl _ =>
        hmember s .empty hl (hempty s)
    | _ =>
      exact D.pure (Node.memberAssignment base index _ op post) fun s hl hr => hmember s _ hl hr
  | _ => exact D.throw _

theorem does_declareGlobals (nodes : List Node) :
    D.Does id (fun _ _ => True) (declareGlobals nodes)
      (declareGlobals (rescopedAll D.renumber nodes)) := by
  induction nodes with
  | nil => exact D.pure () fun _ => trivial
  | cons node nodes ih =>
    refine D.bind (literal node) fun name => D.bind (D.global name) fun _ => ?_
    exact D.imp ih fun _ _ _ _ _ => trivial

theorem obeys_literal (parts : List Part) : D.Obeys (readLiteral parts) := by
  refine child fun word _ => ?_
  split
  · exact D.pure (Node.boolean true) fun _ => good_leaf rfl rfl
  · split
    · exact D.pure (Node.boolean false) fun _ => good_leaf rfl rfl
    · exact D.pure Node.null fun _ => good_leaf rfl rfl

theorem does_parameters (hbelow : ∀ p ∈ parts, ∀ q ∈ p.children, D.Obeys q.read) :
    D.Does id (fun _ _ => True) (readParameters parts) (readParameters parts) := by
  induction parts with
  | nil => exact D.pure () fun _ => trivial
  | cons p parts ih =>
    refine child fun first _ => ?_
    refine D.bind (child fun q hq => hbelow p mem_cons_self q (mem_of_getElem? hq))
      fun variable_ => ?_
    refine D.bind (literal variable_) fun name => D.bind (D.parameter name _) fun _ => ?_
    exact D.imp (ih fun q hq => hbelow q (mem_cons_of_mem _ hq)) fun _ _ _ _ _ _ => trivial

/-! ### Rules -/

section

variable (hparts : ∀ p ∈ parts, D.Obeys p.read)

include hparts

theorem obeys_child (i : Nat) : D.Obeys (readChild parts i) :=
  child fun p hp => hparts p (mem_of_getElem? hp)

theorem obeys_drop (n : Nat) : ∀ p ∈ parts.drop n, D.Obeys p.read :=
  fun p hp => hparts p (mem_of_mem_drop hp)

theorem does_all : D.Does (rescopedAll D.renumber) (fun s nodes => ∀ n ∈ nodes, D.Good s n)
    (readAll parts) (readAll parts) := by
  induction parts with
  | nil => exact D.pure [] fun _ => nofun
  | cons p parts ih =>
    refine D.bind (hparts p mem_cons_self) fun node => ?_
    refine D.bind (ih fun q hq => hparts q (mem_cons_of_mem _ hq)) fun nodes => ?_
    exact D.pure (node :: nodes) fun s hnodes hnode => forall_mem_cons.2 ⟨hnode, hnodes⟩

theorem does_nextExpr (i : Nat) :
    D.Does (fun result => (result.1.rescoped D.renumber, result.2))
      (fun s result => D.Good s result.1) (nextExpr parts i) (nextExpr parts i) := by
  refine child fun p hp => ?_
  split
  · exact D.pure (Node.absent, i + 1) fun s => good_absent
  · exact D.bind (hparts p (mem_of_getElem? hp)) fun node =>
      D.pure (node, i + 2) fun s hnode => hnode

theorem does_operands (left : Node) :
    D.Does (rescoped D.renumber) (fun s n => D.Good s left → D.Good s n) (readOperands left parts)
      (readOperands (left.rescoped D.renumber) parts) := by
  fun_induction readOperands left parts with
  | case1 left op operand rest ih =>
    refine D.bind (hparts operand (by simp)) fun right => ?_
    rw [binary?_rescoped]
    cases hnode : binary? op.text left right with
    | none => exact D.throw _
    | some node =>
      refine D.imp (ih node fun p hp => hparts p (by simp [hp])) fun s n hn hright hleft => ?_
      exact hn (good_binary hnode hleft hright)
  | case2 parts left hother =>
    have hpure : readOperands (left.rescoped D.renumber) parts
        = Pure.pure (left.rescoped D.renumber) := by
      unfold readOperands
      split
      · exact absurd rfl (hother _ _ _)
      · rfl
    rw [hpure]
    exact D.pure left fun s => id

theorem obeys_binary : D.Obeys (readBinary parts) :=
  D.bind (obeys_child hparts 0) fun left => does_operands (obeys_drop hparts 1) left

theorem obeys_unary : D.Obeys (readUnary parts) := by
  refine child fun op _ => D.bind (obeys_child hparts 1) fun operand => ?_
  split
  · exact D.imp (does_assign operand .absent _ _) fun s n h hoperand => h hoperand good_absent
  · split
    · exact D.pure (Node.not operand) fun s h => D.good rfl (forall_mem_singleton.2 h)
    · exact D.throw _

theorem obeys_postfix : D.Obeys (readPostfix parts) :=
  child fun _ _ => D.bind (obeys_child hparts 0) fun operand =>
    D.imp (does_assign operand .absent _ _) fun _ _ h hoperand => h hoperand good_absent

theorem obeys_assignment : D.Obeys (readAssignment parts) :=
  D.bind (obeys_child hparts 0) fun left => child fun _ _ =>
    D.bind (obeys_child hparts 2) fun right =>
    D.imp (does_assign left right _ _) fun _ _ h hright hleft => h hleft hright

theorem does_calls (callee : Node) :
    D.Does (rescoped D.renumber) (fun s n => D.Good s callee → D.Good s n) (readCalls callee parts)
      (readCalls (callee.rescoped D.renumber) parts) := by
  induction parts generalizing callee with
  | nil => exact D.pure callee fun s => id
  | cons p parts ih =>
    unfold readCalls
    split
    · exact D.throw _
    · refine D.bind (hparts p mem_cons_self) fun arguments => ?_
      refine D.imp (ih (fun q hq => hparts q (mem_cons_of_mem _ hq)) (.call callee arguments))
        fun s n h harguments hcallee => h (D.good rfl ?_)
      simpa using ⟨hcallee, harguments⟩

theorem obeys_call : D.Obeys (readCall parts) :=
  D.bind (obeys_child hparts 0) fun callee => does_calls (obeys_drop hparts 1) callee

theorem obeys_if : D.Obeys (readIf parts) := by
  refine D.bind (obeys_child hparts 0) fun condition => ?_
  refine D.bind (obeys_child hparts 1) fun yes => ?_
  split
  · exact D.bind (obeys_child hparts 2) fun no => D.pure (Node.ifElse condition yes no)
      fun s hno hyes hcondition => good_ifElse hcondition hyes hno
  · exact D.pure (Node.ifElse condition yes .absent)
      fun s hyes hcondition => good_ifElse hcondition hyes good_absent

theorem obeys_conditional : D.Obeys (readConditional parts) :=
  D.bind (obeys_child hparts 0) fun condition => D.bind (obeys_child hparts 2) fun yes =>
    D.bind (obeys_child hparts 3) fun no => D.pure (Node.ifElse condition yes no)
      fun _ hno hyes hcondition => good_ifElse hcondition hyes hno

theorem obeys_while : D.Obeys (readWhile parts) := by
  refine child fun word _ => ?_
  split
  · refine D.bind (obeys_child hparts 1) fun condition => ?_
    refine D.bind (obeys_child hparts 2) fun body => ?_
    exact D.pure (Node.whileLoop condition body)
      fun s hbody hcondition => D.good rfl (by simpa using ⟨hcondition, hbody⟩)
  · exact D.throw _

theorem obeys_for : D.Obeys (readFor parts) := by
  refine D.bind (does_nextExpr hparts 1) fun (setup, i) =>
    D.bind (does_nextExpr hparts i) fun (condition, i) =>
    D.bind (does_nextExpr hparts i) fun (update, i) =>
    D.bind (does_nextExpr hparts i) fun (body, _) => ?_
  dsimp only
  rw [orEmpty_rescoped, orTrue_rescoped, orEmpty_rescoped, orEmpty_rescoped]
  refine D.pure (Node.forLoop (orEmpty setup) (orTrue condition) (orEmpty update) (orEmpty body))
    fun s hbody hupdate hcondition hsetup => D.good rfl ?_
  simpa using ⟨good_orEmpty hsetup, good_orTrue hcondition, good_orEmpty hupdate,
    good_orEmpty hbody⟩

theorem obeys_foreach : D.Obeys (readForeach parts) :=
  D.bind (obeys_child hparts 1) fun subject => D.bind (obeys_child hparts 2) fun value =>
    D.bind (obeys_child hparts 3) fun body => D.pure (Node.foreachLoop subject .absent value body)
      fun s hbody hvalue hsubject =>
        D.good rfl (by simpa using ⟨hsubject, good_absent, hvalue, hbody⟩)

theorem obeys_keyForeach : D.Obeys (readKeyForeach parts) :=
  D.bind (obeys_child hparts 1) fun subject => D.bind (obeys_child hparts 2) fun key =>
    D.bind (obeys_child hparts 3) fun value => D.bind (obeys_child hparts 4) fun body =>
    D.pure (Node.foreachLoop subject key value body) fun s hbody hvalue hkey hsubject =>
      D.good rfl (by simpa using ⟨hsubject, hkey, hvalue, hbody⟩)

theorem obeys_first : D.Obeys (readFirst parts) := by
  unfold readFirst
  split
  · exact D.pure Node.absent fun s => good_absent
  · exact obeys_child hparts 0

theorem does_statements :
    D.Does (rescopedAll D.renumber) (fun s nodes => ∀ n ∈ nodes, D.Good s n)
      (readStatements parts) (readStatements parts) := by
  induction parts with
  | nil => exact D.pure [] fun _ => nofun
  | cons p parts ih =>
    have hrest := ih fun q hq => hparts q (mem_cons_of_mem _ hq)
    refine D.bind (hparts p mem_cons_self) fun node => ?_
    cases node with
    | absent => exact D.imp hrest fun _ _ h _ => h
    | global nodes =>
      exact D.bind (does_declareGlobals nodes) fun _ => D.imp hrest fun _ _ h _ _ => h
    | _ =>
      exact D.bind hrest fun nodes => D.pure (_ :: nodes) fun s hnodes hnode =>
        forall_mem_cons.2 ⟨hnode, hnodes⟩

theorem does_definition :
    D.Does (fun definition => (definition.1.rescoped D.renumber, definition.2.rescoped D.renumber))
      (fun s definition => D.Good s definition.2) (readDefinition parts) (readDefinition parts) :=
  D.bind (does_nextExpr hparts 0) fun (identifier, i) =>
    D.bind (does_nextExpr hparts i) fun (_, i) => D.bind (does_nextExpr hparts i) fun (body, _) =>
    D.pure (identifier, body) fun _ hbody _ _ => hbody

/-- The rule of every symbol that neither opens a scope nor a list of
statements. -/
theorem obeys_rule {tree : Tree} (hmain : tree.symbol ≠ "main")
    (hlist : tree.symbol ≠ "sourceelements") (hfunction : tree.symbol ≠ "functiondeclaration")
    (hbelow : ∀ p ∈ parts, ∀ q ∈ p.children, D.Obeys q.read) : D.Obeys (rule tree parts) := by
  have hrest := does_all (obeys_drop hparts 1)
  have hone : ∀ {s : Nat → Scope} {n : Node}, D.Good s n → ∀ p ∈ [n], D.Good s p :=
    forall_mem_singleton.2
  unfold rule
  split
  case h_1 h => exact absurd h hmain
  case h_2 =>
    exact D.bind hrest fun nodes => D.pure (Node.argumentList nodes) fun _ h => D.good rfl h
  case h_3 h => exact absurd h hlist
  case h_4 h => exact absurd h hfunction
  case h_5 =>
    exact D.bind (does_parameters hbelow) fun _ => D.pure Node.absent fun _ _ => good_absent
  case h_16 => exact obeys_unary hparts
  case h_17 | h_18 => exact obeys_literal parts
  case h_19 => exact D.number _ parts
  case h_20 =>
    exact D.bind (obeys_child hparts 0) fun n => D.pure (Node.exprStatement n) fun _ h =>
      D.good rfl (hone h)
  case h_21 =>
    exact D.bind (obeys_child hparts 1) fun n => D.pure (Node.print n) fun _ h =>
      D.good rfl (hone h)
  case h_22 =>
    exact child fun names hnames => D.bind (does_all (hbelow names (mem_of_getElem? hnames)))
      fun nodes => D.pure (Node.global nodes) fun _ h => D.good rfl h
  case h_23 => exact child fun p _ => D.pure (Node.namedConstant p.text) fun s => good_leaf rfl rfl
  case h_24 => exact obeys_call hparts
  case h_25 => exact obeys_postfix hparts
  case h_26 => exact D.bind hrest fun nodes => D.pure (Node.array nodes) fun _ h => D.good rfl h
  case h_27 => exact D.bind hrest fun nodes => D.pure (Node.block nodes) fun _ h => D.good rfl h
  case h_28 => exact obeys_assignment hparts
  case h_29 => exact obeys_if hparts
  case h_30 => exact obeys_conditional hparts
  case h_31 => exact obeys_child hparts 0
  case h_32 => exact obeys_while hparts
  case h_33 => exact obeys_for hparts
  case h_34 => exact obeys_foreach hparts
  case h_35 => exact obeys_keyForeach hparts
  case h_36 =>
    exact D.bind (obeys_first hparts) fun n => D.pure (Node.breakLoop n) fun _ h =>
      D.good rfl (hone h)
  case h_37 =>
    exact D.bind (obeys_first hparts) fun n => D.pure (Node.continueLoop n) fun _ h =>
      D.good rfl (hone h)
  case h_38 =>
    exact D.bind (obeys_first hparts) fun n => D.pure (Node.returnValue n) fun _ h =>
      D.good rfl (hone h)
  case h_39 => exact D.pure (Node.identifier tree.text) fun s => good_leaf rfl rfl
  case h_40 => exact D.variable_ _
  case h_41 | h_42 => exact D.text _
  case h_43 => exact D.pure (Node.foreign tree) fun s => good_leaf rfl rfl
  all_goals exact obeys_binary hparts

end

end Discipline

end Reading

end PageScript
