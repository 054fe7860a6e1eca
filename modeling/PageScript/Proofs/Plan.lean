/-
What compiling comes to, as a list.

Compiling never chooses: it emits one item after another until something is refused.
`Node.plan` lists all that it comes to.  It has no stacks of open loops; the labels of the
loops around a node are handed down to it (`Aims`).

Compiling does what the plan says and leaves the stacks as they were
(`Node.compile_follows`), and a body becomes the code that its plan gives
(`Emit.Follows.assembleBody_eq`).
-/
import PageScript.Code.OfNode

open EStateM (Result)

namespace PageScript

/-- Something that compiling comes to. -/
inductive Stop where
  | item (i : Item)
  /-- A `break`: the end of the innermost loop whose body it is in, and the label that it
  goes to. -/
  | leave (loop finish : Option Int)
  /-- A `continue`: the same loop, whether a loop was started, and the label. -/
  | goOn (loop : Option Int) (started : Bool) (next : Option Int)
  | refusal (fault : Fault)
  /-- A stop in the body of a function, which has code of its own. -/
  | inner (s : Stop)

/-- The items that are emitted at a stop, or why there are none. -/
def Stop.outcome : Stop → Except Fault (List Item)
  | .item i => .ok [i]
  | .leave _ (some n) => .ok [.instr (.jump .always n)]
  | .leave _ none => .error (.complaint .breakOutsideLoop)
  | .goOn _ false _ => .error (.complaint .continueOutsideLoop)
  | .goOn _ true (some n) => .ok [.instr (.jump .always n)]
  | .goOn _ true none => .error .outOfRange
  | .refusal fault => .error fault
  | .inner s => s.outcome.map fun _ => []

/-- The items that are emitted at all of some stops; the first refusal counts. -/
def emitted : List Stop → Except Fault (List Item)
  | [] => .ok []
  | s :: stops => do
    let items ← s.outcome
    return items ++ (← emitted stops)

theorem emitted_append (xs ys : List Stop) :
    emitted (xs ++ ys) = emitted xs >>= fun is => (emitted ys).map (is ++ ·) := by
  induction xs with
  | nil =>
    show emitted ys = (emitted ys).map ([] ++ ·)
    cases emitted ys <;> rfl
  | cons x xs ih =>
    rw [List.cons_append, emitted, emitted, ih]
    cases x.outcome with
    | error e => rfl
    | ok is =>
      cases emitted xs with
      | error e => rfl
      | ok js => cases emitted ys <;> simp [bind, Except.bind, pure, Except.pure, Except.map]

theorem emitted_inner (stops : List Stop) :
    emitted (stops.map .inner) = (emitted stops).map fun _ => [] := by
  induction stops with
  | nil => rfl
  | cons s stops ih =>
    rw [List.map_cons, emitted, emitted, ih, Stop.outcome]
    cases s.outcome with
    | error e => rfl
    | ok is => cases emitted stops <;> rfl

/-- Where `break` and `continue` go. -/
structure Aims where
  /-- The end of the innermost loop whose body this is in. -/
  loop : Option Int := none
  started : Bool := false
  finish : Option Int := none
  next : Option Int := none

/-- From the next free label the stops and the label that is free after them. -/
abbrev Plan := Int → List Stop × Int

namespace Plan

def nothing : Plan := fun n => ([], n)

def stop (s : Stop) : Plan := fun n => ([s], n)

def emit (i : Instr Int Bytecode) : Plan := stop (.item (.instr i))

def emitWhen (condition : Bool) (i : Instr Int Bytecode) : Plan :=
  if condition then emit i else nothing

def refuse (fault : Fault) : Plan := stop (.refusal fault)

instance : Append Plan where
  append p q n := ((p n).1 ++ (q (p n).2).1, (q (p n).2).2)

def fresh (f : Int → Plan) : Plan := fun n => f n (n + 1)

def mark (n : Int) : Plan := stop (.item (.label n))

/-- The label -1 asks for a fresh one. -/
def label (n : Int) : Plan := if n = -1 then fresh mark else mark n

def operation (operator : String) : Plan :=
  match Node.operation? operator with
  | some i => emit i
  | none => refuse .checkFailed

def target : Node → Plan
  | .variable name slot => emit (.assign slot name) ++ emit .discardTop
  | _ => refuse (.complaint .foreachTarget)

def key : Node → Plan
  | .absent => emit .discardTop
  | node => target node

def noCount : Node → Plan
  | .absent => nothing
  | _ => refuse .checkFailed

def call (arguments : Node) : Plan :=
  match arguments.nodes? with
  | some nodes => emit (.call nodes.length)
  | none => refuse .noOperation

/-- The element of an array, which is not loaded first if it is a variable. -/
def element (direct : Int → String → Instr Int Bytecode) (other : Instr Int Bytecode)
    (base : Node) (p : Plan) : Plan :=
  match base with
  | .variable name slot => emit (direct slot name)
  | _ => p ++ emit other

def orNull (node : Node) (p : Plan) : Plan :=
  match node with
  | .absent => emit .loadNull
  | _ => p

def argument (node : Node) (p : Plan) : Plan :=
  match node with
  | .variable name slot => emit (.loadRef slot name)
  | _ => p

/-- The declaration of a function: first the stops in its body, with labels of their own. -/
def declare (name : String) (scope : Scope) (p : Plan) : Plan := fun n =>
  let stops := (p ({} : Assembler).nextLabel).1
  let last := match emitted stops with
    | .error _ => []
    | .ok items => match Bytecode.assemble name scope items with
      | .error fault => [Stop.refusal fault]
      | .ok code => [.item (.instr (.declareFunction name code))]
  (stops.map .inner ++ last, n)

def shortCircuit (kind : Jump) (left right : Plan) : Plan :=
  left ++ fresh fun finish => emit (.jump kind finish) ++ (right ++ label finish)

end Plan

namespace Node

open Plan (emit emitWhen fresh mark label element)

section

variable (scopes : Nat → Scope)

mutual

/-- All that compiling a node comes to. -/
def plan (x : Aims) : Node → Plan
  | .sourceElements functions nodes => planAll x functions ++ planBody x nodes
  | .program body _ => plan x body
  | .exprStatement expr => plan x expr
  | .function name body scope => .declare name (scopes scope) (plan {} body)
  | .call callee arguments =>
    plan x arguments ++ (plan x callee ++ .call arguments)
  | .identifier name => emit (.loadFunction name)
  | .namedConstant name => emit (.loadNamedConstant name)
  | .argumentList nodes => planArguments x nodes
  | .array nodes => planAll x nodes ++ emit (.loadArray nodes.length)
  | .global _ => .nothing
  | .member base index =>
    plan x index ++ element .loadMemberVar .loadMember base (plan x base)
  | .constantInt _ place => emit (.loadConstant place)
  | .constantFloat _ place => emit (.loadConstant place)
  | .constantText _ place => emit (.loadConstant place)
  | .interpolation _ parts place =>
    planAll x parts ++
      (emit (.loadConstant place) ++ emit (.stringSubstitution parts.length))
  | .boolean value => emit (.loadBoolean value)
  | .null => emit .loadNull
  | .variable name slot => emit (.loadVar slot name)
  | .empty => .nothing
  | .emptyExpression => emit .loadNull
  | .assignment name slot right operator post =>
    (if operator = "=" then plan x right
      else emit (.loadVar slot name) ++ emitWhen post .dup ++ plan x right ++
        Plan.operation operator) ++
    emit (.assign slot name) ++ emitWhen post .discardTop
  | .memberAssignment base index right operator post =>
    (if operator = "=" then plan x right
      else plan x index ++ element .loadMemberVar .loadMember base (plan x base) ++
        emitWhen post .dup ++ plan x right ++ Plan.operation operator) ++
    plan x index ++ element .storeMemberVar .storeMember base (plan x base) ++
    emitWhen post .discardTop
  | .breakLoop count => .noCount count ++ (emit .loadNull ++ .stop (.leave x.loop x.finish))
  | .continueLoop count =>
    .noCount count ++ (emit .loadNull ++ .stop (.goOn x.loop x.started x.next))
  | .ifElse condition thenBranch elseBranch =>
    plan x condition ++ fresh fun endIf => fresh fun endThen =>
      emit (.jump .ifFalse endThen) ++ plan x thenBranch ++ emit (.jump .always endIf) ++
      label endThen ++ .orNull elseBranch (plan x elseBranch) ++ label endIf
  | .whileLoop condition body =>
    emit .loadNull ++ fresh fun start => mark start ++
      plan { x with started := true, next := some start } condition ++
      fresh fun finish => emit (.jump .ifFalse finish) ++
        plan ⟨some finish, true, some finish, some start⟩ body ++
        emit .discardTop ++ emit (.jump .always start) ++ label finish
  | .forLoop setup condition update body =>
    plan x setup ++ emit .discardTop ++ emit .loadNull ++ fresh fun start =>
      mark start ++ fresh fun finish => fresh fun next =>
        plan ⟨x.loop, true, some finish, some next⟩ condition ++
        emit (.jump .ifFalse finish) ++ emit .discardTop ++
        plan ⟨some finish, true, some finish, some next⟩ body ++ label next ++
        plan ⟨x.loop, true, some finish, x.next⟩ update ++
        emit .discardTop ++ emit (.jump .always start) ++ label finish
  | .foreachLoop subject key value body =>
    plan x subject ++ emit .loadIterator ++ emit .loadNull ++ fresh fun start =>
      mark start ++ fresh fun finish => emit (.jump .ifIteratorEmpty finish) ++
        emit .nextIterator ++ .key key ++ .target value ++
        plan ⟨some finish, true, some finish, x.next⟩ body ++
        emit (.jump .always start) ++ label finish
  | .print expr => plan x expr ++ emit .print
  | .returnValue expr => .orNull expr (plan x expr) ++ emit .returnTop
  | .block nodes => planBlock x nodes
  | .binary op left right => plan x left ++ (plan x right ++ emit (.binary op))
  | .not expr => plan x expr ++ emit (.unary .not)
  | .both left right => .shortCircuit .ifFalseKeep (plan x left) (plan x right)
  | .either left right => .shortCircuit .ifTrueKeep (plan x left) (plan x right)
  | .absent => .refuse .noOperation
  | .foreign _ => .refuse .noOperation

def planAll (x : Aims) : List Node → Plan
  | [] => .nothing
  | node :: nodes => plan x node ++ planAll x nodes

def planArguments (x : Aims) : List Node → Plan
  | [] => .nothing
  | node :: nodes => .argument node (plan x node) ++ planArguments x nodes

def planBody (x : Aims) : List Node → Plan
  | [] => emit .loadNull
  | [node] => plan x node ++ emitWhen (!node.isReturn) .returnTop
  | node :: nodes =>
    plan x node ++ (emitWhen (!node.isReturn) .discardTop ++ planBody x nodes)

def planBlock (x : Aims) : List Node → Plan
  | [] => emit .loadNull
  | [node] => plan x node
  | node :: nodes => plan x node ++ (emit .discardTop ++ planBlock x nodes)

end

end

end Node

/-! ### Following a plan -/

/-- The state after an action, or why it fails. -/
def Emit.outcome {α : Type} (x : Emit α) (a : Assembler) : Except Fault Assembler :=
  match x.run a with
  | .ok _ a => .ok a
  | .error fault _ => .error fault

theorem Node.assembleBody_outcome (name : String) (scope : Scope) (body : Emit Unit) :
    assembleBody name scope body
      = body.outcome {} >>= fun a => Bytecode.assemble name scope a.items.toList := by
  rw [assembleBody, Emit.outcome]
  cases body.run {} <;> rfl

namespace Plan

theorem append_assoc (p q r : Plan) : p ++ q ++ r = p ++ (q ++ r) :=
  funext fun _ => Prod.ext (List.append_assoc ..) rfl

theorem append_nothing (p : Plan) : p ++ nothing = p :=
  funext fun _ => Prod.ext (List.append_nil _) rfl

end Plan

namespace Emit

variable {α β : Type} {a b c : Assembler} {p q : Plan} {m n : Int} {x : Emit α}
  {k : α → Emit β} {f : Int → Plan}

theorem outcome_bind (x : Emit α) (k : α → Emit β) (a : Assembler) :
    (x >>= k).outcome a = match x.run a with
      | .ok r a => (k r).outcome a
      | .error fault _ => .error fault := by
  rw [outcome, EStateM.run_bind]
  cases x.run a <;> rfl

/-- Whatever was emitted before, the action emits what the plan says, and the loops that
were open as in `a` are open as in `b` then. -/
def Follows (a b : Assembler) (x : Emit α) (p : Plan) : Prop :=
  ∀ items n, x.outcome { a with items := items, nextLabel := n } =
    (emitted (p n).1).map fun is =>
      { b with items := items ++ is.toArray, nextLabel := (p n).2 }

namespace Follows

theorem pure (r : α) : Follows a a (Pure.pure r) .nothing := by
  intro items n
  simp [Plan.nothing, emitted, Except.map, outcome]

theorem throw (fault : Fault) : Follows a b (throw fault : Emit α) (.refuse fault) :=
  fun _ _ => rfl

theorem stop {s : Stop} (h : ∀ items n, x.outcome { a with items := items, nextLabel := n } =
      s.outcome.map fun is => { a with items := items ++ is.toArray, nextLabel := n }) :
    Follows a a x (.stop s) := by
  intro items n
  rw [h, Plan.stop, emitted]
  cases s.outcome <;> simp [emitted, Bind.bind, Except.bind, Except.map, Pure.pure, Except.pure]

theorem item (i : Item) : Follows a a (Emit.item i) (.stop (.item i)) :=
  .stop fun items n => by simp [outcome, Emit.item, Stop.outcome, Except.map]

theorem instr (i : Instr Int Bytecode) : Follows a a (Emit.instr i) (.emit i) := .item _

theorem bind (hx : Follows a b x p) (hk : ∀ r, Follows b c (k r) q) :
    Follows a c (x >>= k) (p ++ q) := by
  intro items n
  have hfirst := hx items n
  show _ = (emitted ((p n).1 ++ (q (p n).2).1)).map _
  rw [outcome_bind, emitted_append]
  rw [outcome] at hfirst
  cases hrun : x.run { a with items := items, nextLabel := n } <;> cases hp : emitted (p n).1 <;>
    rw [hrun, hp] at hfirst <;> cases hfirst
  · show (k _).outcome _ = _
    rw [hk]
    cases hq : emitted (q (p n).2).1 with
    | error e => rfl
    | ok js => simp [Bind.bind, Except.bind, Except.map]; rfl
  · rfl

/-- An action that emits nothing and opens or closes loops, then others. -/
theorem silent {r : α} (hx : ∀ items n, x.run { a with items := items, nextLabel := n }
      = .ok r { b with items := items, nextLabel := n }) (hk : Follows b c (k r) p) :
    Follows a c (x >>= k) p := by
  intro items n
  rw [outcome_bind, hx]
  exact hk items n

theorem fresh {x : Emit Int} {k : Int → Emit β} {b : Int → Assembler}
    (hx : ∀ items n, x.run { a with items := items, nextLabel := n }
      = .ok n { b n with items := items, nextLabel := n + 1 })
    (hk : ∀ n, Follows (b n) c (k n) (f n)) : Follows a c (x >>= k) (.fresh f) := by
  intro items n
  rw [outcome_bind, hx]
  exact hk n items (n + 1)

theorem freshLabel {k : Int → Emit β} (hk : ∀ n, Follows a c (k n) (f n)) :
    Follows a c (Emit.freshLabel >>= k) (.fresh f) :=
  .fresh (fun _ _ => rfl) hk

theorem freshEnd {mark : Bool} {k : Int → Emit β} (hk : ∀ n, Follows { a with
      ends := n :: a.ends, popAfterBreak := mark :: a.popAfterBreak } c (k n) (f n)) :
    Follows a c (Emit.freshEnd mark >>= k) (.fresh f) :=
  .fresh (fun _ _ => rfl) hk

theorem freshUpdate {k : Int → Emit β}
    (hk : ∀ n, Follows { a with updates := n :: a.updates } c (k n) (f n)) :
    Follows a c (Emit.freshUpdate >>= k) (.fresh f) :=
  .fresh (fun _ _ => rfl) hk

theorem continueAt {k : Unit → Emit β}
    (hk : Follows { a with updates := n :: a.updates } c (k ()) p) :
    Follows a c (Emit.continueAt n >>= k) p :=
  .silent (fun _ _ => rfl) hk

theorem label (n : Int) : Follows a a (Emit.label n) (.label n) := by
  unfold Emit.label Plan.label
  split
  · exact .freshLabel fun m => Plan.append_nothing (.mark m) ▸
      .bind (.item _) fun _ => .pure m
  · exact .silent (fun _ _ => rfl) (Plan.append_nothing (.mark n) ▸
      .bind (.item _) fun _ => .pure n)

theorem label_last : Follows a a (do let _ ← Emit.label n) (.label n) :=
  Plan.append_nothing (.label n) ▸ .bind (.label n) fun _ => .pure ()

theorem startLoop {k : Int → Emit β}
    (hk : ∀ n, Follows { a with starts := n :: a.starts } c (k n) (f n)) :
    Follows a c (Emit.startLoop >>= k) (.fresh fun n => .mark n ++ f n) := by
  intro items n
  have hfirst : Emit.startLoop.run { a with items := items, nextLabel := n } = .ok n { a with
      items := items.push (.label n), nextLabel := n + 1, starts := n :: a.starts } := rfl
  rw [outcome_bind, hfirst]
  show (k n).outcome _ = (emitted (_ :: (f n (n + 1)).1)).map _
  rw [hk n, emitted]
  cases hf : emitted (f n (n + 1)).1 with
  | error e => rfl
  | ok is => simp [Stop.outcome, Bind.bind, Except.bind, Except.map, Pure.pure, Except.pure]; rfl

theorem popUpdate : Follows { a with updates := m :: a.updates } a Emit.popUpdate .nothing := by
  intro items n
  have hrun : Emit.popUpdate.outcome { a with
      items := items, nextLabel := n, updates := m :: a.updates }
      = .ok { a with items := items, nextLabel := n } := rfl
  rw [hrun]
  simp [Plan.nothing, emitted, Except.map]

theorem updateLoop :
    Follows { a with updates := m :: a.updates } a (Emit.updateLoop n) (.label n) :=
  .silent (b := a) (fun _ _ => rfl) .label_last

theorem endLoop {start finish : Int} {mark : Bool} :
    Follows { a with
      starts := start :: a.starts
      ends := finish :: a.ends
      popAfterBreak := mark :: a.popAfterBreak } a (Emit.endLoop n) (.label n) :=
  .silent (b := { a with starts := start :: a.starts, popAfterBreak := mark :: a.popAfterBreak })
    (fun _ _ => rfl) (.silent (b := { a with popAfterBreak := mark :: a.popAfterBreak })
      (fun _ _ => rfl) (.silent (b := a) (fun _ _ => rfl) .label_last))

theorem run_eq (h : Follows a b x p) :
    x.outcome a = (emitted (p a.nextLabel).1).map fun is =>
      { b with items := a.items ++ is.toArray, nextLabel := (p a.nextLabel).2 } :=
  h a.items a.nextLabel

theorem ok_of_run {r : α} {a' : Assembler} (h : Follows a b x p) (hrun : x.run a = .ok r a') :
    ∃ items, emitted (p a.nextLabel).1 = .ok items ∧
      a' = { b with items := a.items ++ items.toArray, nextLabel := (p a.nextLabel).2 } := by
  have houtcome := h.run_eq
  rw [outcome, hrun] at houtcome
  cases hitems : emitted (p a.nextLabel).1 <;> rw [hitems] at houtcome <;> cases houtcome
  exact ⟨_, rfl, rfl⟩

/-- The code of a body is assembled from the items that its plan gives. -/
theorem assembleBody_eq {body : Emit Unit} (h : Follows {} {} body p) (name : String)
    (scope : Scope) : Node.assembleBody name scope body
      = emitted (p ({} : Assembler).nextLabel).1 >>= Bytecode.assemble name scope := by
  rw [Node.assembleBody_outcome, h.run_eq]
  cases emitted (p ({} : Assembler).nextLabel).1 <;> simp [Bind.bind, Except.bind, Except.map]

end Follows

end Emit

/-! ### Compiling follows the plan -/

/-- The loops that are open say where `break` and `continue` go. -/
structure Aims.Fits (x : Aims) (a : Assembler) : Prop where
  started : x.started = !a.starts.isEmpty
  finish : x.finish = a.ends.head?
  next : x.next = a.updates.head?

/-- Where `break` and `continue` go in a state; it is in the body of its innermost loop. -/
def Assembler.aims (a : Assembler) : Aims where
  loop := a.ends.head?
  started := !a.starts.isEmpty
  finish := a.ends.head?
  next := a.updates.head?

theorem Aims.Fits.own {a : Assembler} : a.aims.Fits a := ⟨rfl, rfl, rfl⟩

theorem Aims.Fits.start : ({} : Aims).Fits {} := ⟨rfl, rfl, rfl⟩

namespace Node

/-- Emits the access to an element; a variable is not loaded first. -/
def emitElement (direct : Int → String → Instr Int Bytecode) (other : Instr Int Bytecode)
    (base : Node) (code : Emit Unit) : Emit Unit :=
  match base with
  | .variable name slot => .instr (direct slot name)
  | _ => do
    code
    .instr other

def emitOrNull (node : Node) (code : Emit Unit) : Emit Unit :=
  match node with
  | .absent => .instr .loadNull
  | _ => code

def emitArgument (node : Node) (code : Emit Unit) : Emit Unit :=
  match node with
  | .variable name slot => .instr (.loadRef slot name)
  | _ => code

section

variable {scopes : Nat → Scope}

theorem compile_member (base index : Node) :
    compile scopes (.member base index) = (do
      compile scopes index
      emitElement .loadMemberVar .loadMember base (compile scopes base)) := by
  cases base <;> rfl

theorem compile_ifElse (condition thenBranch elseBranch : Node) :
    compile scopes (.ifElse condition thenBranch elseBranch) = (do
      compile scopes condition
      let endIf ← Emit.freshLabel
      let endThen ← Emit.freshLabel
      .instr (.jump .ifFalse endThen)
      compile scopes thenBranch
      .instr (.jump .always endIf)
      let _ ← Emit.label endThen
      emitOrNull elseBranch (compile scopes elseBranch)
      let _ ← Emit.label endIf) := by
  cases elseBranch <;> rfl

theorem compile_returnValue (expr : Node) :
    compile scopes (.returnValue expr) = (do
      emitOrNull expr (compile scopes expr)
      .instr .returnTop) := by
  cases expr <;> rfl

theorem compileArguments_cons (node : Node) (nodes : List Node) :
    compileArguments scopes (node :: nodes) = (do
      emitArgument node (compile scopes node)
      compileArguments scopes nodes) := by
  cases node <;> rfl

theorem compile_memberAssignment (base index right : Node) (operator : String) (post : Bool) :
    compile scopes (.memberAssignment base index right operator post) =
      ((if operator = "=" then compile scopes right
        else do
          compile scopes index
          emitElement .loadMemberVar .loadMember base (compile scopes base)
          emitIf post .dup
          compile scopes right
          emitOperation operator) >>= fun _ => do
        compile scopes index
        emitElement .storeMemberVar .storeMember base (compile scopes base)
        emitIf post .discardTop) := by
  rw [compile]
  by_cases h : operator = "="
  · simp only [if_pos h]
    cases base <;> simp only [emitElement, bind_assoc]
  · simp only [if_neg h]
    cases base <;> simp only [emitElement, bind_assoc]

theorem compile_assignment (name : String) (slot : Int) (right : Node) (operator : String)
    (post : Bool) :
    compile scopes (.assignment name slot right operator post) =
      ((if operator = "=" then compile scopes right
        else do
          .instr (.loadVar slot name)
          emitIf post .dup
          compile scopes right
          emitOperation operator) >>= fun _ => do
        .instr (.assign slot name)
        emitIf post .discardTop) := by
  rw [compile]
  by_cases h : operator = "="
  · simp only [if_pos h]
  · simp only [if_neg h, bind_assoc]

end

open Emit (Follows)

section

variable {a : Assembler} {x : Aims} {code : Emit Unit} {p : Plan}

theorem follows_emitIf (condition : Bool) (i : Instr Int Bytecode) :
    Follows a a (emitIf condition i) (.emitWhen condition i) := by
  cases condition with
  | true => exact .instr i
  | false => exact .pure ()

theorem follows_emitOperation (operator : String) :
    Follows a a (emitOperation operator) (.operation operator) := by
  unfold emitOperation Plan.operation
  cases operation? operator with
  | some i => exact .instr i
  | none => exact .throw _

theorem follows_emitTarget (target : Node) : Follows a a (emitTarget target) (.target target) := by
  cases target with
  | «variable» name slot => exact .bind (.instr _) fun _ => .instr _
  | _ => exact .throw _

theorem follows_emitKey (key : Node) : Follows a a (emitKey key) (.key key) := by
  have htarget : Follows a a (emitTarget key) (.target key) := follows_emitTarget key
  cases key with
  | absent => exact .instr _
  | _ => exact htarget

theorem follows_checkNoCount (count : Node) :
    Follows a a (checkNoCount count) (.noCount count) := by
  cases count with
  | absent => exact .pure ()
  | _ => exact .throw _

theorem follows_call (arguments : Node) :
    Follows a a (do .instr (.call (← argumentCount arguments))) (.call arguments) := by
  unfold argumentCount Plan.call
  cases arguments.nodes? with
  | none => exact .throw _
  | some nodes => exact .instr _

theorem follows_emitElement {direct : Int → String → Instr Int Bytecode}
    {other : Instr Int Bytecode} (h : Follows a a code p) (base : Node) :
    Follows a a (emitElement direct other base code) (.element direct other base p) := by
  cases base with
  | «variable» name slot => exact .instr _
  | _ => exact h.bind fun _ => .instr _

theorem follows_emitOrNull (h : Follows a a code p) (node : Node) :
    Follows a a (emitOrNull node code) (.orNull node p) := by
  cases node with
  | absent => exact .instr _
  | _ => exact h

theorem follows_emitArgument (h : Follows a a code p) (node : Node) :
    Follows a a (emitArgument node code) (.argument node p) := by
  cases node with
  | «variable» name slot => exact .instr _
  | _ => exact h

theorem follows_breakLoop (hx : x.Fits a) :
    Follows a a Emit.breakLoop (.stop (.leave x.loop x.finish)) := by
  refine .stop fun items n => ?_
  rw [hx.finish]
  simp only [Emit.outcome, Emit.breakLoop, EStateM.run_bind, EStateM.run_get]
  cases a.ends with
  | nil => rfl
  | cons n ends => simp [Emit.instr, Emit.item, Stop.outcome, Except.map]

theorem follows_continueLoop (hx : x.Fits a) :
    Follows a a Emit.continueLoop (.stop (.goOn x.loop x.started x.next)) := by
  refine .stop fun items n => ?_
  rw [hx.started, hx.next]
  simp only [Emit.outcome, Emit.continueLoop, EStateM.run_bind, EStateM.run_get]
  cases a.starts with
  | nil => rfl
  | cons start starts =>
    cases a.updates with
    | nil => rfl
    | cons n updates => simp [Emit.instr, Emit.item, Stop.outcome, Except.map]

theorem follows_function (name : String) (scope : Scope) {body : Emit Unit}
    (h : Follows {} {} body p) :
    Follows a a (do
      let code ← ofExcept (assembleBody name scope body)
      .instr (.declareFunction name code)) (.declare name scope p) := by
  intro items n
  rw [h.assembleBody_eq, Plan.declare]
  simp only [emitted_append, emitted_inner]
  cases hbody : emitted (p ({} : Assembler).nextLabel).1 with
  | error e => rfl
  | ok is =>
    show Emit.outcome (ofExcept (Bytecode.assemble name scope is) >>= _) _ = _
    cases hassemble : Bytecode.assemble name scope is with
    | error e =>
      simp only [hassemble]
      rfl
    | ok code =>
      simp only [hassemble]
      exact Follows.instr _ items n

theorem follows_shortCircuit {left right : Emit Unit} {q : Plan} (hleft : Follows a a left p)
    (hright : Follows a a right q) (kind : Jump) :
    Follows a a (do
      left
      let finish ← Emit.freshLabel
      .instr (.jump kind finish)
      right
      let _ ← Emit.label finish) (.shortCircuit kind p q) :=
  hleft.bind fun _ => .freshLabel fun _ => .bind (.instr _) fun _ =>
    hright.bind fun _ => .label_last

end

variable (scopes : Nat → Scope)

mutual

theorem compile_follows {a : Assembler} {x : Aims} (hx : x.Fits a) : (node : Node) →
    Follows a a (compile scopes node) (plan scopes x node)
  | .sourceElements functions nodes =>
    (compileAll_follows hx functions).bind fun _ => compileBody_follows hx nodes
  | .program body _ => compile_follows hx body
  | .exprStatement expr => compile_follows hx expr
  | .function name body scope =>
    follows_function name (scopes scope) (compile_follows .start body)
  | .call callee arguments =>
    (compile_follows hx arguments).bind fun _ =>
      (compile_follows hx callee).bind fun _ => follows_call arguments
  | .argumentList nodes => compileArguments_follows hx nodes
  | .array nodes => (compileAll_follows hx nodes).bind fun _ => .instr _
  | .member base index => by
    rw [compile_member]
    exact (compile_follows hx index).bind fun _ =>
      follows_emitElement (compile_follows hx base) base
  | .interpolation _ parts _ =>
    (compileAll_follows hx parts).bind fun _ => .bind (.instr _) fun _ => .instr _
  | .assignment name slot right operator post => by
    have hright := compile_follows hx right
    rw [compile_assignment, plan]
    simp only [Plan.append_assoc]
    refine .bind ?_ fun _ => .bind (.instr _) fun _ => follows_emitIf _ _
    split
    · exact hright
    · exact .bind (.instr _) fun _ => .bind (follows_emitIf _ _) fun _ => hright.bind fun _ =>
        follows_emitOperation _
  | .memberAssignment base index right operator post => by
    have hbase := compile_follows hx base
    have hindex := compile_follows hx index
    have hright := compile_follows hx right
    rw [compile_memberAssignment, plan]
    simp only [Plan.append_assoc]
    refine .bind ?_ fun _ => hindex.bind fun _ => .bind (follows_emitElement hbase base) fun _ =>
      follows_emitIf _ _
    split
    · exact hright
    · exact hindex.bind fun _ => .bind (follows_emitElement hbase base) fun _ =>
        .bind (follows_emitIf _ _) fun _ => hright.bind fun _ => follows_emitOperation _
  | .breakLoop count =>
    .bind (follows_checkNoCount count) fun _ => .bind (.instr _) fun _ => follows_breakLoop hx
  | .continueLoop count =>
    .bind (follows_checkNoCount count) fun _ => .bind (.instr _) fun _ => follows_continueLoop hx
  | .ifElse condition thenBranch elseBranch => by
    have helse := compile_follows hx elseBranch
    rw [compile_ifElse, plan]
    simp only [Plan.append_assoc]
    exact (compile_follows hx condition).bind fun _ => .freshLabel fun _ =>
      .freshLabel fun _ => .bind (.instr _) fun _ =>
      (compile_follows hx thenBranch).bind fun _ => .bind (.instr _) fun _ =>
      .bind (.label _) fun _ => .bind (follows_emitOrNull helse elseBranch) fun _ => .label_last
  | .whileLoop condition body => by
    rw [compile, plan]
    simp only [Plan.append_assoc]
    refine .bind (.instr _) fun _ => .startLoop fun start => .continueAt ?_
    refine .bind (compile_follows ⟨rfl, by exact hx.finish, rfl⟩ condition) fun _ => ?_
    refine .freshEnd fun finish => .bind (.instr _) fun _ =>
      .bind (compile_follows ⟨rfl, rfl, rfl⟩ body) fun _ => .bind (.instr _) fun _ =>
      .bind (.instr _) fun _ => ?_
    rw [← Plan.append_nothing (.label finish)]
    exact .bind (.endLoop (a := { a with updates := start :: a.updates })) fun _ => .popUpdate
  | .forLoop setup condition update body => by
    rw [compile, plan]
    simp only [Plan.append_assoc]
    refine (compile_follows hx setup).bind fun _ => .bind (.instr _) fun _ =>
      .bind (.instr _) fun _ => .startLoop fun start => .freshEnd fun finish =>
      .freshUpdate fun next => ?_
    refine .bind (compile_follows ⟨rfl, rfl, rfl⟩ condition) fun _ =>
      .bind (.instr _) fun _ => .bind (.instr _) fun _ =>
      .bind (compile_follows ⟨rfl, rfl, rfl⟩ body) fun _ => ?_
    refine .bind (.updateLoop (a := { a with
        starts := start :: a.starts
        ends := finish :: a.ends
        popAfterBreak := false :: a.popAfterBreak })) fun _ =>
      .bind (compile_follows ⟨rfl, rfl, by exact hx.next⟩ update) fun _ =>
      .bind (.instr _) fun _ => .bind (.instr _) fun _ => .endLoop (a := a)
  | .foreachLoop subject key value body => by
    rw [compile, plan]
    simp only [Plan.append_assoc]
    exact (compile_follows hx subject).bind fun _ => .bind (.instr _) fun _ =>
      .bind (.instr _) fun _ => .startLoop fun start => .freshEnd fun finish =>
      .bind (.instr _) fun _ => .bind (.instr _) fun _ => .bind (follows_emitKey key) fun _ =>
      .bind (follows_emitTarget value) fun _ =>
      .bind (compile_follows ⟨rfl, rfl, by exact hx.next⟩ body) fun _ =>
      .bind (.instr _) fun _ => .endLoop (a := a)
  | .print expr => (compile_follows hx expr).bind fun _ => .instr _
  | .returnValue expr => by
    rw [compile_returnValue]
    exact .bind (follows_emitOrNull (compile_follows hx expr) expr) fun _ => .instr _
  | .block nodes => compileBlock_follows hx nodes
  | .binary _ left right =>
    (compile_follows hx left).bind fun _ => (compile_follows hx right).bind fun _ => .instr _
  | .not expr => (compile_follows hx expr).bind fun _ => .instr _
  | .both left right | .either left right =>
    follows_shortCircuit (compile_follows hx left) (compile_follows hx right) _
  | .identifier _ | .namedConstant _ | .constantInt _ _ | .constantFloat _ _ | .constantText _ _
  | .boolean _ | .null | .variable _ _ | .emptyExpression => .instr _
  | .global _ | .empty => .pure _
  | .absent | .foreign _ => .throw _

theorem compileAll_follows {a : Assembler} {x : Aims} (hx : x.Fits a) : (nodes : List Node) →
    Follows a a (compileAll scopes nodes) (planAll scopes x nodes)
  | [] => .pure _
  | node :: nodes => (compile_follows hx node).bind fun _ => compileAll_follows hx nodes

theorem compileArguments_follows {a : Assembler} {x : Aims} (hx : x.Fits a) :
    (nodes : List Node) →
    Follows a a (compileArguments scopes nodes) (planArguments scopes x nodes)
  | [] => .pure _
  | node :: nodes => by
    rw [compileArguments_cons]
    exact (follows_emitArgument (compile_follows hx node) node).bind fun _ =>
      compileArguments_follows hx nodes

theorem compileBody_follows {a : Assembler} {x : Aims} (hx : x.Fits a) : (nodes : List Node) →
    Follows a a (compileBody scopes nodes) (planBody scopes x nodes)
  | [] => .instr _
  | [node] => (compile_follows hx node).bind fun _ => follows_emitIf _ _
  | node :: next :: nodes =>
    (compile_follows hx node).bind fun _ => .bind (follows_emitIf _ _) fun _ =>
      compileBody_follows hx (next :: nodes)

theorem compileBlock_follows {a : Assembler} {x : Aims} (hx : x.Fits a) : (nodes : List Node) →
    Follows a a (compileBlock scopes nodes) (planBlock scopes x nodes)
  | [] => .instr _
  | [node] => compile_follows hx node
  | node :: next :: nodes =>
    (compile_follows hx node).bind fun _ => .bind (.instr _) fun _ =>
      compileBlock_follows hx (next :: nodes)

end

end Node

end PageScript
