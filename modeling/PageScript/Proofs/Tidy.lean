/-
Nodes of which every part leaves one value.

A node is tidy if its parts leave one value on the operand stack wherever one is wanted.  The
statements that leave none — `return`, `break`, `continue` and `global` — are tidy only where
they are reached from a body through blocks and branches, as far as the `Rules` allow.
`TidyBody` is the same for a body, where a `return` among the statements is allowed.
-/
import PageScript.Proofs.Layout

namespace PageScript

/-- Which of the statements that leave no value there may be, apart from a
`return` directly in a body. -/
structure Rules where
  /-- Whether `return` may stand inside other statements. -/
  returns : Bool := false
  /-- Whether `global` may stand inside other statements. -/
  globals : Bool := false
  /-- The kinds of loops that `break` and `continue` may stand in. -/
  leaves : LoopKind → Bool := fun _ => false

/-- Where a node stands. -/
inductive Place where
  | inner
  /-- In statement position, in the body of a loop or in none. -/
  | statement (loop : Option LoopKind)
  deriving DecidableEq, Repr

namespace Node

def assignmentSigns : List String := ["=", "+=", "-=", ".="]

/-- The signs of assignments without a right side. -/
def stepSigns : List String := ["++", "--"]

/-- A node of which every part leaves one value.  Left out are, besides the statements that
leave none, shapes that no text is read as: a plain `=` that is to leave the value before it
(`post`), which discards a value that was never pushed, an operator that is no sign, a
`function` among the statements, and nodes where they do not belong, as an argument list that
is no argument or an absent node outside of its place.  They can break what is shown of tidy
nodes. -/
inductive Tidy (r : Rules) : Place → Node → Prop where
  | exprStatement {p expr} : Tidy r .inner expr → Tidy r p (.exprStatement expr)
  | call {p callee nodes} : (∀ n ∈ nodes, Tidy r .inner n) → Tidy r .inner callee →
      Tidy r p (.call callee (.argumentList nodes))
  | identifier {p name} : Tidy r p (.identifier name)
  | namedConstant {p name} : Tidy r p (.namedConstant name)
  | array {p nodes} : (∀ n ∈ nodes, Tidy r .inner n) → Tidy r p (.array nodes)
  | member {p base index} : Tidy r .inner index → Tidy r .inner base →
      Tidy r p (.member base index)
  | constantInt {p value place} : Tidy r p (.constantInt value place)
  | constantFloat {p value place} : Tidy r p (.constantFloat value place)
  | constantText {p text place} : Tidy r p (.constantText text place)
  | interpolation {p text parts place} : (∀ n ∈ parts, Tidy r .inner n) →
      Tidy r p (.interpolation text parts place)
  | boolean {p value} : Tidy r p (.boolean value)
  | null {p} : Tidy r p .null
  | variable {p name slot} : Tidy r p (.variable name slot)
  | emptyExpression {p} : Tidy r p .emptyExpression
  | assignment {p name slot right operator post} : operator ∈ assignmentSigns →
      (operator = "=" → post = false) → Tidy r .inner right →
      Tidy r p (.assignment name slot right operator post)
  | step {p name slot operator post} : operator ∈ stepSigns →
      Tidy r p (.assignment name slot .empty operator post)
  | memberAssignment {p base index right operator post} : operator ∈ assignmentSigns →
      (operator = "=" → post = false) → Tidy r .inner right → Tidy r .inner index →
      Tidy r .inner base → Tidy r p (.memberAssignment base index right operator post)
  | memberStep {p base index operator post} : operator ∈ stepSigns →
      Tidy r .inner index → Tidy r .inner base →
      Tidy r p (.memberAssignment base index .empty operator post)
  | ifElse {p condition thenBranch elseBranch} : Tidy r .inner condition →
      Tidy r p thenBranch → Tidy r p elseBranch →
      Tidy r p (.ifElse condition thenBranch elseBranch)
  | ifThen {p condition thenBranch} : Tidy r .inner condition → Tidy r p thenBranch →
      Tidy r p (.ifElse condition thenBranch .absent)
  | whileLoop {p condition body} : Tidy r .inner condition →
      Tidy r (.statement (some .whileLoop)) body → Tidy r p (.whileLoop condition body)
  | forLoop {p setup condition update body} : Tidy r .inner setup → Tidy r .inner condition →
      Tidy r .inner update → Tidy r (.statement (some .forLoop)) body →
      Tidy r p (.forLoop setup condition update body)
  | foreachLoop {p subject key value body} : Tidy r .inner subject →
      key.isAbsent ∨ key.isVariable → value.isVariable →
      Tidy r (.statement (some .foreachLoop)) body →
      Tidy r p (.foreachLoop subject key value body)
  | print {p expr} : Tidy r .inner expr → Tidy r p (.print expr)
  | block {p nodes} : (∀ n ∈ nodes, Tidy r p n) → Tidy r p (.block nodes)
  | binary {p op left right} : Tidy r .inner left → Tidy r .inner right →
      Tidy r p (.binary op left right)
  | not {p expr} : Tidy r .inner expr → Tidy r p (.not expr)
  | both {p left right} : Tidy r .inner left → Tidy r .inner right → Tidy r p (.both left right)
  | either {p left right} : Tidy r .inner left → Tidy r .inner right →
      Tidy r p (.either left right)
  | returnNothing {loop} : r.returns → Tidy r (.statement loop) (.returnValue .absent)
  | returnValue {loop expr} : r.returns → Tidy r .inner expr →
      Tidy r (.statement loop) (.returnValue expr)
  | global {loop nodes} : r.globals → Tidy r (.statement loop) (.global nodes)
  | breakLoop {kind count} : r.leaves kind → Tidy r (.statement (some kind)) (.breakLoop count)
  | continueLoop {kind count} : r.leaves kind →
      Tidy r (.statement (some kind)) (.continueLoop count)

/-- A statement directly in a body. -/
inductive TidyElement (r : Rules) : Node → Prop where
  | statement {node} : Tidy r (.statement none) node → TidyElement r node
  | returnNothing : TidyElement r (.returnValue .absent)
  | returnValue {expr} : Tidy r .inner expr → TidyElement r (.returnValue expr)

/-- The body of a program or function.  A function without statements has a
`return` for its body. -/
inductive TidyBody (r : Rules) : Node → Prop where
  | elements {functions nodes} :
      (∀ f ∈ functions, ∃ name body scope, f = .function name body scope) →
      (∀ name body scope, .function name body scope ∈ functions → TidyBody r body) →
      (∀ n ∈ nodes, TidyElement r n) → TidyBody r (.sourceElements functions nodes)
  | nothing : TidyBody r (.returnValue .absent)

def TidyProgram (r : Rules) (node : Node) : Prop :=
  ∃ body scope, node = .program body scope ∧ TidyBody r body

theorem Tidy.operands_eq {r : Rules} {p : Place} {node : Node} (h : Tidy r p node) :
    node.operands = 1 := by
  cases h <;> rfl

/-! ### Nodes that cannot be left -/

section

variable {scopes : Nat → Scope} {nodes : List Node}

/-- The layout of a node does not depend on the ways out of it. -/
def Closed (scopes : Nat → Scope) (node : Node) : Prop :=
  ∀ (pos d : Nat) (x y : Exits), layout scopes pos d x node = layout scopes pos d y node

theorem layouts_closed (h : ∀ n ∈ nodes, ∀ pos d x,
      layout scopes pos d x n = layout scopes pos d {} n) :
    (∀ pos d step x, layoutAll scopes pos d step x nodes = layoutAll scopes pos d step {} nodes) ∧
    (∀ pos d x, layoutArguments scopes pos d x nodes = layoutArguments scopes pos d {} nodes) ∧
    ∀ pos d x, layoutBlock scopes pos d x nodes = layoutBlock scopes pos d {} nodes := by
  induction nodes with
  | nil => exact ⟨fun _ _ _ _ => rfl, fun _ _ _ => rfl, fun _ _ _ => rfl⟩
  | cons node nodes ih =>
    obtain ⟨hnode, hnodes⟩ := List.forall_mem_cons.1 h
    obtain ⟨hall, harguments, hblock⟩ := ih hnodes
    refine ⟨fun pos d step x => ?_, fun pos d x => ?_, fun pos d x => ?_⟩
    · rw [layoutAll, layoutAll, hnode, hall]
    · rw [layoutArguments, layoutArguments, hnode, harguments]
    · cases nodes with
      | nil => exact hnode pos d x
      | cons next nodes => simp only [layoutBlock, hnode pos d x, hblock _ d x]

theorem Tidy.layout_eq {p : Place} {node : Node} (h : Tidy {} p node) : ∀ pos d x,
    layout scopes pos d x node = layout scopes pos d {} node := by
  induction h with
  | returnNothing h | returnValue h | global h | breakLoop h | continueLoop h => cases h
  | array _ ihs | interpolation _ ihs =>
    intro pos d x
    rw [layout, layout, (layouts_closed ihs).1 pos d 1 x]
  | call _ _ ihs ih =>
    intro pos d x
    simp only [layout, (layouts_closed ihs).2.1 pos d x, ih _ _ x]
  | block _ ihs => exact (layouts_closed ihs).2.2
  | _ =>
    intro pos d x
    simp_all only [layout]

theorem Tidy.closed {p : Place} {node : Node} (h : Tidy {} p node) : Closed scopes node :=
  fun pos d x y => (h.layout_eq pos d x).trans (h.layout_eq pos d y).symm

end

end Node

end PageScript
