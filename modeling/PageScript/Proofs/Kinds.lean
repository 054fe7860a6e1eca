/-
The kinds of operands along code.

`Node.kinds` says for every line of a layout of which kinds the operands on the stack are
before it.  What holds of all the lines of some code in view of the operands around them is
a `Judgement`.  Its laws say what has to be checked: that an instruction finds operands it
can take (`Instr.Takes`, `Jump.Takes`), and that those it leaves suit what is expected.
-/
import PageScript.Proofs.Compliance
import PageScript.Proofs.Layout
import PageScript.Proofs.Tidy

namespace PageScript

open List

/-! ### The kinds before the lines of a node -/

def plains : Nat → List Kind → List Kind
  | 0, ks => ks
  | n + 1, ks => plains n (.plain :: ks)

theorem length_plains (n : Nat) (ks : List Kind) : (plains n ks).length = ks.length + n := by
  induction n generalizing ks with
  | zero => rfl
  | succ n ih => rw [plains, ih, length_cons, Nat.add_assoc, Nat.add_comm 1]

theorem plains_eq (n : Nat) (ks : List Kind) : plains n ks = replicate n .plain ++ ks := by
  induction n generalizing ks with
  | zero => rfl
  | succ n ih => rw [plains, ih, replicate_succ', append_assoc, singleton_append]

namespace Node

/-- What an argument is: a variable is passed as a reference to it. -/
def argumentKind (node : Node) : Kind := if node.isVariable then .reference else .plain

def passed : List Node → List Kind → List Kind
  | [], ks => ks
  | node :: nodes, ks => passed nodes (node.argumentKind :: ks)

theorem passed_eq (nodes : List Node) (ks : List Kind) :
    passed nodes ks = (nodes.map argumentKind).reverse ++ ks := by
  induction nodes generalizing ks with
  | nil => rfl
  | cons node nodes ih => simp [passed, ih]

mutual

/-- The kinds of the operands before each line of a node, on top of those that
are there already. -/
def kinds (ks : List Kind) : Node → List (List Kind)
  | .exprStatement expr => kinds ks expr
  | .call callee arguments =>
    let given := passed (arguments.nodes?.getD []) ks
    kinds ks arguments ++ kinds given callee ++ [.plain :: given]
  | .argumentList nodes => kindsArguments ks nodes
  | .array nodes => kindsAll ks nodes ++ [plains nodes.length ks]
  | .member base index =>
    kinds ks index ++ kinds (.plain :: ks) base ++
    replicate (!base.isVariable).toNat (.plain :: .plain :: ks)
  | .interpolation _ parts _ =>
    kindsAll ks parts ++ [plains parts.length ks, .plain :: plains parts.length ks]
  | .assignment _ _ right operator post =>
    let kept := .plain :: plains post.toNat ks
    (if operator = "=" then kinds ks right
      else
        ks :: replicate post.toNat (.plain :: ks) ++ kinds kept right ++
        [plains right.operands kept]) ++
    kept :: replicate post.toNat kept
  | .memberAssignment base index right operator post =>
    let kept := .plain :: plains post.toNat ks
    (if operator = "=" then kinds ks right
      else
        kinds ks index ++ kinds (.plain :: ks) base ++
        replicate (!base.isVariable).toNat (.plain :: .plain :: ks) ++
        replicate post.toNat (.plain :: ks) ++ kinds kept right ++
        [plains right.operands kept]) ++
    kinds kept index ++ kinds (.plain :: kept) base ++
    replicate (!base.isVariable).toNat (.plain :: .plain :: kept) ++
    replicate post.toNat kept
  | .breakLoop _ => [ks, .plain :: ks]
  | .continueLoop _ => [ks, .plain :: ks]
  | .ifElse condition thenBranch elseBranch =>
    kinds ks condition ++ (.plain :: ks) :: kinds ks thenBranch ++ (.plain :: ks) ::
    kinds ks elseBranch ++ replicate elseBranch.isAbsent.toNat ks
  | .whileLoop condition body =>
    ks :: kinds (.plain :: ks) condition ++ (.plain :: .plain :: ks) ::
    kinds (.plain :: ks) body ++ [.plain :: .plain :: ks, .plain :: ks]
  | .forLoop setup condition update body =>
    kinds ks setup ++ (.plain :: ks) :: ks :: kinds (.plain :: ks) condition ++
    (.plain :: .plain :: ks) :: (.plain :: ks) :: kinds ks body ++ kinds (.plain :: ks) update ++
    [.plain :: .plain :: ks, .plain :: ks]
  | .foreachLoop subject key _ body =>
    let inside := .iteration :: ks
    kinds ks subject ++ (.plain :: ks) :: inside :: (.plain :: inside) :: inside ::
    replicate key.keyWidth (.plain :: .plain :: inside) ++
    replicate 2 (.plain :: inside) ++ kinds inside body ++ [.plain :: inside]
  | .print expr => kinds ks expr ++ [.plain :: ks]
  | .returnValue expr =>
    kinds ks expr ++ replicate expr.isAbsent.toNat ks ++ [.plain :: ks]
  | .block nodes => kindsBlock ks nodes
  | .binary _ left right =>
    kinds ks left ++ kinds (.plain :: ks) right ++ [.plain :: .plain :: ks]
  | .not expr => kinds ks expr ++ [.plain :: ks]
  | .both left right => kinds ks left ++ (.plain :: ks) :: kinds ks right
  | .either left right => kinds ks left ++ (.plain :: ks) :: kinds ks right
  | .sourceElements functions nodes => replicate (widthAll functions) ks ++ kindsBody ks nodes
  | node => replicate (width node) ks

/-- The same for nodes each of which leaves one plain operand. -/
def kindsAll (ks : List Kind) : List Node → List (List Kind)
  | [] => []
  | node :: nodes => kinds ks node ++ kindsAll (.plain :: ks) nodes

def kindsArguments (ks : List Kind) : List Node → List (List Kind)
  | [] => []
  | node :: nodes => kinds ks node ++ kindsArguments (node.argumentKind :: ks) nodes

def kindsBody (ks : List Kind) : List Node → List (List Kind)
  | [] => [ks]
  | [node] => kinds ks node ++ replicate (!node.isReturn).toNat (.plain :: ks)
  | node :: nodes =>
    kinds ks node ++ replicate (!node.isReturn).toNat (.plain :: ks) ++ kindsBody ks nodes

def kindsBlock (ks : List Kind) : List Node → List (List Kind)
  | [] => [ks]
  | [node] => kinds ks node
  | node :: nodes => kinds ks node ++ (.plain :: ks) :: kindsBlock ks nodes

end

theorem kinds_lengths :
    (∀ node ks, (kinds ks node).length = width node) ∧
    (∀ nodes ks, (kindsBlock ks nodes).length = widthBlock nodes) ∧
    (∀ nodes ks, (kindsBody ks nodes).length = widthBody nodes) ∧
    ∀ nodes, (∀ ks, (kindsArguments ks nodes).length = widthAll nodes) ∧
      ∀ ks, (kindsAll ks nodes).length = widthAll nodes := by
  apply width.mutual_induct <;> intros <;>
    simp_all +arith [kinds, kindsAll, kindsArguments, kindsBody, kindsBlock, width, widthAll,
      widthBody, widthBlock] <;>
    split <;> simp_all +arith

theorem length_kinds (ks : List Kind) (node : Node) : (kinds ks node).length = width node :=
  kinds_lengths.1 node ks

theorem length_kindsArguments (ks : List Kind) (nodes : List Node) :
    (kindsArguments ks nodes).length = widthAll nodes :=
  (kinds_lengths.2.2.2 nodes).1 ks

theorem length_kindsAll (ks : List Kind) (nodes : List Node) :
    (kindsAll ks nodes).length = widthAll nodes :=
  (kinds_lengths.2.2.2 nodes).2 ks

end Node

/-! ### What instructions make of the operands -/

/-- An instruction that goes on with the next one takes operands of these kinds,
and leaves those.  Only a call takes references. -/
inductive Instr.Takes : Instr Nat Bytecode → List Kind → List Kind → Prop where
  | operation {i n ks} : i.operation?.map Operation.takes = some n →
      Takes i (plains n ks) (i.result :: ks)
  | discardTop {ks} : Takes .discardTop (.plain :: ks) ks
  | dup {ks} : Takes .dup (.plain :: ks) (.plain :: .plain :: ks)
  | nextIterator {ks} :
      Takes .nextIterator (.iteration :: ks) (.plain :: .plain :: .iteration :: ks)
  | call {nodes ks} : Takes (.call nodes.length) (.plain :: Node.passed nodes ks) (.plain :: ks)

/-- An instruction that declares nothing and always goes on with the next
one. -/
def Instr.isStraight : Instr Nat Bytecode → Bool
  | .jump _ _ => false
  | .returnTop => false
  | .declareFunction _ _ => false
  | _ => true

theorem Instr.Takes.isStraight {i : Instr Nat Bytecode} {ks ks' : List Kind} (h : i.Takes ks ks') :
    i.isStraight := by
  cases h with
  | operation hi => cases i <;> first | rfl | cases hi
  | _ => rfl

/-- A jump takes operands of these kinds, and leaves those where the next
instruction is and those where it goes. -/
inductive Jump.Takes : Jump → List Kind → List Kind → List Kind → Prop where
  | ifFalse {ks} : Takes .ifFalse (.plain :: ks) ks ks
  | ifFalseKeep {ks} : Takes .ifFalseKeep (.plain :: ks) ks (.plain :: ks)
  | ifTrueKeep {ks} : Takes .ifTrueKeep (.plain :: ks) ks (.plain :: ks)
  | ifIteratorEmpty {ks} :
      Takes .ifIteratorEmpty (.plain :: .iteration :: ks) (.iteration :: ks) (.plain :: ks)

/-- The operands in the body of a loop, on top of those where it is entered. -/
def LoopKind.inside (ks : List Kind) : LoopKind → List Kind
  | .whileLoop => .plain :: ks
  | .forLoop => ks
  | .foreachLoop => .iteration :: ks

/-- The operands where every iteration starts and where the next one is
prepared. -/
def LoopKind.turn (ks : List Kind) : LoopKind → List Kind
  | .foreachLoop => .plain :: .iteration :: ks
  | _ => .plain :: ks

/-- A loop whose positions expect the kinds there. -/
structure Loop.Stands (E : List Kind → List Kind → Prop) (K : Nat → List Kind) (ks : List Kind)
    (l : Loop) : Prop where
  depth : l.depth = ks.length
  entry : E ks (K l.entry)
  start : E (l.kind.turn ks) (K l.start)
  next : E (l.kind.turn ks) (K l.next)
  finish : E (.plain :: ks) (K l.finish)

/-- What is known of the loop that a line belongs to. -/
def Mark.Stands (E : List Kind → List Kind → Prop) (K : Nat → List Kind) : Mark → Prop
  | .plain => True
  | .loop l => ∃ ks, l.Stands E K ks
  | _ => False

/-! ### Judgements -/

/-- What can be shown of code line by line, from the kinds of operands. -/
structure Judgement (r : Rules) where
  K : Nat → List Kind
  /-- The operands that are left suit those that are expected. -/
  E : List Kind → List Kind → Prop
  Holds : Nat → Line → Prop
  /-- Where a statement is left by `break` and `continue`. -/
  Out : Exits → List Kind → Option LoopKind → Prop
  good : Bytecode → Prop
  /-- Operands are only counted. -/
  depths : Prop
  refl : ∀ ks, E ks ks
  straight : ∀ {pos i ks ks' mark}, i.Takes ks ks' → K pos = ks → E ks' (K (pos + 1)) →
    mark.Stands E K → Holds pos ⟨i, ks.length, mark⟩
  branch : ∀ {pos kind target ks next taken}, kind.Takes ks next taken → K pos = ks →
    E next (K (pos + 1)) → E taken (K target) → Holds pos ⟨.jump kind target, ks.length, .plain⟩
  /-- A jump that is always taken.  What comes behind it is not deeper. -/
  jump : ∀ {pos target ks ks'}, K pos = ks → E ks (K target) → E ks' (K (pos + 1)) →
    ks'.length ≤ ks.length → Holds pos ⟨.jump .always target, ks.length, .plain⟩
  exit : ∀ {pos x ks kind}, Out x ks (some kind) → r.leaves kind → K pos = .plain :: ks →
    E (.plain :: ks) (K (pos + 1)) →
    Holds pos ⟨.jump .always x.breakTo, ks.length + 1, (x.loop.map .leaves).getD .plain⟩ ∧
      Holds pos ⟨.jump .always x.continueTo, ks.length + 1, (x.loop.map .continues).getD .plain⟩
  /-- Behind a `return` directly in a body the stack is as it was. -/
  returnTop : ∀ {pos ks}, K pos = .plain :: ks →
    (depths → r.returns = false → E ks (K (pos + 1))) →
    Holds pos ⟨.returnTop, ks.length + 1, .plain⟩
  declareFunction : ∀ {pos ks name code}, K pos = ks → E ks (K (pos + 1)) → good code →
    Holds pos ⟨.declareFunction name code, ks.length, .plain⟩
  global : ∀ {x ks loop}, r.globals → Out x ks loop → ∀ ks', E ks ks'
  /-- The body of a loop can be left, if the loop stands among statements. -/
  enter : ∀ {ks l continueTo}, (depths ∨ ∃ x loop, Out x ks loop) → l.Stands E K ks →
    (continueTo = l.next ↔ l.kind ≠ .foreachLoop) →
    Out ⟨some l, l.finish, continueTo⟩ (l.kind.inside ks) (some l.kind)

/-- The kinds from a position on. -/
def Matches (K : Nat → List Kind) (pos : Nat) : List (List Kind) → Prop
  | [] => True
  | ks :: kss => K pos = ks ∧ Matches K (pos + 1) kss

namespace Judgement

variable {r : Rules} {j : Judgement r} {pos : Nat} {line : Line} {xs ys : List Line}
  {ks : List Kind} {kss kss' : List (List Kind)}

/-- The judgement holds of lines from a position on. -/
def All (j : Judgement r) (pos : Nat) : List Line → Prop
  | [] => True
  | line :: lines => j.Holds pos line ∧ j.All (pos + 1) lines

@[simp] theorem all_nil : j.All pos [] := trivial

@[simp] theorem all_cons : j.All pos (line :: xs) ↔ j.Holds pos line ∧ j.All (pos + 1) xs := Iff.rfl

@[simp] theorem all_append : j.All pos (xs ++ ys) ↔ j.All pos xs ∧ j.All (pos + xs.length) ys := by
  induction xs generalizing pos with
  | nil => simp
  | cons x xs ih => simp [ih, and_assoc, Nat.add_assoc, Nat.add_comm 1]

theorem All.get {lines : List Line} {start : Nat} (h : j.All start lines)
    (hline : lines[pos]? = some line) : j.Holds (start + pos) line := by
  induction lines generalizing start pos with
  | nil => cases hline
  | cons first lines ih =>
    cases pos with
    | zero =>
      cases hline
      exact h.1
    | succ pos =>
      rw [← Nat.add_assoc, Nat.add_right_comm]
      exact ih h.2 hline

@[simp] theorem matches_nil : Matches j.K pos [] := trivial

@[simp] theorem matches_cons :
    Matches j.K pos (ks :: kss) ↔ j.K pos = ks ∧ Matches j.K (pos + 1) kss := Iff.rfl

@[simp] theorem matches_append : Matches j.K pos (kss ++ kss') ↔
    Matches j.K pos kss ∧ Matches j.K (pos + kss.length) kss' := by
  induction kss generalizing pos with
  | nil => simp
  | cons ks kss ih => simp [ih, and_assoc, Nat.add_assoc, Nat.add_comm 1]

theorem of_eq (h : j.K pos = ks) : j.E ks (j.K pos) := h ▸ j.refl ks

theorem operation (n : Nat) {i : Instr Nat Bytecode}
    (hi : i.operation?.map Operation.takes = some n) (hpos : j.K pos = plains n ks)
    (hnext : j.E (i.result :: ks) (j.K (pos + 1))) : j.Holds pos ⟨i, ks.length + n, .plain⟩ := by
  rw [← length_plains]
  exact j.straight (.operation hi) hpos hnext trivial

theorem discardTop (hpos : j.K pos = .plain :: ks) (hnext : j.E ks (j.K (pos + 1))) :
    j.Holds pos ⟨.discardTop, ks.length + 1, .plain⟩ :=
  j.straight .discardTop hpos hnext trivial

theorem ifFalse {target : Nat} (hpos : j.K pos = .plain :: ks) (hnext : j.E ks (j.K (pos + 1)))
    (htarget : j.E ks (j.K target)) : j.Holds pos ⟨.jump .ifFalse target, ks.length + 1, .plain⟩ :=
  j.branch .ifFalse hpos hnext htarget

end Judgement

end PageScript
