/-
The operands fit the code of a body.

Behind the code of a node there is a plain operand more, and in between every instruction
finds and leaves what `Node.kinds` says.  So a judgement holds of all the lines of a node
(`Judges`) and of a body (`Judgement.from_body`): one that counts the operands of all tidy
nodes, any other one of those without loops inside expressions (`Tidy.judged`).  The kinds
themselves are judged at the end (`IsBody.kinded`).
-/
import PageScript.Proofs.Kinds
import PageScript.Proofs.Shape

namespace PageScript

open List hiding count
open Node

variable {node expr : Node} {i : Instr Nat Bytecode} {ks : List Kind} {loop : Option LoopKind}
  {globals : Bool} {K : Nat → List Kind}

namespace Judgement

variable {r : Rules} {j : Judgement r} {scopes : Nat → Scope} {p : Place} {pos : Nat} {x : Exits}
  {ks : List Kind} {nodes : List Node}

/-- The judgement holds of the lines from a position on, where these operands are
found. -/
def From (j : Judgement r) (pos : Nat) (ks : List Kind) (lines : List Line) : Prop :=
  j.E ks (j.K pos) ∧ j.All pos lines

@[simp] theorem from_append {xs ys : List Line} :
    j.From pos ks (xs ++ ys) ↔ j.From pos ks xs ∧ j.All (pos + xs.length) ys := by
  simp [From, and_assoc]

@[simp] theorem from_cons {line : Line} {xs : List Line} : j.From pos ks (line :: xs) ↔
    j.E ks (j.K pos) ∧ j.Holds pos line ∧ j.All (pos + 1) xs := Iff.rfl

/-- What is known about the ways out of a node in its place. -/
def In (j : Judgement r) (x : Exits) (ks : List Kind) : Place → Prop
  | .inner => True
  | .statement loop => j.Out x ks loop

/-- The judgement holds along the code of a node, if the operands fit behind it
and `continue` does not go into the middle of it. -/
def Judges (j : Judgement r) (scopes : Nat → Scope) (p : Place) (node : Node) : Prop :=
  ∀ (x : Exits) {pos : Nat} {ks : List Kind}, Matches j.K pos (node.kinds ks) →
    j.E (.plain :: ks) (j.K (pos + node.width)) →
    (x.continueTo ≤ pos ∨ pos + node.width ≤ x.continueTo) → j.In x ks p →
    j.From pos ks (node.layout scopes pos ks.length x)

theorem moved {pos' : Nat} (h : j.E ks (j.K pos)) (hpos : pos = pos') : j.E ks (j.K pos') :=
  hpos ▸ h

/-! ### Expressions -/

theorem Judges.single (hlayout : ∀ pos d x, layout scopes pos d x node = [⟨i, d, .plain⟩])
    (hkinds : ∀ ks, kinds ks node = [ks]) (hwidth : width node = 1)
    (hi : i.operation?.map Operation.takes = some 0) (hresult : i.result = .plain) :
    j.Judges scopes p node := by
  intro x pos ks hmatches hend _ _
  rw [hkinds] at hmatches
  rw [hwidth, ← hresult] at hend
  rw [hlayout]
  exact ⟨j.of_eq hmatches.1, j.operation 0 hi hmatches.1 hend, trivial⟩

theorem from_argumentLines (h : j.Judges scopes .inner node)
    (hmatches : Matches j.K pos (kinds ks node))
    (hend : j.E (node.argumentKind :: ks) (j.K (pos + width node)))
    (hclear : x.continueTo ≤ pos ∨ pos + width node ≤ x.continueTo) :
    j.From pos ks (argumentLines node (layout scopes pos ks.length x node) ks.length) := by
  cases node with
  | «variable» name slot =>
    exact ⟨j.of_eq hmatches.1, j.operation 0 rfl hmatches.1 hend, trivial⟩
  | _ => exact h x hmatches hend hclear trivial

section

variable (h : ∀ n ∈ nodes, j.Judges scopes .inner n)

include h

theorem from_layoutAll (hmatches : Matches j.K pos (kindsAll ks nodes))
    (hend : j.E (plains nodes.length ks) (j.K (pos + widthAll nodes)))
    (hclear : x.continueTo ≤ pos ∨ pos + widthAll nodes ≤ x.continueTo) :
    j.From pos ks (layoutAll scopes pos ks.length 1 x nodes) := by
  induction nodes generalizing pos ks with
  | nil => exact ⟨hend, trivial⟩
  | cons node nodes ih =>
    simp only [kindsAll, layoutAll, widthAll, matches_append, from_append, length_kinds,
      length_layout, ← Nat.add_assoc] at hmatches hend hclear ⊢
    obtain ⟨hnode, hnodes⟩ := hmatches
    have hrest := ih (fun n hn => h n (.tail _ hn)) hnodes hend (by omega)
    exact ⟨h node (.head _) x hnode hrest.1 (by omega) trivial, hrest.2⟩

theorem from_layoutArguments (hmatches : Matches j.K pos (kindsArguments ks nodes))
    (hend : j.E (passed nodes ks) (j.K (pos + widthAll nodes)))
    (hclear : x.continueTo ≤ pos ∨ pos + widthAll nodes ≤ x.continueTo) :
    j.From pos ks (layoutArguments scopes pos ks.length x nodes) := by
  induction nodes generalizing pos ks with
  | nil => exact ⟨hend, trivial⟩
  | cons node nodes ih =>
    simp only [kindsArguments, layoutArguments, widthAll, matches_append, from_append, length_kinds,
      length_argumentLines node _ _ (length_layout scopes _ _ _ node), ← Nat.add_assoc]
      at hmatches hend hclear ⊢
    obtain ⟨hnode, hnodes⟩ := hmatches
    have hrest := ih (fun n hn => h n (.tail _ hn)) hnodes hend (by omega)
    exact ⟨from_argumentLines (h node (.head _)) hnode hrest.1 (by omega), hrest.2⟩

theorem Judges.array : j.Judges scopes p (.array nodes) := by
  intro x pos ks hmatches hend hclear _
  simp only [kinds, layout, width, matches_append, matches_cons, from_append, all_cons,
    length_kindsAll, length_layoutAll, ← Nat.add_assoc] at hmatches hend hclear ⊢
  obtain ⟨hnodes, harray, -⟩ := hmatches
  exact ⟨from_layoutAll h hnodes (j.of_eq harray) (by omega),
    j.operation nodes.length rfl harray hend, trivial⟩

theorem Judges.interpolation {text : String} {place : Nat} :
    j.Judges scopes p (.interpolation text nodes place) := by
  intro x pos ks hmatches hend hclear _
  simp only [kinds, layout, width, matches_append, matches_cons, from_append, all_cons,
    length_kindsAll, length_layoutAll, ← Nat.add_assoc] at hmatches hend hclear ⊢
  obtain ⟨hparts, hload, hjoin, -⟩ := hmatches
  refine ⟨from_layoutAll h hparts (j.of_eq hload) (by omega), ?_,
    j.operation (nodes.length + 1) rfl ?_ hend, trivial⟩
  · rw [← length_plains]
    exact j.operation 0 rfl hload (j.of_eq hjoin)
  · rw [hjoin, plains_eq, plains_eq]
    rfl

theorem Judges.call {callee : Node} (hcallee : j.Judges scopes .inner callee) :
    j.Judges scopes p (.call callee (.argumentList nodes)) := by
  intro x pos ks hmatches hend hclear _
  have hcount : ks.length + count (.argumentList nodes) = (passed nodes ks).length := by
    rw [passed_eq, length_append, length_reverse, length_map, Nat.add_comm]
    rfl
  simp only [kinds, layout, width, append_assoc, matches_append, matches_cons, from_append,
    all_append, all_cons, length_kindsArguments, length_kinds, length_layoutArguments,
    length_layout, ← Nat.add_assoc, hcount] at hmatches hend hclear ⊢
  obtain ⟨harguments, hcalleeMatches, hcall, -⟩ := hmatches
  have hsecond := hcallee x hcalleeMatches (j.of_eq hcall) (by omega) trivial
  exact ⟨from_layoutArguments h harguments hsecond.1 (by omega), hsecond.2,
    j.straight .call hcall hend trivial, trivial⟩

end

theorem from_access (x : Exits) {base : Node} {lines : Node → List Line → Nat → List Line} {n : Nat}
    (hlines : lines = memberLines ∧ n = 1 ∨ lines = storeLines ∧ n = 2)
    (h : j.Judges scopes .inner base) (hmatches : Matches j.K pos (kinds (plains n ks) base))
    (hlast : Matches j.K (pos + width base)
      (replicate (!base.isVariable).toNat (.plain :: plains n ks)))
    (hend : j.E (.plain :: ks) (j.K (pos + width base + (!base.isVariable).toNat)))
    (hclear : x.continueTo ≤ pos ∨ pos + width base ≤ x.continueTo) :
    j.From pos (plains n ks)
      (lines base (layout scopes pos (ks.length + n) x base) (ks.length + n)) := by
  rw [← length_plains]
  cases base with
  | «variable» name slot =>
    rcases hlines with ⟨rfl, rfl⟩ | ⟨rfl, rfl⟩
    · exact ⟨j.of_eq hmatches.1, j.operation 1 rfl hmatches.1 hend, trivial⟩
    · exact ⟨j.of_eq hmatches.1, j.operation 2 rfl hmatches.1 hend, trivial⟩
  | _ =>
    have hfirst := h x hmatches (j.of_eq hlast.1) hclear trivial
    rcases hlines with ⟨rfl, rfl⟩ | ⟨rfl, rfl⟩
    · simp only [memberLines, from_append, all_cons, length_layout]
      exact ⟨hfirst, j.operation 2 rfl hlast.1 hend, trivial⟩
    · simp only [storeLines, from_append, all_cons, length_layout]
      exact ⟨hfirst, j.operation 3 rfl hlast.1 hend, trivial⟩

theorem Judges.member {base index : Node} (hindex : j.Judges scopes .inner index)
    (hbase : j.Judges scopes .inner base) : j.Judges scopes p (.member base index) := by
  intro x pos ks hmatches hend hclear _
  simp only [kinds, layout, width, append_assoc, matches_append, from_append, length_kinds,
    length_layout, ← Nat.add_assoc] at hmatches hend hclear ⊢
  obtain ⟨hkey, hmember, hlast⟩ := hmatches
  have hsecond := from_access x (.inl ⟨rfl, rfl⟩) hbase hmember hlast hend (by omega)
  exact ⟨hindex x hkey hsecond.1 (by omega) trivial, hsecond.2⟩

theorem Judges.then (hlayout : ∀ pos d x, layout scopes pos d x node
      = layout scopes pos d x expr ++ [⟨i, d + 1, .plain⟩])
    (hkinds : ∀ ks, kinds ks node = kinds ks expr ++ [.plain :: ks])
    (hwidth : width node = width expr + 1) (hi : i.operation?.map Operation.takes = some 1)
    (hresult : i.result = .plain) (h : j.Judges scopes .inner expr) : j.Judges scopes p node := by
  intro x pos ks hmatches hend hclear _
  rw [hkinds, matches_append, length_kinds] at hmatches
  rw [hwidth, ← Nat.add_assoc] at hend hclear
  rw [hlayout, from_append, length_layout]
  obtain ⟨hexpr, hlast, -⟩ := hmatches
  rw [← hresult] at hend
  exact ⟨h x hexpr (j.of_eq hlast) (by omega) trivial, j.operation 1 hi hlast hend, trivial⟩

section

variable {left right : Node} (hleft : j.Judges scopes .inner left)
  (hright : j.Judges scopes .inner right)

include hleft hright

theorem Judges.binary {op : Operator} : j.Judges scopes p (.binary op left right) := by
  intro x pos ks hmatches hend hclear _
  simp only [kinds, layout, width, append_assoc, matches_append, matches_cons, from_append,
    all_append, all_cons, length_kinds, length_layout, ← Nat.add_assoc] at hmatches hend hclear ⊢
  obtain ⟨hfirst, hsecond, hoperation, -⟩ := hmatches
  have hrest := hright x hsecond (j.of_eq hoperation) (by omega) trivial
  exact ⟨hleft x hfirst hrest.1 (by omega) trivial, hrest.2, j.operation 2 rfl hoperation hend,
    trivial⟩

theorem Judges.second {kind : Jump}
    (hlayout : ∀ pos d x, layout scopes pos d x node = layout scopes pos d x left ++
      ⟨.jump kind (pos + width left + 1 + width right), d + 1, .plain⟩ ::
      layout scopes (pos + width left + 1) d x right)
    (hkinds : ∀ ks, kinds ks node = kinds ks left ++ (.plain :: ks) :: kinds ks right)
    (hwidth : width node = width left + width right + 1)
    (hkind : ∀ ks, kind.Takes (.plain :: ks) ks (.plain :: ks)) : j.Judges scopes p node := by
  intro x pos ks hmatches hend hclear _
  rw [hkinds, matches_append, matches_cons, length_kinds] at hmatches
  rw [hwidth, Nat.add_right_comm, ← Nat.add_assoc, ← Nat.add_assoc] at hend hclear
  rw [hlayout, from_append, all_cons, length_layout]
  obtain ⟨hfirst, hjump, hsecond⟩ := hmatches
  have hrest := hright x hsecond hend (by omega) trivial
  exact ⟨hleft x hfirst (j.of_eq hjump) (by omega) trivial,
    j.branch (hkind ks) hjump hrest.1 hend, hrest.2⟩

theorem Judges.both : j.Judges scopes p (.both left right) :=
  .second hleft hright (fun _ _ _ => rfl) (fun _ => rfl) rfl fun _ => .ifFalseKeep

theorem Judges.either : j.Judges scopes p (.either left right) :=
  .second hleft hright (fun _ _ _ => rfl) (fun _ => rfl) rfl fun _ => .ifTrueKeep

end

/-! ### Assignments -/

def JudgesRight (j : Judgement r) (scopes : Nat → Scope) (operator : String) (post : Bool)
    (right : Node) : Prop :=
  (operator ∈ stepSigns ∧ right = .empty) ∨ operator ∈ assignmentSigns ∧
    (operator = "=" → post = false) ∧ right.operands = 1 ∧ j.Judges scopes .inner right

section

variable {operator : String} {right base index : Node} {post : Bool}

theorem from_dupIf (hmatches : Matches j.K pos (replicate post.toNat (.plain :: ks)))
    (hend : j.E (.plain :: plains post.toNat ks) (j.K (pos + post.toNat))) :
    j.From pos (.plain :: ks) (lineIf post .dup (ks.length + 1)) := by
  cases post with
  | false => exact ⟨hend, trivial⟩
  | true => exact ⟨j.of_eq hmatches.1, j.straight .dup hmatches.1 hend trivial, trivial⟩

theorem from_discardIf
    (hmatches : Matches j.K pos (replicate post.toNat (.plain :: plains post.toNat ks)))
    (hend : j.E (.plain :: ks) (j.K (pos + post.toNat))) :
    j.From pos (.plain :: plains post.toNat ks) (lineIf post .discardTop (ks.length + 2)) := by
  cases post with
  | false => exact ⟨hend, trivial⟩
  | true => exact ⟨j.of_eq hmatches.1, j.discardTop hmatches.1 hend, trivial⟩

theorem length_kept (n : Nat) : ks.length + n + post.toNat = (plains post.toNat ks).length + n := by
  rw [length_plains, Nat.add_right_comm]

variable (h : j.JudgesRight scopes operator post right)

include h

theorem JudgesRight.judges (x : Exits)
    (hmatches : Matches j.K pos (kinds ks right))
    (hend : j.E (plains right.operands ks) (j.K (pos + width right)))
    (hclear : x.continueTo ≤ pos ∨ pos + width right ≤ x.continueTo) :
    j.From pos ks (layout scopes pos ks.length x right) := by
  rcases h with ⟨-, rfl⟩ | ⟨-, -, hoperands, h⟩
  · exact ⟨hend, trivial⟩
  · rw [hoperands] at hend
    exact h x hmatches hend hclear trivial

theorem JudgesRight.of_eq (hoperator : operator = "=") : post = false ∧ right.operands = 1 := by
  subst hoperator
  rcases h with ⟨hsign, -⟩ | ⟨-, hpost, hoperands, -⟩
  · exact absurd hsign (by decide)
  · exact ⟨hpost rfl, hoperands⟩

theorem JudgesRight.operation (hoperator : operator ≠ "=")
    (hpos : j.K pos = plains right.operands (.plain :: ks))
    (hnext : j.E (.plain :: ks) (j.K (pos + 1))) :
    j.Holds pos (operationLine operator (ks.length + 1 + right.operands)) := by
  rcases h with ⟨hsign, rfl⟩ | ⟨hsign, -, hoperands, -⟩
  · simp only [stepSigns, mem_cons, not_mem_nil, or_false] at hsign
    rcases hsign with rfl | rfl <;> exact j.operation 1 rfl hpos hnext
  · rw [hoperands] at hpos ⊢
    simp only [assignmentSigns, mem_cons, not_mem_nil, or_false] at hsign
    rcases hsign with rfl | rfl | rfl | rfl
    · exact absurd rfl hoperator
    all_goals exact j.operation 2 rfl hpos hnext

theorem Judges.assignment {name : String} {slot : Int} :
    j.Judges scopes p (.assignment name slot right operator post) := by
  intro x pos ks hmatches hend hclear _
  by_cases hoperator : operator = "="
  · obtain ⟨rfl, hone⟩ := h.of_eq hoperator
    simp only [kinds, layout, width, if_pos hoperator, lineIf, matches_append, matches_cons,
      from_append, all_cons, length_kinds, length_layout] at hmatches hend hclear ⊢
    obtain ⟨hright, hassign, -⟩ := hmatches
    refine ⟨h.judges x hright ?_ (by omega), j.operation 1 rfl hassign hend, trivial⟩
    rw [hone]
    exact j.of_eq hassign
  · simp only [kinds, layout, width, if_neg hoperator, matches_append, matches_cons, from_cons,
      all_append, all_cons, length_append, length_cons, length_nil,
      length_replicate, length_kinds, length_layout, length_lineIf, cons_append,
      ← Nat.add_assoc, Nat.add_zero, length_kept] at hmatches hend hclear ⊢
    obtain ⟨hload, ⟨⟨hdup, hright⟩, hoperation, -⟩, hassign, hdiscard⟩ := hmatches
    have hdropped := from_discardIf hdiscard (j.moved hend (by omega))
    have hvalue := h.judges x hright (j.of_eq hoperation) (by omega)
    have hcopied := from_dupIf hdup hvalue.1
    exact ⟨j.of_eq hload, j.operation 0 rfl hload hcopied.1, ⟨⟨hcopied.2, hvalue.2⟩,
      h.operation hoperator hoperation (j.of_eq hassign), trivial⟩,
      j.operation 1 rfl hassign hdropped.1, hdropped.2⟩

theorem Judges.memberAssignment (hindex : j.Judges scopes .inner index)
    (hbase : j.Judges scopes .inner base) :
    j.Judges scopes p (.memberAssignment base index right operator post) := by
  intro x pos ks hmatches hend hclear _
  by_cases hoperator : operator = "="
  · obtain ⟨rfl, hone⟩ := h.of_eq hoperator
    simp only [kinds, layout, width, if_pos hoperator, lineIf, matches_append, from_append,
      length_kinds, length_layout, length_append, length_replicate, ← Nat.add_assoc,
      length_storeLines base _ _ (length_layout scopes _ _ _ base), Bool.toNat_false, plains,
      Nat.add_zero, Nat.zero_add] at hmatches hend hclear ⊢
    obtain ⟨⟨⟨⟨hright, hkey⟩, hstore⟩, hlast⟩, -⟩ := hmatches
    have hstored := from_access x (.inr ⟨rfl, rfl⟩) hbase hstore hlast hend (by omega)
    have hasked := hindex x hkey hstored.1 (by omega) trivial
    refine ⟨⟨⟨h.judges x hright ?_ (by omega), hasked.2⟩, hstored.2⟩, trivial⟩
    rw [hone]
    exact hasked.1
  · simp only [kinds, layout, width, if_neg hoperator, matches_append, matches_cons, from_append,
      all_cons, length_append, length_cons, length_nil, length_replicate,
      length_kinds, length_layout, length_lineIf, ← Nat.add_assoc, Nat.add_zero,
      length_storeLines base _ _ (length_layout scopes _ _ _ base),
      length_memberLines base _ _ (length_layout scopes _ _ _ base), length_kept] at hmatches hend hclear ⊢
    obtain ⟨⟨⟨⟨⟨⟨⟨⟨⟨hkey₁, hmember⟩, hread⟩, hdup⟩, hright⟩, hoperation, -⟩, hkey₂⟩, hstore⟩,
      hput⟩, hdiscard⟩ := hmatches
    -- The operands are found from the last instruction back to the first.
    have hdropped := from_discardIf hdiscard (j.moved hend (by omega))
    have hstored := from_access x (.inr ⟨rfl, rfl⟩) hbase hstore hput hdropped.1 (by omega)
    have hasked := hindex x hkey₂ hstored.1 (by omega) trivial
    have hvalue := h.judges x hright (j.of_eq hoperation) (by omega)
    have hcopied := from_dupIf hdup hvalue.1
    have hloaded := from_access x (.inl ⟨rfl, rfl⟩) hbase hmember hread hcopied.1 (by omega)
    exact ⟨⟨⟨⟨⟨⟨⟨hindex x hkey₁ hloaded.1 (by omega) trivial, hloaded.2⟩, hcopied.2⟩, hvalue.2⟩,
      h.operation hoperator hoperation hasked.1, trivial⟩, hasked.2⟩, hstored.2⟩, hdropped.2⟩

end

/-! ### Statements -/

theorem In.entered (hin : j.In x ks p) (hp : j.depths ∨ p ≠ .inner) :
    j.depths ∨ ∃ x loop, j.Out x ks loop := by
  rcases hp with hp | hp
  · exact .inl hp
  · cases p with
    | inner => exact absurd rfl hp
    | statement loop => exact .inr ⟨x, loop, hin⟩

theorem from_orNullLines (x : Exits) (h : node = .absent ∨ j.Judges scopes p node)
    (hmatches : Matches j.K pos (kinds ks node ++ replicate node.isAbsent.toNat ks))
    (hend : j.E (.plain :: ks) (j.K (pos + width node + node.isAbsent.toNat)))
    (hclear : x.continueTo ≤ pos ∨ pos + width node ≤ x.continueTo) (hin : j.In x ks p) :
    j.From pos ks (orNullLines node (layout scopes pos ks.length x node) ks.length) := by
  cases node with
  | absent => exact ⟨j.of_eq hmatches.1, j.operation 0 rfl hmatches.1 hend, trivial⟩
  | _ =>
    rcases h with h | h
    · cases h
    · exact h x (matches_append.1 hmatches).1 hend hclear hin

theorem Judges.block (h : ∀ n ∈ nodes, j.Judges scopes p n) : j.Judges scopes p (.block nodes) := by
  intro x pos ks hmatches hend hclear hin
  simp only [kinds, layout, width] at hmatches hend hclear ⊢
  induction nodes generalizing pos with
  | nil => exact ⟨j.of_eq hmatches.1, j.operation 0 rfl hmatches.1 hend, trivial⟩
  | cons node nodes ih =>
    cases nodes with
    | nil => exact h node (.head _) x hmatches hend hclear hin
    | cons next nodes =>
      simp only [kindsBlock, layoutBlock, widthBlock, matches_append, matches_cons, from_append,
        all_cons, length_kinds, length_layout, ← Nat.add_assoc] at hmatches hend hclear ⊢
      obtain ⟨hnode, hdiscard, hnodes⟩ := hmatches
      have hrest := ih (fun n hn => h n (.tail _ hn)) hnodes hend (by omega)
      exact ⟨h node (.head _) x hnode (j.of_eq hdiscard) (by omega) hin,
        j.discardTop hdiscard hrest.1, hrest.2⟩

theorem from_targetLines {target : Node} (htarget : target.isVariable)
    (hmatches : Matches j.K pos (replicate 2 (.plain :: ks))) (hend : j.E ks (j.K (pos + 2))) :
    j.From pos (.plain :: ks) (targetLines target (ks.length + 1)) := by
  obtain ⟨hassign, hdiscard, -⟩ := hmatches
  cases target with
  | «variable» name slot =>
    exact ⟨j.of_eq hassign, j.operation 1 rfl hassign (j.of_eq hdiscard),
      j.discardTop hdiscard hend, trivial⟩
  | _ => cases htarget

theorem from_keyLines {key : Node} (hkey : key.isAbsent ∨ key.isVariable)
    (hmatches : Matches j.K pos (replicate key.keyWidth (.plain :: ks)))
    (hend : j.E ks (j.K (pos + key.keyWidth))) :
    j.From pos (.plain :: ks) (keyLines key (ks.length + 1)) := by
  cases key with
  | absent => exact ⟨j.of_eq hmatches.1, j.discardTop hmatches.1 hend, trivial⟩
  | «variable» name slot =>
    have hlines : j.From pos (.plain :: ks) (targetLines (.variable name slot) (ks.length + 1)) :=
      from_targetLines rfl hmatches hend
    exact hlines
  | _ => rcases hkey with h | h <;> cases h

section

variable {condition thenBranch elseBranch setup update body subject key value : Node}

theorem Judges.ifElse (hcondition : j.Judges scopes .inner condition)
    (hthen : j.Judges scopes p thenBranch)
    (helse : elseBranch = .absent ∨ j.Judges scopes p elseBranch) :
    j.Judges scopes p (.ifElse condition thenBranch elseBranch) := by
  intro x pos ks hmatches hend hclear hin
  simp only [kinds, layout, width, append_assoc, cons_append, from_append, all_append,
    all_cons, length_layout, ← Nat.add_assoc] at hmatches hend hclear ⊢
  rw [matches_append, matches_cons, matches_append, matches_cons, length_kinds, length_kinds]
    at hmatches
  obtain ⟨hc, hjump, ht, hskip, he⟩ := hmatches
  have hlast := from_orNullLines x helse he hend (by omega) hin
  have hmiddle := hthen x ht (j.of_eq hskip) (by omega) hin
  exact ⟨hcondition x hc (j.of_eq hjump) (by omega) trivial, j.ifFalse hjump hmiddle.1 hlast.1,
    hmiddle.2, j.jump hskip hend hlast.1 (Nat.le_succ _), hlast.2⟩

theorem Judges.whileLoop (hp : j.depths ∨ p ≠ .inner) (hcondition : j.Judges scopes .inner condition)
    (hbody : j.Judges scopes (.statement (some .whileLoop)) body) :
    j.Judges scopes p (.whileLoop condition body) := by
  intro x pos ks hmatches hend hclear hin
  simp only [kinds, layout, width, whileAt, append_assoc, cons_append, matches_append,
    matches_cons, from_cons, all_append, all_cons, length_kinds, length_layout, ← Nat.add_assoc]
    at hmatches hend hclear ⊢
  obtain ⟨hload, hc, hjump, hb, hdiscard, hback, -⟩ := hmatches
  have hturn := hcondition { x with continueTo := pos + 1 } hc (j.of_eq hjump)
    (by dsimp only; omega) trivial
  have hstands : (whileAt pos ks.length (width condition) (width body)).Stands j.E j.K ks :=
    ⟨rfl, j.of_eq hload, hturn.1, hturn.1, hend⟩
  have hinside := hbody _ hb (j.of_eq hdiscard) (.inl (by dsimp only [whileAt]; omega))
    (j.enter (hin.entered hp) hstands (iff_of_true rfl (by rintro ⟨⟩)))
  exact ⟨j.of_eq hload, j.straight (.operation (n := 0) rfl) hload hturn.1 ⟨ks, hstands⟩, hturn.2,
    j.ifFalse hjump hinside.1 hend, hinside.2, j.discardTop hdiscard (j.of_eq hback),
    j.jump hback hturn.1 (j.moved hend (by omega)) (Nat.le_refl _), trivial⟩

theorem Judges.forLoop (hp : j.depths ∨ p ≠ .inner) (hsetup : j.Judges scopes .inner setup)
    (hcondition : j.Judges scopes .inner condition) (hupdate : j.Judges scopes .inner update)
    (hbody : j.Judges scopes (.statement (some .forLoop)) body) :
    j.Judges scopes p (.forLoop setup condition update body) := by
  intro x pos ks hmatches hend hclear hin
  simp only [kinds, layout, width, forAt, append_assoc, cons_append, matches_append,
    matches_cons, from_append, all_append, all_cons, length_kinds, length_layout, ← Nat.add_assoc]
    at hmatches hend hclear ⊢
  have hbodyEnd : pos + width setup + 1 + 1 + width condition + 1 + 1 + width body
      = pos + width setup + width condition + width body + 4 := by omega
  rw [hbodyEnd] at hmatches ⊢
  obtain ⟨hs, hdrop, hload, hc, hjump, hdiscard, hb, hu, hforget, hback, -⟩ := hmatches
  let l := forAt pos ks.length (width setup) (width condition) (width update) (width body)
  have hturn := hcondition ⟨some l, l.finish, l.next⟩ hc (j.of_eq hjump)
    (by dsimp only [l, forAt]; omega) trivial
  have hnext := hupdate ⟨some l, l.finish, x.continueTo⟩ hu (j.of_eq hforget)
    (by dsimp only; omega) trivial
  have hfirst := hsetup x hs (j.of_eq hdrop) (by omega) trivial
  have hstands : l.Stands j.E j.K ks := ⟨rfl, hfirst.1, hturn.1, hnext.1, hend⟩
  have hinside := hbody _ hb (j.moved hnext.1 hbodyEnd.symm) (.inr (by dsimp only [l, forAt]; omega))
    (j.enter (hin.entered hp) hstands (iff_of_true rfl (by rintro ⟨⟩)))
  exact ⟨hfirst, j.straight .discardTop hdrop (j.of_eq hload) ⟨ks, hstands⟩,
    j.operation 0 rfl hload hturn.1, hturn.2, j.ifFalse hjump (j.of_eq hdiscard) hend,
    j.discardTop hdiscard hinside.1, hinside.2, hnext.2, j.discardTop hforget (j.of_eq hback),
    j.jump hback hturn.1 (j.moved hend (by omega)) (Nat.le_refl _), trivial⟩

theorem Judges.foreachLoop (hp : j.depths ∨ p ≠ .inner) (hsubject : j.Judges scopes .inner subject)
    (hkey : key.isAbsent ∨ key.isVariable) (hvalue : value.isVariable)
    (hbody : j.Judges scopes (.statement (some .foreachLoop)) body) :
    j.Judges scopes p (.foreachLoop subject key value body) := by
  intro x pos ks hmatches hend hclear hin
  simp only [kinds, layout, width, foreachAt, append_assoc, cons_append, from_append,
    all_append, all_cons, length_layout, length_keyLines, length_targetLines, ← Nat.add_assoc]
    at hmatches hend hclear ⊢
  rw [matches_append, matches_cons, matches_cons, matches_cons, matches_cons, matches_append,
    matches_append, matches_append, matches_cons, length_kinds, length_kinds,
    length_replicate, length_replicate] at hmatches
  have hbodyStart : pos + width subject + 1 + 1 + 1 + 1 + keyWidth key + 2
      = pos + width subject + 2 + keyWidth key + 4 := by omega
  rw [hbodyStart] at hmatches ⊢
  obtain ⟨hs, hload, hnull, hjump, hnext, hk, hv, hb, hback, -⟩ := hmatches
  have hfirst := hsubject x hs (j.of_eq hload) (by omega) trivial
  have hstands : (foreachAt pos ks.length (width subject) (keyWidth key) (width body)).Stands
      j.E j.K ks := ⟨rfl, hfirst.1, j.of_eq hjump, j.of_eq hjump, hend⟩
  -- The target of `continue` lies outside of the loop.
  have hinside := hbody ⟨_, _, x.continueTo⟩ hb (j.of_eq hback) (by dsimp only; omega)
    (j.enter (hin.entered hp) hstands
      (iff_of_false (by dsimp only [foreachAt]; omega) (absurd rfl ·)))
  have hbound := from_targetLines hvalue hv (j.moved hinside.1 hbodyStart.symm)
  have hpair := from_keyLines hkey hk hbound.1
  exact ⟨hfirst, j.straight (.operation (n := 1) rfl) hload (j.of_eq hnull) ⟨ks, hstands⟩,
    j.operation 0 rfl hnull (j.of_eq hjump), j.branch .ifIteratorEmpty hjump (j.of_eq hnext) hend,
    j.straight .nextIterator hnext hpair.1 trivial, hpair.2, hbound.2, hinside.2,
    j.jump hback (j.of_eq hjump) (j.moved hend (by omega)) (Nat.le_succ _), trivial⟩

end

section

variable {kind : LoopKind} (hleaves : r.leaves kind) {count : Node}

include hleaves

theorem Judges.breakLoop : j.Judges scopes (.statement (some kind)) (.breakLoop count) := by
  rintro x pos ks ⟨hload, hjump, -⟩ hend - hout
  exact ⟨j.of_eq hload, j.operation 0 rfl hload (j.of_eq hjump),
    (j.exit hout hleaves hjump hend).1, trivial⟩

theorem Judges.continueLoop : j.Judges scopes (.statement (some kind)) (.continueLoop count) := by
  rintro x pos ks ⟨hload, hjump, -⟩ hend - hout
  exact ⟨j.of_eq hload, j.operation 0 rfl hload (j.of_eq hjump),
    (j.exit hout hleaves hjump hend).2, trivial⟩

end

theorem from_return (x : Exits) (h : expr = .absent ∨ j.Judges scopes .inner expr)
    (hmatches : Matches j.K pos (kinds ks (.returnValue expr)))
    (hend : j.depths → r.returns = false → j.E ks (j.K (pos + width (.returnValue expr))))
    (hclear : x.continueTo ≤ pos ∨ pos + width (.returnValue expr) ≤ x.continueTo) :
    j.From pos ks (layout scopes pos ks.length x (.returnValue expr)) := by
  simp only [kinds, layout, width, matches_append, matches_cons, from_append, all_cons,
    length_append, length_replicate, length_kinds, ← Nat.add_assoc,
    length_orNullLines expr _ _ (length_layout scopes _ _ _ expr)] at hmatches hend hclear ⊢
  obtain ⟨hvalue, hreturn, -⟩ := hmatches
  exact ⟨from_orNullLines x h (matches_append.2 (by rwa [length_kinds])) (j.of_eq hreturn)
    (by omega) trivial, j.returnTop hreturn hend, trivial⟩

theorem Judges.return (hreturns : r.returns) (h : expr = .absent ∨ j.Judges scopes .inner expr) :
    j.Judges scopes (.statement loop) (.returnValue expr) := by
  intro x pos ks hmatches _ hclear _
  refine from_return x h hmatches (fun _ hnot => ?_) hclear
  rw [hreturns] at hnot
  cases hnot

theorem Judges.global (hglobals : r.globals) : j.Judges scopes (.statement loop) (.global nodes) :=
  fun _ _ _ _ _ _ hout => ⟨j.global hglobals hout _, trivial⟩

theorem Judges.exprStatement (h : j.Judges scopes .inner expr) :
    j.Judges scopes p (.exprStatement expr) :=
  fun x _ _ hmatches hend hclear _ => h x hmatches hend hclear trivial

/-! ### Bodies -/

def JudgesElement (j : Judgement r) (scopes : Nat → Scope) (node : Node) : Prop :=
  (∃ expr, node = .returnValue expr ∧ (expr = .absent ∨ j.Judges scopes .inner expr)) ∨
    node.isReturn = false ∧ j.Judges scopes (.statement none) node

theorem JudgesElement.from {node : Node} {i : Instr Nat Bytecode} (h : j.JudgesElement scopes node)
    (hout : j.Out {} ks none) (hmatches : Matches j.K pos (kinds ks node ++
      replicate (!node.isReturn).toNat (.plain :: ks))) (hend : j.depths → r.returns = false →
      j.E ks (j.K (pos + width node + (!node.isReturn).toNat)))
    (hi : node.isReturn = false → j.K (pos + width node) = .plain :: ks →
      j.Holds (pos + width node) ⟨i, ks.length + 1, .plain⟩) :
    j.From pos ks
      (layout scopes pos ks.length {} node ++ lineIf (!node.isReturn) i (ks.length + 1)) := by
  rcases h with ⟨expr, rfl, h⟩ | ⟨hreturn, h⟩
  · rw [show (!(Node.returnValue expr).isReturn) = false from rfl] at hmatches hend ⊢
    rw [Bool.toNat_false, replicate_zero, append_nil] at hmatches
    rw [lineIf, if_neg Bool.false_ne_true, append_nil]
    exact from_return {} h hmatches hend (.inl (Nat.zero_le pos))
  · simp only [hreturn, Bool.not_false, Bool.toNat_true, lineIf, if_true, replicate_one,
      matches_append, matches_cons, from_append, all_cons, length_kinds, length_layout]
      at hmatches ⊢
    obtain ⟨hnode, hlast, -⟩ := hmatches
    exact ⟨h {} hnode (j.of_eq hlast) (.inl (Nat.zero_le pos)) hout, hi hreturn hlast, trivial⟩

theorem from_layoutBody (h : ∀ n ∈ nodes, j.JudgesElement scopes n) (hout : j.Out {} ks none)
    (hmatches : Matches j.K pos (kindsBody ks nodes))
    (hnone : nodes = [] → j.E (.plain :: ks) (j.K (pos + 1)))
    (hend : nodes ≠ [] → j.depths → r.returns = false → j.E ks (j.K (pos + widthBody nodes))) :
    j.From pos ks (layoutBody scopes pos ks.length {} nodes) := by
  induction nodes generalizing pos with
  | nil => exact ⟨j.of_eq hmatches.1, j.operation 0 rfl hmatches.1 (hnone rfl), trivial⟩
  | cons node nodes ih =>
    have hnode := h node (.head _)
    have hbehind := hend (cons_ne_nil _ _)
    cases nodes with
    | nil =>
      rw [widthBody, ← Nat.add_assoc] at hbehind
      refine hnode.from hout hmatches hbehind fun hreturn hlast => j.returnTop hlast ?_
      simpa [hreturn] using hbehind
    | cons next nodes =>
      rw [widthBody_cons, ← Nat.add_assoc, ← Nat.add_assoc] at hbehind
      simp only [kindsBody] at hmatches
      rw [matches_append, length_append, length_kinds, length_replicate,
        ← Nat.add_assoc] at hmatches
      rw [layoutBody_cons, from_append, length_append, length_layout, length_lineIf,
        ← Nat.add_assoc]
      have hrest := ih (fun n hn => h n (.tail _ hn)) hmatches.2 (by rintro ⟨⟩)
        fun _ => hbehind
      refine ⟨hnode.from hout hmatches.1 (fun _ _ => hrest.1) fun hreturn hlast => ?_, hrest.2⟩
      exact j.discardTop hlast (by simpa [hreturn] using hrest.1)

theorem from_functions {functions : List Node}
    (h : ∀ f ∈ functions, ∃ name body scope, f = .function name body scope)
    (hgood : ∀ name body scope, .function name body scope ∈ functions →
      j.good (functionCode name (scopes scope) (body.compile scopes)))
    (hmatches : Matches j.K pos (replicate (widthAll functions) ks))
    (hend : j.E ks (j.K (pos + widthAll functions))) :
    j.From pos ks (layoutAll scopes pos ks.length 0 x functions) := by
  induction functions generalizing pos with
  | nil => exact ⟨hend, trivial⟩
  | cons f functions ih =>
    obtain ⟨name, body, scope, rfl⟩ := h f (.head _)
    rw [widthAll, width, replicate_add, replicate_one, singleton_append,
      matches_cons] at hmatches
    rw [widthAll, width, ← Nat.add_assoc] at hend
    have hrest := ih (fun f hf => h f (.tail _ hf))
      (fun name body scope hf => hgood name body scope (.tail _ hf)) hmatches.2 hend
    exact ⟨j.of_eq hmatches.1,
      j.declareFunction hmatches.1 hrest.1 (hgood name body scope (.head _)), hrest.2⟩

theorem from_body {functions : List Node}
    (hfunctions : ∀ f ∈ functions, ∃ name body scope, f = .function name body scope)
    (hgood : ∀ name body scope, .function name body scope ∈ functions →
      j.good (functionCode name (scopes scope) (body.compile scopes)))
    (h : ∀ n ∈ nodes, j.JudgesElement scopes n) (hout : j.Out {} [] none)
    (hmatches : Matches j.K 0 (kinds [] (.sourceElements functions nodes)))
    (hnone : nodes = [] → j.E [.plain] (j.K (widthAll functions + 1)))
    (hend : nodes ≠ [] → j.depths → r.returns = false →
      j.E [] (j.K (widthAll functions + widthBody nodes))) :
    j.From 0 [] (layout scopes 0 0 {} (.sourceElements functions nodes)) := by
  rw [kinds, matches_append, length_replicate, Nat.zero_add] at hmatches
  rw [layout, from_append, length_layoutAll, Nat.zero_add]
  have hbody : j.From (widthAll functions) [] (layoutBody scopes (widthAll functions) 0 {} nodes) :=
    from_layoutBody h hout hmatches.2 hnone hend
  refine ⟨from_functions hfunctions hgood hmatches.1 ?_, hbody.2⟩
  rw [Nat.zero_add]
  exact hbody.1

end Judgement

namespace Node

variable {r : Rules} {j : Judgement r} {scopes : Nat → Scope} {p : Place} {node : Node}

mutual

/-- No loop stands where a value is wanted, unless loops may be `deep`. -/
def Seemly (deep : Prop) (p : Place) : Node → Prop
  | .exprStatement expr | .print expr | .not expr | .returnValue expr => Seemly deep .inner expr
  | .call callee (.argumentList nodes) => SeemlyAll deep .inner nodes ∧ Seemly deep .inner callee
  | .array nodes | .interpolation _ nodes _ => SeemlyAll deep .inner nodes
  | .assignment _ _ right _ _ => Seemly deep .inner right
  | .memberAssignment base index right _ _ =>
    Seemly deep .inner right ∧ Seemly deep .inner index ∧ Seemly deep .inner base
  | .ifElse condition yes no =>
    Seemly deep .inner condition ∧ Seemly deep p yes ∧ Seemly deep p no
  | .whileLoop condition body => (deep ∨ p ≠ .inner) ∧ Seemly deep .inner condition ∧
    Seemly deep (.statement (some .whileLoop)) body
  | .forLoop setup condition update body => (deep ∨ p ≠ .inner) ∧ Seemly deep .inner setup ∧
    Seemly deep .inner condition ∧ Seemly deep .inner update ∧
    Seemly deep (.statement (some .forLoop)) body
  | .foreachLoop subject _ _ body => (deep ∨ p ≠ .inner) ∧ Seemly deep .inner subject ∧
    Seemly deep (.statement (some .foreachLoop)) body
  | .block nodes => SeemlyAll deep p nodes
  | .member left right | .binary _ left right | .both left right | .either left right =>
    Seemly deep .inner left ∧ Seemly deep .inner right
  | _ => True

def SeemlyAll (deep : Prop) (p : Place) : List Node → Prop
  | [] => True
  | node :: nodes => Seemly deep p node ∧ SeemlyAll deep p nodes

end

section

variable {deep : Prop}

@[simp] theorem seemlyAll_iff {nodes : List Node} :
    SeemlyAll deep p nodes ↔ ∀ n ∈ nodes, Seemly deep p n := by
  induction nodes with
  | nil => simp [SeemlyAll]
  | cons node nodes ih => rw [SeemlyAll, ih, forall_mem_cons]

theorem IsExpression.seemly (h : IsExpression node) : Seemly deep .inner node := by
  induction h with
  | interpolation hparts =>
    refine seemlyAll_iff.2 fun n hn => ?_
    have hvariable := hparts n hn
    cases n <;> trivial
  | _ => simp_all [Seemly]

theorem IsStatement.seemly (h : IsStatement globals node) : Seemly deep (.statement loop) node := by
  induction h generalizing loop with
  | _ => simp_all [Seemly, IsExpression.seemly]

theorem Tidy.seemly (hdeep : deep) (h : Tidy r p node) : Seemly deep p node := by
  induction h <;> simp_all [Seemly]

theorem TidyElement.seemly (hdeep : deep) (h : TidyElement r node) :
    Seemly deep (.statement none) node := by
  cases h with
  | statement h => exact h.seemly hdeep
  | returnNothing => trivial
  | returnValue h =>
    rw [Seemly]
    exact h.seemly hdeep

end

/-- A judgement holds of every tidy node that is seemly, as all are for one that
counts the operands. -/
theorem Tidy.judged (hj : Seemly j.depths p node) (h : Tidy r p node) : j.Judges scopes p node := by
  induction h with
  | exprStatement _ ih => exact .exprStatement (ih hj)
  | call _ _ ihs ih =>
    exact .call (fun n hn => ihs n hn (seemlyAll_iff.1 hj.1 n hn)) (ih hj.2)
  | array _ ihs => exact .array fun n hn => ihs n hn (seemlyAll_iff.1 hj n hn)
  | interpolation _ ihs => exact .interpolation fun n hn => ihs n hn (seemlyAll_iff.1 hj n hn)
  | member _ _ ihi ihb => exact .member (ihi hj.2) (ihb hj.1)
  | assignment hsign hpost ht ih => exact .assignment (.inr ⟨hsign, hpost, ht.operands_eq, ih hj⟩)
  | step hsign => exact .assignment (.inl ⟨hsign, rfl⟩)
  | memberAssignment hsign hpost ht _ _ ihr ihi ihb =>
    exact .memberAssignment (.inr ⟨hsign, hpost, ht.operands_eq, ihr hj.1⟩) (ihi hj.2.1) (ihb hj.2.2)
  | memberStep hsign _ _ ihi ihb =>
    exact .memberAssignment (.inl ⟨hsign, rfl⟩) (ihi hj.2.1) (ihb hj.2.2)
  | ifElse _ _ _ ihc iht ihe => exact .ifElse (ihc hj.1) (iht hj.2.1) (.inr (ihe hj.2.2))
  | ifThen _ _ ihc iht => exact .ifElse (ihc hj.1) (iht hj.2.1) (.inl rfl)
  | whileLoop _ _ ihc ihb => exact .whileLoop hj.1 (ihc hj.2.1) (ihb hj.2.2)
  | forLoop _ _ _ _ ihs ihc ihu ihb =>
    exact .forLoop hj.1 (ihs hj.2.1) (ihc hj.2.2.1) (ihu hj.2.2.2.1) (ihb hj.2.2.2.2)
  | foreachLoop _ hkey hvalue _ ihs ihb =>
    exact .foreachLoop hj.1 (ihs hj.2.1) hkey hvalue (ihb hj.2.2)
  | print _ ih | not _ ih => exact .then (fun _ _ _ => rfl) (fun _ => rfl) rfl rfl rfl (ih hj)
  | block _ ihs => exact .block fun n hn => ihs n hn (seemlyAll_iff.1 hj n hn)
  | binary _ _ ihl ihr => exact .binary (ihl hj.1) (ihr hj.2)
  | both _ _ ihl ihr => exact .both (ihl hj.1) (ihr hj.2)
  | either _ _ ihl ihr => exact .either (ihl hj.1) (ihr hj.2)
  | returnNothing hreturns => exact .return hreturns (.inl rfl)
  | returnValue hreturns _ ih => exact .return hreturns (.inr (ih hj))
  | global hglobals => exact .global hglobals
  | breakLoop hleaves => exact .breakLoop hleaves
  | continueLoop hleaves => exact .continueLoop hleaves
  | _ => exact .single (fun _ _ _ => rfl) (fun _ => rfl) rfl rfl rfl

theorem TidyElement.return_or (h : TidyElement r node) :
    (∃ expr, node = .returnValue expr ∧ (expr = .absent ∨ Tidy r .inner expr)) ∨
      node.isReturn = false ∧ Tidy r (.statement none) node := by
  cases h with
  | returnNothing => exact .inl ⟨_, rfl, .inl rfl⟩
  | returnValue h => exact .inl ⟨_, rfl, .inr h⟩
  | statement h =>
    cases hreturn : node.isReturn with
    | false => exact .inr ⟨rfl, h⟩
    | true =>
      cases h with
      | returnNothing => exact .inl ⟨_, rfl, .inl rfl⟩
      | returnValue _ h => exact .inl ⟨_, rfl, .inr h⟩
      | _ => cases hreturn

theorem TidyElement.judged (hj : Seemly j.depths (.statement none) node)
    (h : TidyElement r node) : j.JudgesElement scopes node := by
  rcases h.return_or with ⟨expr, rfl, ht⟩ | ⟨hreturn, ht⟩
  · exact .inl ⟨expr, rfl, ht.imp_right (·.judged hj)⟩
  · exact .inr ⟨hreturn, ht.judged hj⟩

end Node

/-! ### The kinds of operands -/

theorem Instr.Takes.after {ks' : List Kind} (h : i.Takes ks ks') : i.after ks = some ks' := by
  cases h with
  | operation hi =>
    obtain ⟨o, ho, rfl⟩ := Option.map_eq_some_iff.1 hi
    simp [Instr.after, ho, plains_eq]
  | @call nodes ks =>
    have hne : ∀ node : Node, node.argumentKind ≠ .iteration := by
      intro node
      unfold argumentKind
      split <;> decide
    simp [Instr.after, Instr.operation?, passed_eq, hne]
  | _ => rfl

theorem Instr.Takes.operands {ks' : List Kind} (h : i.Takes ks ks')
    {n : Nat} (hn : n < i.needs) (href : ks.getD n .plain = .reference) :
    ∃ count, i = .call count := by
  have hafter := h.after
  cases h with
  | operation hi =>
    have hplain := (Instr.after_operation _ hi hafter).1
    obtain ⟨o, ho, rfl⟩ := Option.map_eq_some_iff.1 hi
    rw [Instr.needs_of_operation ho] at hn
    cases (hplain n hn).symm.trans href
  | call => exact ⟨_, rfl⟩
  | _ =>
    obtain rfl : n = 0 := Nat.lt_one_iff.1 hn
    cases href

section

variable {r : Rules} {E : List Kind → List Kind → Prop}

structure Rules.Compares (r : Rules) (E : List Kind → List Kind → Prop) : Prop where
  refl : ∀ ks, E ks ks
  free : (r.globals ∨ ∃ kind, kind ≠ .forLoop ∧ r.leaves kind) →
    ∀ {ks}, .reference ∉ ks → ∀ ks', E ks ks'

/-- The operands before an instruction are of kinds it can take, and those it
leaves are of the kinds that are there where the machine goes on.  Only a call
takes references. -/
structure Kinded (E : List Kind → List Kind → Prop) (good : Bytecode → Prop)
    (K : Nat → List Kind) (pos : Nat) (i : Instr Nat Bytecode) : Prop where
  after : ∃ ks, i.after (K pos) = some ks ∧ (i.fallsThrough → E ks (K (pos + 1)))
  target : ∀ kind target, i = .jump kind target → E (kind.after true (K pos)) (K target)
  operands : ∀ n < i.needs, (K pos).getD n .plain = .reference → ∃ count, i = .call count
  declares : ∀ name code, i = .declareFunction name code → good code

theorem Kinded.jump {good : Bytecode → Prop} {pos target : Nat} (hpos : K pos = ks)
    (htarget : E ks (K target)) :
    Kinded E good K pos (.jump .always target) := by
  refine ⟨⟨K pos, rfl, by rintro ⟨⟩⟩, ?_, fun n hn => absurd hn (Nat.not_lt_zero n),
    by rintro _ _ ⟨⟩⟩
  rintro _ _ ⟨⟩
  exact hpos ▸ htarget

/-- Where `break` and `continue` go, the operands are expected that are there. -/
def Escapes (r : Rules) (E : List Kind → List Kind → Prop) (K : Nat → List Kind) (x : Exits)
    (ks : List Kind) (loop : Option LoopKind) : Prop :=
  ∀ kind, loop = some kind → r.leaves kind →
    E (.plain :: ks) (K x.breakTo) ∧ E (.plain :: ks) (K x.continueTo)

theorem escapes_of_free {x : Exits} {kind : LoopKind}
    (hE : r.Compares E) (hkind : kind ≠ .forLoop) (hrefs : .reference ∉ ks) :
    Escapes r E K x ks (some kind) := by
  rintro _ ⟨⟩ hleaves
  have hpushed : .reference ∉ Kind.plain :: ks := by simpa using hrefs
  have hfree := hE.free (.inr ⟨kind, hkind, hleaves⟩) hpushed
  exact ⟨hfree _, hfree _⟩

def Rules.Compares.judgement (hE : r.Compares E) (good : Bytecode → Prop) (K : Nat → List Kind) :
    Judgement r where
  K := K
  E := E
  Holds pos line := Kinded E good K pos line.instr
  Out x ks loop := .reference ∉ ks ∧ Escapes r E K x ks loop
  good := good
  depths := False
  refl := hE.refl
  straight {pos i ks ks' mark} h hpos hnext _ := by
    subst hpos
    refine ⟨⟨ks', h.after, fun _ => hnext⟩, ?_, fun _ => h.operands, ?_⟩
    · rintro kind target rfl
      cases h.isStraight
    · rintro name code rfl
      cases h.isStraight
  branch {pos kind target ks next taken} h hpos hnext htarget := by
    refine ⟨⟨next, ?_, fun _ => hnext⟩, ?_, fun n hn href => ?_, by rintro _ _ ⟨⟩⟩
    · rw [hpos]
      cases h <;> rfl
    · rintro _ _ ⟨⟩
      rw [hpos]
      cases h <;> exact htarget
    · rw [hpos] at href
      cases h with
      | ifIteratorEmpty =>
        have hlt : n < 2 := hn
        obtain rfl | rfl : n = 0 ∨ n = 1 := by omega
        · cases href
        · cases href
      | _ =>
        obtain rfl : n = 0 := Nat.lt_one_iff.1 hn
        cases href
  jump hpos htarget _ _ := .jump hpos htarget
  exit hout hleaves hpos _ :=
    have hescapes := hout.2 _ rfl hleaves
    ⟨.jump hpos hescapes.1, .jump hpos hescapes.2⟩
  returnTop {pos ks} hpos _ := by
    refine ⟨⟨ks, hpos ▸ rfl, by rintro ⟨⟩⟩, by rintro _ _ ⟨⟩, fun n hn href => ?_, by rintro _ _ ⟨⟩⟩
    obtain rfl : n = 0 := Nat.lt_one_iff.1 hn
    rw [hpos] at href
    cases href
  declareFunction hpos hnext hcode := by
    refine ⟨⟨_, rfl, fun _ => hpos ▸ hnext⟩, by rintro _ _ ⟨⟩,
      fun n hn => absurd hn (Nat.not_lt_zero n), ?_⟩
    rintro _ _ ⟨⟩
    exact hcode
  global hglobals hout := hE.free (.inl hglobals) hout.1
  enter {ks l continueTo} hout hstands hnext := by
    obtain ⟨_, _, hrefs, -⟩ := hout.resolve_left id
    have hinside : .reference ∉ l.kind.inside ks := by
      cases l.kind <;> simpa [LoopKind.inside] using hrefs
    refine ⟨hinside, ?_⟩
    obtain ⟨kind, depth, entry, start, next, finish⟩ := l
    cases kind with
    | whileLoop | foreachLoop => exact escapes_of_free hE (by rintro ⟨⟩) hinside
    | forLoop =>
      refine fun _ _ _ => ⟨hstands.finish, ?_⟩
      rw [hnext.2 (by rintro ⟨⟩)]
      exact hstands.next

end

namespace Node

/-- The kinds of the operands at every position of the code of a body.  Behind
its end there is what code without statements leaves. -/
def kindsAt (body : Node) (pos : Nat) : List Kind := (kinds [] body).getD pos [.plain]

theorem matches_of_get {kss : List (List Kind)} {start : Nat}
    (h : ∀ pos ks, kss[pos]? = some ks → K (start + pos) = ks) : Matches K start kss := by
  induction kss generalizing start with
  | nil => trivial
  | cons first kss ih =>
    refine ⟨h 0 first rfl, ih fun pos ks hks => ?_⟩
    rw [Nat.add_assoc, Nat.add_comm 1]
    exact h (pos + 1) ks hks

theorem matches_getD (kss : List (List Kind)) (ks : List Kind) :
    Matches (kss.getD · ks) 0 kss := matches_of_get fun pos ks hks => by
  rw [Nat.zero_add, getD_eq_getElem?_getD, hks, Option.getD_some]

theorem IsBody.kinded {r : Rules} {E : List Kind → List Kind → Prop} {good : Bytecode → Prop}
    {scopes : Nat → Scope} {body : Node} (hE : r.Compares E)
    (h : IsBody globals body) (ht : TidyBody r body)
    (hgood : ∀ name f scope, IsBody globals f → TidyBody r f →
      good (functionCode name (scopes scope) (f.compile scopes))) {pos : Nat} {line : Line}
    (hline : (layout scopes 0 0 {} body)[pos]? = some line) :
    Kinded E good body.kindsAt pos line.instr := by
  let j := hE.judgement good body.kindsAt
  have hmatches : Matches j.K 0 (kinds [] body) := matches_getD _ _
  have hall : j.From 0 [] (layout scopes 0 0 {} body) := by
    cases h with
    | nothing => exact j.from_return {} (.inl rfl) hmatches nofun (.inl (Nat.le_refl 0))
    | @elements functions nodes hfunctions hbodies hnodes =>
      cases ht with
      | elements _ htbodies htnodes =>
        refine j.from_body hfunctions
          (fun name f scope hf => hgood name f scope (hbodies _ _ _ hf) (htbodies _ _ _ hf))
          (fun n hn => (htnodes n hn).judged (hnodes n hn).seemly)
          ⟨not_mem_nil, by rintro _ ⟨⟩⟩ hmatches ?_ nofun
        rintro rfl
        refine j.of_eq ?_
        show getD _ _ _ = _
        rw [getD_eq_getElem?_getD, getElem?_eq_none (by
          simp [length_kinds, width, widthBody]), Option.getD_none]
  have hholds := hall.2.get hline
  rwa [Nat.zero_add] at hholds

end Node

end PageScript
