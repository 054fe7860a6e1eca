/-
Reading grammatical trees.

Whatever a rule reads, it leaves the functions declared so far as they are,
except the rule for a function, which adds one (`Gives`, `Adds`).  So what is
read from a grammatical tree can be said rule by rule: expressions,
statements and bodies are read as such (`Tree.Program.gives`).  A program that
is read and accepted by the compiler is tidy (`Tree.Program.tidyProgram`), and
its pools of constants hold what stands in it (`Tree.Program.literal`).
-/
import PageScript.Proofs.Accepted
import PageScript.Proofs.Grammar
import PageScript.Proofs.Scopes

namespace PageScript

open List EStateM Part

open Node (IsExpression IsStatement IsBody)

variable {tree : Tree} {globals : Bool} {d : Declarations} {id : Nat} {kind name : String}
  {s : Script} {trees : List Tree} {parts : List Part} {node : Node}

def Declarations.Literal (d : Declarations) : Prop := ∀ scope ∈ d.scopes, scope.Literal

def Declarations.scope (d : Declarations) (id : Nat) : Scope := d.scopes.getD id {}

theorem Declarations.scope_of_getElem? {s : Scope}
    (h : d.scopes[id]? = some s) : d.scope id = s := by
  rw [scope, Array.getD_eq_getD_getElem?, h]
  rfl

theorem Declarations.Literal.scope {d : Declarations} (h : d.Literal) (id : Nat) :
    (d.scope id).Literal := by
  rw [Declarations.scope, Array.getD_eq_getD_getElem?]
  cases hscope : d.scopes[id]? with
  | none => exact nofun
  | some scope => exact h scope (Array.mem_of_getElem? hscope)

/-- More is declared, in the scopes that there are and in others, but the same
scopes are open, and those that there are get no parameters. -/
structure Declarations.Later (d e : Declarations) : Prop where
  literal : d.Literal → e.Literal
  opened : e.opened = d.opened
  later : ∀ {id : Nat} {s : Scope}, d.scopes[id]? = some s → ∃ t, e.scopes[id]? = some t ∧ s.Later t

namespace Declarations.Later

variable {d e e' : Declarations}

theorem refl (d : Declarations) : d.Later d := ⟨id, rfl, fun {_ s} h => ⟨s, h, .refl s⟩⟩

theorem trans (h : d.Later e) (h' : e.Later e') : d.Later e' where
  literal := h'.literal ∘ h.literal
  opened := h'.opened.trans h.opened
  later hs := by
    obtain ⟨t, ht, hlater⟩ := h.later hs
    obtain ⟨u, hu, hlater'⟩ := h'.later ht
    exact ⟨u, hu, hlater.trans hlater'⟩

theorem set {t : Scope} (h : (d.scope id).Later t) :
    d.Later { d with scopes := d.scopes.setIfInBounds id t } where
  literal hd scope hscope := by
    rcases Array.mem_or_eq_of_mem_setIfInBounds hscope with hscope | rfl
    · exact hd scope hscope
    · exact h.literal (hd.scope id)
  opened := rfl
  later {i s} hs := by
    by_cases hi : id = i
    · subst hi
      rw [scope_of_getElem? hs] at h
      obtain ⟨hlt, -⟩ := Array.getElem?_eq_some_iff.1 hs
      exact ⟨t, Array.getElem?_setIfInBounds_self_of_lt hlt, h⟩
    · exact ⟨s, by rwa [Array.getElem?_setIfInBounds_ne hi], .refl s⟩

end Declarations.Later

namespace Reading

variable {α β : Type} {P : α → Prop} {Q : β → Prop} {x : Reading α} {f : α → Reading β}

theorem run_currentScope {d' : Declarations} (h : currentScope.run d = .ok id d') :
    ∃ rest, d.opened = id :: rest ∧ d = d' := by
  rw [currentScope, run_bind, run_get] at h
  cases hopened : d.opened with
  | nil =>
    simp only [hopened] at h
    cases h
  | cons scope rest =>
    simp only [hopened] at h
    cases h
    exact ⟨rest, rfl, rfl⟩

theorem run_declare {g : Scope → α × Scope} {d' : Declarations} {a : α}
    (h : (declare g).run d = .ok a d') :
    ∃ id rest, d.opened = id :: rest ∧ a = (g (d.scope id)).1 ∧
      d' = { d with scopes := d.scopes.setIfInBounds id (g (d.scope id)).2 } := by
  obtain ⟨id, d₁, hcurrent, hset⟩ := ok_of_run_bind h
  obtain ⟨rest, hopened, hd₁⟩ := run_currentScope hcurrent
  subst hd₁
  cases hset
  exact ⟨id, rest, hopened, rfl, rfl⟩

theorem run_currentScope_of_opened {rest : List Nat}
    (hopened : d.opened = id :: rest) : currentScope.run d = .ok id d := by
  rw [currentScope, run_bind, run_get]
  simp only [hopened]
  rfl

theorem run_declare_of_opened {act : Scope → α × Scope}
    {rest : List Nat} (hopened : d.opened = id :: rest) :
    (declare act).run d = .ok (act (d.scope id)).1
      { d with scopes := d.scopes.setIfInBounds id (act (d.scope id)).2 } := by
  rw [declare, run_bind, run_currentScope_of_opened hopened]
  rfl

/-- What the action reads has a property, no function is declared, and nothing
but literals gets into the pools of constants. -/
def Gives (P : α → Prop) (x : Reading α) : Prop :=
  ∀ d a d', x.run d = .ok a d' → d'.functions = d.functions ∧ d.Later d' ∧ P a

namespace Gives

theorem pure {a : α} (h : P a) : Gives P (Pure.pure a) := by
  intro d a' d' hrun
  cases hrun
  exact ⟨rfl, .refl d, h⟩

theorem throw (fault : Fault) : Gives P (throw fault) := by
  intro d a d' hrun
  cases hrun

theorem bind (hx : Gives P x) (hf : ∀ a, P a → Gives Q (f a)) : Gives Q (x >>= f) := by
  intro d b d'' hrun
  obtain ⟨a, d', hxrun, hfrun⟩ := ok_of_run_bind hrun
  obtain ⟨hfunctions, hlater, ha⟩ := hx d a d' hxrun
  obtain ⟨hfunctions', hlater', hb⟩ := hf a ha d' b d'' hfrun
  exact ⟨hfunctions'.trans hfunctions, hlater.trans hlater', hb⟩

theorem imp {P' : α → Prop} (hx : Gives P x) (h : ∀ a, P a → P' a) : Gives P' x := by
  intro d a d' hrun
  obtain ⟨hfunctions, hlater, ha⟩ := hx d a d' hrun
  exact ⟨hfunctions, hlater, h a ha⟩

theorem ofExcept (e : Except Fault α) : Gives (fun _ => True) (ofExcept e : Reading α) := by
  intro d a d' hrun
  cases e with
  | error fault => cases hrun
  | ok a =>
    cases hrun
    exact ⟨rfl, .refl d, trivial⟩

theorem declare (g : Scope → α × Scope) (hg : ∀ s : Scope, s.Later (g s).2) :
    Gives (fun _ => True) (declare g) := by
  intro d a d' hrun
  obtain ⟨id, _, -, -, rfl⟩ := run_declare hrun
  exact ⟨rfl, .set (hg _), trivial⟩

theorem literal (node : Node) : Gives (fun name => node.literal? = some name) (literal node) := by
  unfold Reading.literal
  cases h : node.literal? with
  | none => exact .throw _
  | some name => exact .pure rfl

theorem readAll {P : Node → Prop} {parts : List Part} (h : ∀ p ∈ parts, Gives P p.read) :
    Gives (fun nodes => ∀ n ∈ nodes, P n) (readAll parts) := by
  induction parts with
  | nil => exact .pure nofun
  | cons p parts ih =>
    refine (h p mem_cons_self).bind fun node hnode => ?_
    refine (ih fun q hq => h q (mem_cons_of_mem _ hq)).bind fun nodes hnodes => .pure ?_
    rintro n (_ | ⟨_, hn⟩)
    · exact hnode
    · exact hnodes n hn

theorem readVariable (name : String) : Gives (fun n => n.isVariable) (readVariable name) :=
  (declare _ (.addVariable name)).bind fun _ _ => .pure rfl

end Gives

theorem Gives.child (parts : List Part) (i : Nat) :
    Gives (fun p => parts[i]? = some p) (child parts i) := by
  unfold Reading.child
  cases h : parts[i]? with
  | none => exact .throw _
  | some p => exact .pure rfl

theorem readChild_eq {i : Nat} {p : Part} (h : parts[i]? = some p) :
    readChild parts i = p.read := by
  unfold readChild child
  rw [h]
  rfl

/-! ### Expressions -/

section

variable {left right : Node} {op : String}

theorem gives_readLiteral (parts : List Part) : Gives IsExpression (readLiteral parts) := by
  refine (Gives.child parts 0).bind fun word _ => ?_
  split
  · exact .pure .boolean
  · split
    · exact .pure .boolean
    · exact .pure .null

theorem gives_readNumber (own : String) (parts : List Part) :
    Gives IsExpression (readNumber own parts) := by
  have hfloat : ∀ x, Gives IsExpression (do
      return .constantFloat x (← Reading.declare (·.addFloat x))) :=
    fun x => (Gives.declare _ (.addConstant rfl)).bind fun _ _ => .pure .constantFloat
  unfold readNumber
  dsimp only
  split
  · exact (Gives.declare _ (.addConstant rfl)).bind fun _ _ => .pure .constantInt
  · exact hfloat _
  · split
    · exact hfloat _
    · exact .throw _

theorem gives_constantText (text : String) : Gives IsExpression (constantText text) :=
  (Gives.declare _ (.addConstant rfl)).bind fun _ _ => .pure .constantText

theorem gives_readPieces {done : List (Option String)} {filled : List Node}
    {pieces : List (List Char)} (hfilled : ∀ n ∈ filled, n.isVariable) :
    Gives (fun result => ∀ n ∈ result.2, n.isVariable) (readPieces done filled pieces) := by
  induction pieces generalizing done filled with
  | nil => exact .pure hfilled
  | cons piece pieces ih =>
    unfold readPieces
    split
    · exact ih hfilled
    · split
      · split
        · refine (Gives.readVariable _).bind fun part hpart => ih ?_
          simpa [or_imp, forall_and] using ⟨hfilled, hpart⟩
        · exact .throw _
      · exact ih hfilled

theorem gives_readText (literal : String) : Gives IsExpression (readText literal) := by
  refine (Gives.ofExcept _).bind fun (quoted, quoting) _ => ?_
  refine (Gives.ofExcept _).bind fun cs _ => ?_
  cases quoting with
  | single => exact gives_constantText _
  | double =>
    refine (gives_readPieces fun n hn => absurd hn not_mem_nil).bind fun (pieces, parts) hparts => ?_
    dsimp only
    split
    · exact gives_constantText _
    · exact (Gives.declare _ (.addConstant rfl)).bind fun _ _ =>
        .pure (.interpolation hparts)

theorem isExpression_binary (h : binary? op left right = some node)
    (hleft : IsExpression left) (hright : IsExpression right) : IsExpression node := by
  unfold binary? at h
  split at h <;> cases h
  case h_11 => exact .both hleft hright
  case h_12 => exact .either hleft hright
  case h_17 => exact .member hright hleft
  all_goals exact .binary hleft hright

theorem gives_readOperands {rest : List (Tree × Tree)} (hleft : IsExpression left)
    (h : ∀ l ∈ rest, Gives IsExpression (ofTree l.2).read) :
    Gives IsExpression (readOperands left (ofTrees (Tree.links rest))) := by
  induction rest generalizing left with
  | nil => exact .pure hleft
  | cons link rest ih =>
    refine (h link mem_cons_self).bind fun right hright => ?_
    split
    · exact ih (isExpression_binary ‹_› hleft hright) fun l hl => h l (mem_cons_of_mem _ hl)
    · exact .throw _

theorem assign_eq (h : right ≠ .absent) (post : Bool) :
    assign left right op post = match left with
      | .variable name slot => return .assignment name slot right op post
      | .member base index => return .memberAssignment base index right op post
      | _ => throw (.complaint .notAssignable) := by
  cases right with
  | absent => exact absurd rfl h
  | _ => rfl

theorem gives_assign (hleft : IsExpression left) (hright : IsExpression right)
    (hop : op ∉ Node.stepSigns) : Gives IsExpression (assign left right op false) := by
  rw [assign_eq hright.present]
  cases left with
  | «variable» name slot => exact .pure (.assignment hop hright)
  | member base index =>
    cases hleft with
    | member hindex hbase => exact .pure (.memberAssignment hop hright hindex hbase)
  | _ => exact .throw _

theorem gives_step (hleft : IsExpression left) (hop : op ∈ Node.stepSigns) (post : Bool) :
    Gives IsExpression (assign left .absent op post) := by
  unfold assign
  cases left with
  | «variable» name slot => exact .pure (.step hop)
  | member base index =>
    cases hleft with
    | member hindex hbase => exact .pure (.memberStep hop hindex hbase)
  | _ => exact .throw _

theorem gives_readUnary {op operand : Part} (h : Gives IsExpression operand.read) :
    Gives IsExpression (readUnary [op, operand]) := by
  refine (Gives.child [op, operand] 0).bind fun op _ => ?_
  rw [readChild_eq rfl]
  refine h.bind fun node hnode => ?_
  split
  · exact gives_step hnode (by simpa [Node.stepSigns]) false
  · split
    · exact .pure (.not hnode)
    · exact .throw _

theorem ofTrees_eq_map (trees : List Tree) : ofTrees trees = trees.map ofTree := by
  induction trees with
  | nil => rfl
  | cons tree trees ih => rw [ofTrees, ih, map_cons]

theorem gives_readTrees {P : Node → Prop} (h : ∀ t ∈ trees, Gives P (ofTree t).read) :
    Gives (fun nodes => ∀ n ∈ nodes, P n) (readAll (ofTrees trees)) := by
  refine .readAll fun p hp => ?_
  rw [ofTrees_eq_map] at hp
  obtain ⟨t, ht, rfl⟩ := mem_map.1 hp
  exact h t ht

theorem gives_readCalls {callee : Node} {lists : List (Tree × List Tree)}
    (hcallee : IsExpression callee)
    (h : ∀ l ∈ lists, ∀ t ∈ l.2, Gives IsExpression (ofTree t).read) :
    Gives IsExpression (readCalls callee
      (ofTrees (lists.map fun l => .branch "arguments" (l.1 :: l.2)))) := by
  induction lists generalizing callee with
  | nil => exact .pure hcallee
  | cons l lists ih =>
    refine ((gives_readTrees (h l mem_cons_self)).bind fun nodes hnodes =>
      .pure (P := fun n => ∃ nodes, n = Node.argumentList nodes ∧ ∀ n ∈ nodes, IsExpression n)
        ⟨nodes, rfl, hnodes⟩).bind ?_
    rintro _ ⟨nodes, rfl, hnodes⟩
    exact ih (.call hnodes hcallee) fun l hl => h l (mem_cons_of_mem _ hl)

end

end Reading

open Reading

theorem Tree.Expression.gives (h : tree.Expression) : Gives IsExpression (ofTree tree).read := by
  induction h with
  | @«variable» name _ =>
    show Gives IsExpression (readVariable name)
    exact (Gives.readVariable name).imp fun n hn => Node.isExpression_of_isVariable hn
  | @text rule literal hrule _ =>
    have hread : (ofTree (.leaf rule literal)).read = readText literal := by
      simp only [mem_cons, not_mem_nil, or_false] at hrule
      rcases hrule with rfl | rfl <;> rfl
    rw [hread]
    exact gives_readText literal
  | @word rule words hrule =>
    have hread : (ofTree (.branch rule words)).read = readLiteral (ofTrees words) := by
      simp only [mem_cons, not_mem_nil, or_false] at hrule
      rcases hrule with rfl | rfl <;> rfl
    rw [hread]
    exact gives_readLiteral _
  | number => exact gives_readNumber _ _
  | @constant names =>
    show Gives IsExpression (readNamedConstant (ofTrees names))
    exact (Gives.child _ 0).bind fun name _ => .pure .namedConstant
  | @array bracket elements _ ihs =>
    show Gives IsExpression (do return .array (← readAll (ofTrees elements)))
    exact (gives_readTrees ihs).bind fun nodes hnodes => .pure (.array hnodes)
  | @call name lists _ ihs =>
    have hcallee : IsExpression (.identifier name) := .identifier
    exact gives_readCalls hcallee ihs
  | @chain rule first rest hrule _ _ ih ihs =>
    have hread : (ofTree (.branch rule (first :: Tree.links rest))).read
        = readBinary (ofTrees (first :: Tree.links rest)) := by
      simp only [Tree.chainRules, mem_cons, not_mem_nil, or_false] at hrule
      rcases hrule with rfl | rfl | rfl | rfl | rfl | rfl | rfl | rfl | rfl | rfl <;> rfl
    rw [hread]
    exact ih.bind fun left hleft => gives_readOperands hleft ihs
  | @unary op operand _ ih => exact gives_readUnary ih
  | @step kind op operand hop _ ih =>
    show Gives IsExpression (do
      let left ← (ofTree operand).read
      assign left .absent op true)
    exact ih.bind fun left hleft => gives_step hleft hop true
  | @assignment kind op left right hop _ _ ihl ihr =>
    show Gives IsExpression (do
      let l ← (ofTree left).read
      let r ← (ofTree right).read
      assign l r op false)
    exact ihl.bind fun l hl => ihr.bind fun r hr => gives_assign hl hr hop
  | @conditional mark condition yes no _ _ _ ihc ihy ihn =>
    show Gives IsExpression (do
      let c ← (ofTree condition).read
      let y ← (ofTree yes).read
      let n ← (ofTree no).read
      return .ifElse c y n)
    exact ihc.bind fun c hc => ihy.bind fun y hy => ihn.bind fun n hn =>
      .pure (.conditional hc hy hn)

/-! ### Statements -/

theorem Tree.Expression.not_filler (h : tree.Expression) :
    (tree.isLeaf && fillers.contains tree.text) = false := by
  cases h with
  | «variable» hname | text _ hname => simpa [Tree.isLeaf, Tree.text] using hname
  | _ => rfl

theorem Tree.Statement.isLeaf_eq (h : tree.Statement globals) : tree.isLeaf = false := by
  cases h <;> rfl

section

variable {parts rest : List Part} {part : Part} {i : Nat}

theorem Part.tree_ofTree (tree : Tree) : (ofTree tree).tree = tree := by
  cases tree <;> rfl

theorem child_of_drop (h : parts.drop i = part :: rest) : child parts i = pure part := by
  have hi : parts[i]? = some part := by
    rw [← Nat.add_zero i, ← getElem?_drop, h]
    rfl
  unfold child
  rw [hi]

theorem drop_of_drop_append (xs : List Part) (h : parts.drop i = xs ++ rest) :
    parts.drop (i + xs.length) = rest := by
  rw [← drop_drop, h, drop_left]

theorem nextExpr_eq (h : parts.drop i = ofTree tree :: rest)
    (htree : (tree.isLeaf && fillers.contains tree.text) = false) :
    nextExpr parts i = (do return (← (ofTree tree).read, i + 2)) := by
  unfold nextExpr
  rw [child_of_drop h, pure_bind, text, tree_ofTree, htree]
  rfl

theorem nextExpr_missing {sign : String} (hsign : sign ∈ fillers)
    (h : parts.drop i = ofTree (.leaf kind sign) :: rest) :
    nextExpr parts i = pure (.absent, i + 1) := by
  have hfiller : fillers.contains sign = true := contains_iff_mem.2 hsign
  unfold nextExpr
  rw [child_of_drop h, pure_bind, text, tree_ofTree, Tree.isLeaf, Tree.text, hfiller]
  rfl

theorem gives_nextExpr {P : Node → Prop} {sign : Tree}
    (h : parts.drop i = ofTree tree :: ofTree sign :: rest)
    (htree : (tree.isLeaf && fillers.contains tree.text) = false)
    (hread : Gives P (ofTree tree).read) :
    Gives (fun result => P result.1 ∧ parts.drop result.2 = rest) (nextExpr parts i) := by
  have hrest := drop_of_drop_append [ofTree tree, ofTree sign] h
  rw [nextExpr_eq h htree]
  exact hread.bind fun node hnode => .pure ⟨hnode, hrest⟩

theorem gives_nextExpr_missing {sign : String} (hsign : sign ∈ fillers)
    (h : parts.drop i = ofTree (.leaf kind sign) :: rest) :
    Gives (fun result => result.1 = .absent ∧ parts.drop result.2 = rest) (nextExpr parts i) := by
  rw [nextExpr_missing hsign h]
  exact .pure ⟨rfl, drop_of_drop_append [ofTree (.leaf kind sign)] h⟩

theorem ofTrees_append (xs ys : List Tree) : ofTrees (xs ++ ys) = ofTrees xs ++ ofTrees ys := by
  simp only [ofTrees_eq_map, map_append]

theorem Tree.HeaderPart.gives (h : Tree.HeaderPart trees)
    (hdrop : parts.drop i = ofTrees trees ++ rest) :
    Gives (fun result => (result.1 = .absent ∨ IsExpression result.1) ∧ parts.drop result.2 = rest)
      (nextExpr parts i) := by
  cases h with
  | given hexpr =>
    exact (gives_nextExpr hdrop hexpr.not_filler hexpr.gives).imp fun _ h => ⟨.inr h.1, h.2⟩
  | missing hsign => exact (gives_nextExpr_missing hsign hdrop).imp fun _ h => ⟨.inl h.1, h.2⟩

end

theorem orEmpty_eq (h : node ≠ .absent) : orEmpty node = node := by
  cases node with
  | absent => exact absurd rfl h
  | _ => rfl

theorem isExpression_orEmpty (h : node = .absent ∨ IsExpression node) :
    IsExpression (orEmpty node) := by
  rcases h with rfl | h
  · exact .emptyExpression
  · rwa [orEmpty_eq h.present]

theorem isExpression_orTrue (h : node = .absent ∨ IsExpression node) :
    IsExpression (orTrue node) := by
  rcases h with rfl | h
  · exact .boolean
  · cases node with
    | absent | null => exact .boolean
    | _ => exact h

theorem gives_readFor {word body : Tree} {setup condition change : List Tree}
    (hsetup : Tree.HeaderPart setup) (hcondition : Tree.HeaderPart condition)
    (hchange : Tree.HeaderPart change) (hleaf : body.isLeaf = false)
    (hbody : Gives (IsStatement globals) (ofTree body).read) :
    Gives (IsStatement globals) (readFor
      (ofTrees (word :: (setup ++ (condition ++ (change ++ [body])))))) := by
  have hstart : (ofTrees (word :: (setup ++ (condition ++ (change ++ [body]))))).drop 1
      = ofTrees setup ++ ofTrees (condition ++ (change ++ [body])) :=
    ofTrees_append setup _
  unfold readFor
  refine (hsetup.gives hstart).bind fun (s, i) ⟨hs, hi⟩ => ?_
  rw [ofTrees_append] at hi
  refine (hcondition.gives hi).bind fun (c, j) ⟨hc, hj⟩ => ?_
  rw [ofTrees_append] at hj
  refine (hchange.gives hj).bind fun (u, k) ⟨hu, hk⟩ => ?_
  have hfinal : Gives (fun result => IsStatement globals result.1)
      (nextExpr (ofTrees (word :: (setup ++ (condition ++ (change ++ [body]))))) k) := by
    unfold nextExpr
    rw [child_of_drop hk]
    refine .bind (P := (· = ofTree body)) (.pure rfl) ?_
    rintro _ rfl
    rw [tree_ofTree, hleaf]
    exact hbody.bind fun node hnode => .pure hnode
  refine hfinal.bind fun (b, _) hb => .pure ?_
  rw [orEmpty_eq hb.present]
  exact .forLoop (isExpression_orEmpty hs) (isExpression_orTrue hc) (isExpression_orEmpty hu) hb

theorem gives_readFirst (h : ∀ t ∈ trees, t.Expression) :
    Gives (fun n => n = .absent ∨ IsExpression n) (readFirst (ofTrees trees)) := by
  cases trees with
  | nil => exact .pure (.inl rfl)
  | cons tree trees => exact (h tree mem_cons_self).gives.imp fun _ => .inr

theorem gives_readVariables (names : List String) :
    Gives (fun nodes => ∀ n ∈ nodes, n.isVariable)
      (readAll (ofTrees (Tree.variableLeaves names))) := by
  refine gives_readTrees fun t ht => ?_
  obtain ⟨name, -, rfl⟩ := mem_map.1 ht
  exact Gives.readVariable name

theorem Tree.Statement.gives (h : tree.Statement globals) :
    Gives (IsStatement globals) (ofTree tree).read := by
  induction h with
  | @block brace statements _ ihs =>
    show Gives _ (do return Node.block (← readAll (ofTrees statements)))
    exact (gives_readTrees ihs).bind fun nodes hnodes => .pure (.block hnodes)
  | @expression expr hexpr =>
    show Gives _ (do return Node.exprStatement (← (ofTree expr).read))
    exact hexpr.gives.bind fun e he => .pure (.exprStatement he)
  | @print word expr hexpr =>
    show Gives _ (do return Node.print (← (ofTree expr).read))
    exact hexpr.gives.bind fun e he => .pure (.print he)
  | @ifThen condition yes hcondition _ ihy =>
    show Gives _ (do
      let c ← (ofTree condition).read
      let y ← (ofTree yes).read
      return Node.ifElse c y .absent)
    exact hcondition.gives.bind fun c hc => ihy.bind fun y hy => .pure (.ifThen hc hy)
  | @ifElse condition yes no hcondition _ _ ihy ihn =>
    show Gives _ (do
      let c ← (ofTree condition).read
      let y ← (ofTree yes).read
      let n ← (ofTree no).read
      return Node.ifElse c y n)
    exact hcondition.gives.bind fun c hc => ihy.bind fun y hy => ihn.bind fun n hn =>
      .pure (.ifElse hc hy hn)
  | @whileLoop word condition body hcondition _ ih =>
    show Gives _ (readWhile (ofTrees [word, condition, body]))
    refine (Gives.child _ 0).bind fun w _ => ?_
    split
    · exact hcondition.gives.bind fun c hc => ih.bind fun b hb => .pure (.whileLoop hc hb)
    · exact .throw _
  | forLoop hsetup hcondition hchange hbody ih =>
    exact gives_readFor hsetup hcondition hchange hbody.isLeaf_eq ih
  | @foreachValue word subject body value hsubject _ ih =>
    show Gives _ (do
      let s ← (ofTree subject).read
      let v ← readVariable value
      let b ← (ofTree body).read
      return Node.foreachLoop s .absent v b)
    exact hsubject.gives.bind fun s hs => (Gives.readVariable value).bind fun v hv =>
      ih.bind fun b hb => .pure (.foreachLoop hs (.inl rfl) hv hb)
  | @foreachPair word subject body key value hsubject _ ih =>
    show Gives _ (do
      let s ← (ofTree subject).read
      let k ← readVariable key
      let v ← readVariable value
      let b ← (ofTree body).read
      return Node.foreachLoop s k v b)
    exact hsubject.gives.bind fun s hs => (Gives.readVariable key).bind fun k hk =>
      (Gives.readVariable value).bind fun v hv => ih.bind fun b hb =>
        .pure (.foreachLoop hs (.inr hk) hv hb)
  | @breakLoop counts hcounts =>
    show Gives _ (do return Node.breakLoop (← readFirst (ofTrees counts)))
    exact (gives_readFirst hcounts).bind fun c _ => .pure .breakLoop
  | @continueLoop counts hcounts =>
    show Gives _ (do return Node.continueLoop (← readFirst (ofTrees counts)))
    exact (gives_readFirst hcounts).bind fun c _ => .pure .continueLoop
  | @returnValue values hvalues =>
    show Gives _ (do return Node.returnValue (← readFirst (ofTrees values)))
    refine (gives_readFirst hvalues).bind fun v hv => ?_
    rcases hv with rfl | hv
    · exact .pure .returnNothing
    · exact .pure (.returnValue hv)
  | @global word rule names hglobals =>
    show Gives _ (do return Node.global (← readAll (ofTrees (Tree.variableLeaves names))))
    exact (gives_readVariables names).bind fun nodes _ =>
      .pure (.global hglobals)

/-! ### Functions -/

/-- The name of a parameter, and whether it is passed by value. -/
def Tree.formal : Tree → String × Bool
  | .branch _ [_, .leaf _ name] => (name, false)
  | .branch _ [.leaf _ name] => (name, true)
  | _ => default

/-- The parameters that stand before the body of a function, and those of a
declaration. -/
def Tree.formalsIn : List Tree → List (String × Bool)
  | .branch "formalparameterlist" parameters :: _ => parameters.map formal
  | _ => []

def Tree.formals (tree : Tree) : List (String × Bool) := formalsIn (tree.children.drop 2)

namespace Reading

def IsFunctions (globals : Bool) (functions : List Node) : Prop :=
  ∀ f ∈ functions, ∃ name body scope, f = .function name body scope ∧ IsBody globals body

/-- What the action reads has a property, and functions are added to the
innermost list only. -/
def Adds {α : Type} (globals : Bool) (P : α → Prop) (x : Reading α) : Prop :=
  ∀ d innermost outer a d', d.functions = innermost :: outer → IsFunctions globals innermost →
    x.run d = .ok a d' →
    (∃ functions, d'.functions = functions :: outer ∧ IsFunctions globals functions) ∧
      d.Later d' ∧ P a

variable {globals : Bool}

section

variable {α β : Type} {P : α → Prop} {Q : β → Prop} {x : Reading α} {f : α → Reading β}

theorem Gives.adds (h : Gives P x) : Adds globals P x := by
  intro d innermost outer a d' hd hinnermost hrun
  obtain ⟨hfunctions, hlater, ha⟩ := h d a d' hrun
  exact ⟨⟨innermost, hfunctions.trans hd, hinnermost⟩, hlater, ha⟩

theorem Adds.bind (hx : Adds globals P x) (hf : ∀ a, P a → Adds globals Q (f a)) :
    Adds globals Q (x >>= f) := by
  intro d innermost outer b d'' hd hinnermost hrun
  obtain ⟨a, d', hxrun, hfrun⟩ := ok_of_run_bind hrun
  obtain ⟨⟨functions, hd', hfunctions⟩, hlater, ha⟩ :=
    hx d innermost outer a d' hd hinnermost hxrun
  obtain ⟨hadded, hlater', hb⟩ := hf a ha d' functions outer b d'' hd' hfunctions hfrun
  exact ⟨hadded, hlater.trans hlater', hb⟩

end

theorem isFunctions_insertFunction {f : Node} {functions : List Node}
    (hf : ∃ name body scope, f = .function name body scope ∧ IsBody globals body)
    (h : IsFunctions globals functions) : IsFunctions globals (insertFunction name f functions) := by
  induction functions with
  | nil =>
    intro g hg
    cases mem_singleton.1 hg
    exact hf
  | cons g functions ih =>
    have hrest : IsFunctions globals functions := fun g hg => h g (mem_cons_of_mem _ hg)
    obtain ⟨other, body, scope, rfl, hbody⟩ := h g mem_cons_self
    unfold insertFunction
    dsimp only
    split
    · rintro _ (_ | ⟨_, hg⟩)
      · exact hf
      · exact hrest _ hg
    · rintro _ (_ | ⟨_, hg⟩)
      · exact ⟨_, _, _, rfl, hbody⟩
      · exact ih hrest _ hg

/-- The open scope, with parameters. -/
def declared (d : Declarations) (id : Nat) (formals : List (String × Bool)) : Declarations :=
  { d with scopes := d.scopes.setIfInBounds id (formals.foldl Scope.addFormal (d.scope id)) }

section

variable {d d' : Declarations} {id : Nat} {opened : List Nat}

theorem constants_foldl_addFormal (formals : List (String × Bool)) (s : Scope) :
    (formals.foldl Scope.addFormal s).constants = s.constants := by
  induction formals generalizing s with
  | nil => rfl
  | cons p formals ih => exact ih _

theorem scope_declared (hid : id < d.scopes.size) (formals : List (String × Bool)) :
    (declared d id formals).scope id = formals.foldl Scope.addFormal (d.scope id) :=
  Declarations.scope_of_getElem? (Array.getElem?_setIfInBounds_self_of_lt hid)

theorem declared_nil (hid : id < d.scopes.size) : declared d id [] = d := by
  have hscope : d.scope id = d.scopes[id] :=
    Declarations.scope_of_getElem? (Array.getElem?_eq_getElem hid)
  simp [declared, hscope, Array.setIfInBounds, hid]

theorem declared_cons (hid : id < d.scopes.size) (p : String × Bool)
    (formals : List (String × Bool)) :
    declared (declared d id [p]) id formals = declared d id (p :: formals) := by
  rw [declared, scope_declared hid, declared, declared, Array.setIfInBounds_setIfInBounds]
  rfl

theorem run_formal {α : Type} (hopened : d.opened = id :: opened) (hid : id < d.scopes.size)
    (name : String) (byValue : Bool) (k : Reading α) :
    (do let node ← readVariable name
        let own ← Reading.literal node
        let _ ← Reading.declare (·.addParameter own byValue)
        k).run d = k.run (declared d id [(name, byValue)]) := by
  simp only [readVariable, bind_assoc, pure_bind, run_bind, run_declare_of_opened hopened]
  have hparameter : (Reading.declare (·.addParameter name byValue)).run
      { d with scopes := d.scopes.setIfInBounds id ((d.scope id).addVariable name).2 } = .ok _ _ :=
    run_declare_of_opened hopened
  have hscope : ({ d with scopes := d.scopes.setIfInBounds id ((d.scope id).addVariable name).2 } :
      Declarations).scope id = ((d.scope id).addVariable name).2 :=
    Declarations.scope_of_getElem? (Array.getElem?_setIfInBounds_self_of_lt hid)
  rw [hscope, Array.setIfInBounds_setIfInBounds] at hparameter
  rw [show Reading.literal (.variable name _) = Pure.pure name from rfl, run_pure]
  dsimp only
  rw [hparameter]
  rfl

theorem run_readParameters (h : ∀ t ∈ trees, t.Parameter)
    (hopened : d.opened = id :: opened) (hid : id < d.scopes.size)
    (hrun : (readParameters (ofTrees trees)).run d = .ok () d') :
    d' = declared d id (trees.map Tree.formal) := by
  induction trees generalizing d with
  | nil =>
    cases hrun
    exact (declared_nil hid).symm
  | cons tree trees ih =>
    have hrest : ∀ p, (readParameters (ofTrees trees)).run (declared d id [p]) = .ok () d' →
        d' = declared d id (p :: trees.map Tree.formal) := fun p hrun => by
      rw [← declared_cons hid]
      exact ih (fun t ht => h t (mem_cons_of_mem _ ht)) hopened (by simpa [declared] using hid)
        hrun
    cases h tree mem_cons_self with
    | @value rule name =>
      have hcons : readParameters (ofTrees (.branch rule [.leaf "VARIABLENAME" name] :: trees))
          = (do let node ← readChild [ofTree (.leaf "VARIABLENAME" name)]
                  (if name == "&" then 1 else 0)
                let own ← Reading.literal node
                let _ ← Reading.declare (·.addParameter own (!name == "&"))
                readParameters (ofTrees trees)) := rfl
      rw [hcons] at hrun
      cases hname : name == "&" with
      | true =>
        -- There is no second part.
        rw [hname] at hrun
        cases hrun
      | false =>
        rw [hname] at hrun
        exact hrest (name, true) ((run_formal hopened hid name true _).symm.trans hrun)
    | @reference rule kind name =>
      exact hrest (name, false) ((run_formal hopened hid name false _).symm.trans hrun)

theorem run_nextExpr_parameters {rest : List Part} {i : Nat}
    {result : Node × Nat} (h : Tree.Parameters trees)
    (hdrop : parts.drop i = ofTrees trees ++ rest) (hopened : d.opened = id :: opened)
    (hid : id < d.scopes.size) (hrun : (nextExpr parts i).run d = .ok result d') :
    parts.drop result.2 = rest ∧ d' = declared d id (Tree.formalsIn trees) := by
  have hrest := drop_of_drop_append (ofTrees trees) hdrop
  cases h with
  | @given parameters sign hparameters =>
    rw [nextExpr_eq hdrop rfl] at hrun
    obtain ⟨_, _, hread, hresult⟩ := ok_of_run_bind hrun
    cases hresult
    replace hread : (do
        readParameters (ofTrees parameters)
        return Node.absent).run d = .ok _ _ := hread
    obtain ⟨_, _, hread, habsent⟩ := ok_of_run_bind hread
    cases habsent
    exact ⟨hrest, run_readParameters hparameters hopened hid hread⟩
  | missing hsign =>
    rw [nextExpr_missing hsign hdrop] at hrun
    cases hrun
    exact ⟨hrest, (declared_nil hid).symm⟩

end

/-- What is declared when the scope of a function has been opened. -/
def entered (d : Declarations) : Declarations :=
  { d with scopes := d.scopes.push {}, opened := d.scopes.size :: d.opened }

theorem scope_entered (d : Declarations) : (entered d).scope d.scopes.size = {} :=
  Declarations.scope_of_getElem? Array.getElem?_push_size

theorem later_of_function {e : Declarations} {formals : List (String × Bool)}
    {functions : List (List Node)} (h : (declared (entered d) d.scopes.size formals).Later e) :
    d.Later { e with opened := d.opened, functions := functions } where
  literal hd := by
    refine h.literal fun scope hscope => ?_
    rcases Array.mem_or_eq_of_mem_setIfInBounds hscope with hscope | rfl
    · rcases Array.mem_push.1 hscope with hscope | rfl
      · exact hd scope hscope
      · exact nofun
    · rw [Scope.Literal, constants_foldl_addFormal, scope_entered]
      exact nofun
  opened := rfl
  later {id s} hs := by
    obtain ⟨hlt, -⟩ := Array.getElem?_eq_some_iff.1 hs
    refine h.later ?_
    rw [declared, Array.getElem?_setIfInBounds_ne (by omega), entered, Array.getElem?_push_lt hlt,
      ← Array.getElem?_eq_getElem hlt, hs]

/-- What is read from a part of a body: nothing, for a function, a `global`
statement or any other statement. -/
def IsElement (globals : Bool) (node : Node) : Prop :=
  node = .absent ∨ (∃ nodes, node = .global nodes) ∨ IsStatement globals node

/-- The name of a function and its body.  Its parameters are declared. -/
def readDefinition (parts : List Part) : Reading (Node × Node) := do
  let (identifier, i) ← nextExpr parts 0
  let (_, i) ← nextExpr parts i
  let (body, _) ← nextExpr parts i
  return (identifier, body)

/-- The body of a function; left out, it returns at once. -/
def orReturn : Node → Node
  | .absent => .returnValue .absent
  | body => body

/-- The end of a function: its scope is closed, and it is kept with the
enclosing list of statements. -/
def closeFunction (definition : Node × Node) : Reading Node := do
  let scope ← currentScope
  exitScope
  let name ← literal definition.1
  let d ← get
  match d.functions with
  | [] => throw .outOfRange
  | innermost :: outer =>
    set { d with functions :=
      insertFunction name (.function name (orReturn definition.2) scope) innermost :: outer }
    return .absent

theorem readFunction_eq (parts : List Part) :
    readFunction parts = (do
      enterScope
      closeFunction (← readDefinition parts)) := by
  unfold readFunction readDefinition
  simp only [bind_assoc]
  rfl

theorem run_closeFunction {scope : Nat} {opened : List Nat}
    {innermost : List Node} {outer : List (List Node)} (hopened : d.opened = scope :: opened)
    (hfunctions : d.functions = innermost :: outer) (definition : Node × Node) :
    (closeFunction definition).run d
      = match definition.1.literal? with
        | none => .error .noOperation { d with opened := opened }
        | some name => .ok .absent { d with
            opened := opened
            functions := insertFunction name (.function name (orReturn definition.2) scope) innermost
              :: outer } := by
  have hexit : exitScope.run d = .ok () { d with opened := opened } := by
    rw [exitScope, run_modify, hopened]
    rfl
  rw [closeFunction, run_bind, run_currentScope_of_opened hopened]
  dsimp only
  rw [run_bind, hexit]
  dsimp only
  rw [run_bind, literal]
  cases definition.1.literal? with
  | none => rfl
  | some name =>
    rw [run_pure]
    dsimp only
    rw [run_bind, run_get]
    dsimp only
    rw [hfunctions]
    rfl

theorem run_readFunction (parts : List Part) (d : Declarations) :
    (readFunction parts).run d = (readDefinition parts >>= closeFunction).run (entered d) := by
  rw [readFunction_eq]
  rfl

section

variable {name : String} {sign : Tree} {parameters : List Tree} {body : List Part}

theorem run_readDefinition {e : Declarations} {opened : List Nat}
    {definition : Node × Node} (hname : name ∉ fillers) (hparameters : Tree.Parameters parameters)
    (hbody : ∀ parts i, parts.drop i = body →
      Gives (fun result => result.1 = .absent ∨ IsBody globals result.1) (nextExpr parts i))
    (hopened : d.opened = id :: opened) (hid : id < d.scopes.size)
    (hrun : (readDefinition (ofTree (.leaf "IDENTIFIERNAME" name) :: ofTree sign ::
      (ofTrees parameters ++ body))).run d = .ok definition e) :
    definition.1.literal? = some name ∧
      (definition.2 = .absent ∨ IsBody globals definition.2) ∧ e.functions = d.functions ∧
      (declared d id (Tree.formalsIn parameters)).Later e := by
  have hidentifier : nextExpr (ofTree (.leaf "IDENTIFIERNAME" name) :: ofTree sign ::
      (ofTrees parameters ++ body)) 0
        = (do return (← (ofTree (.leaf "IDENTIFIERNAME" name)).read, 2)) :=
    nextExpr_eq rfl (by simpa [Tree.isLeaf, Tree.text] using hname)
  unfold readDefinition at hrun
  rw [hidentifier] at hrun
  obtain ⟨_, _, hfirst, hrun⟩ := ok_of_run_bind hrun
  cases hfirst
  obtain ⟨_, _, hsecond, hrun⟩ := ok_of_run_bind hrun
  obtain ⟨hrest, rfl⟩ := run_nextExpr_parameters hparameters rfl hopened hid hsecond
  obtain ⟨_, _, hthird, hrun⟩ := ok_of_run_bind hrun
  cases hrun
  obtain ⟨hfunctions, hlater, hnode⟩ := hbody _ _ hrest _ _ _ hthird
  exact ⟨rfl, hnode, hfunctions, hlater⟩

theorem adds_readFunction (hname : name ∉ fillers) (hparameters : Tree.Parameters parameters)
    (hbody : ∀ parts i, parts.drop i = body →
      Gives (fun result => result.1 = .absent ∨ IsBody globals result.1) (nextExpr parts i)) :
    Adds globals (IsElement globals) (readFunction
      (ofTree (.leaf "IDENTIFIERNAME" name) :: ofTree sign ::
        (ofTrees parameters ++ body))) := by
  intro d innermost outer a d' hd hinnermost hrun
  rw [run_readFunction] at hrun
  obtain ⟨definition, e, hdefinition, hrun⟩ := ok_of_run_bind hrun
  have hopened : (entered d).opened = d.scopes.size :: d.opened := rfl
  obtain ⟨hliteral, hnode, hfunctions, hlater⟩ :=
    run_readDefinition hname hparameters hbody hopened (by simp [entered]) hdefinition
  rw [run_closeFunction (hlater.opened.trans hopened) (hfunctions.trans hd), hliteral] at hrun
  cases hrun
  refine ⟨⟨_, rfl, isFunctions_insertFunction ⟨_, _, _, rfl, ?_⟩ hinnermost⟩,
    later_of_function hlater, .inl rfl⟩
  rcases hnode with hnode | hnode
  · rw [hnode]
    exact .nothing
  · revert hnode
    cases definition.2 with
    | absent => exact fun _ => .nothing
    | _ => exact id

end

theorem gives_declareGlobals (nodes : List Node) :
    Gives (fun _ => True) (declareGlobals nodes) := by
  induction nodes with
  | nil => exact .pure trivial
  | cons node nodes ih =>
    exact (Gives.literal node).bind fun name _ =>
      (Gives.declare _ (.addGlobal name)).bind fun _ _ => ih

theorem adds_readStatements (h : ∀ p ∈ parts, Adds globals (IsElement globals) p.read) :
    Adds globals (fun nodes => ∀ n ∈ nodes, IsStatement globals n) (readStatements parts) := by
  induction parts with
  | nil => exact Gives.adds (.pure nofun)
  | cons p parts ih =>
    have hrest := ih fun q hq => h q (mem_cons_of_mem _ hq)
    unfold readStatements
    refine (h p mem_cons_self).bind fun node hnode => ?_
    split
    · exact hrest
    · exact (gives_declareGlobals _).adds.bind fun _ _ => hrest
    · rcases hnode with rfl | ⟨nodes, rfl⟩ | hnode
      · exact absurd rfl ‹_›
      · exact absurd rfl (‹∀ nodes, Node.global _ = .global nodes → False› nodes)
      · refine hrest.bind fun nodes hnodes => Gives.adds (.pure ?_)
        rintro n (_ | ⟨_, hn⟩)
        · exact hnode
        · exact hnodes n hn

theorem gives_readSourceElements (h : ∀ p ∈ parts, Adds globals (IsElement globals) p.read) :
    Gives (IsBody globals) (readSourceElements parts) := by
  intro d body d' hrun
  obtain ⟨_, d₁, hpush, hrun⟩ := ok_of_run_bind hrun
  cases hpush
  obtain ⟨nodes, d₂, hstatements, hrun⟩ := ok_of_run_bind hrun
  obtain ⟨⟨functions, hd₂, hfunctions⟩, hlater, hnodes⟩ :=
    adds_readStatements h _ [] d.functions nodes d₂ rfl (by simp [IsFunctions]) hstatements
  cases hrun
  refine ⟨by simp [hd₂], ⟨hlater.literal, hlater.opened, hlater.later⟩, ?_⟩
  rw [hd₂]
  refine .elements (fun f hf => ?_) (fun name body scope hf => ?_) hnodes
  · obtain ⟨name, body, scope, heq, -⟩ := hfunctions f hf
    exact ⟨name, body, scope, heq⟩
  · obtain ⟨_, _, _, ⟨⟩, hbody⟩ := hfunctions _ hf
    exact hbody

theorem gives_readElements {elements : List Tree}
    (h : ∀ t ∈ elements, Adds globals (IsElement globals) (ofTree t).read) :
    Gives (IsBody globals) (readSourceElements (ofTrees elements)) := by
  refine gives_readSourceElements fun p hp => ?_
  rw [ofTrees_eq_map] at hp
  obtain ⟨t, ht, rfl⟩ := mem_map.1 hp
  exact h t ht

theorem gives_nextBody {elements : List Tree} {brace : Tree}
    (h : ∀ t ∈ elements, Adds globals (IsElement globals) (ofTree t).read)
    (parts : List Part) (i : Nat)
    (hi : parts.drop i = ofTrees [.branch "sourceelements" elements, brace]) :
    Gives (fun result => result.1 = .absent ∨ IsBody globals result.1) (nextExpr parts i) :=
  (gives_nextExpr hi rfl (gives_readElements h)).imp fun _ h => .inr h.1

theorem gives_nextBody_missing (globals : Bool) {brace : String} (hbrace : brace ∈ fillers)
    (parts : List Part) (i : Nat) (hi : parts.drop i = ofTrees [.leaf kind brace]) :
    Gives (fun result => result.1 = .absent ∨ IsBody globals result.1) (nextExpr parts i) :=
  (gives_nextExpr_missing hbrace hi).imp fun _ h => .inl h.1

end Reading

theorem Tree.Element.adds (h : tree.Element globals) :
    Adds globals (IsElement globals) (ofTree tree).read := by
  induction h with
  | statement hstatement => exact (hstatement.gives.imp fun _ h => .inr (.inr h)).adds
  | @global word rule names =>
    show Adds _ _ (do return Node.global (← readAll (ofTrees (Tree.variableLeaves names))))
    exact ((gives_readVariables names).bind fun nodes _ => .pure (.inr (.inl ⟨nodes, rfl⟩))).adds
  | @function name sign brace parameters elements hname hparameters _ ihs =>
    show Adds _ _ (readFunction (ofTrees (_ :: sign :: (parameters ++ _))))
    rw [ofTrees, ofTrees, ofTrees_append]
    exact adds_readFunction hname hparameters (gives_nextBody ihs)
  | @emptyFunction name kind brace sign parameters hname hparameters hbrace =>
    show Adds _ _ (readFunction (ofTrees (_ :: sign :: (parameters ++ _))))
    rw [ofTrees, ofTrees, ofTrees_append]
    exact adds_readFunction hname hparameters (gives_nextBody_missing globals hbrace)

namespace Tree.Program

variable (h : tree.Program globals) (hread : Script.ofTree tree = .ok s)

include h hread

/-- A grammatical program is read as one, and the constants in it stand in it. -/
theorem isScript :
    (∃ body scope, s.root = .program body scope ∧ IsBody globals body) ∧
      ∀ id, (s.scope id).Literal := by
  obtain @⟨elements, helements⟩ := h
  have hbody := gives_readElements fun t ht => (helements t ht).adds
  unfold Script.ofTree at hread
  split at hread
  case h_2 => cases hread
  case h_1 root d hrun =>
    cases hread
    replace hrun : (do
        enterScope
        let body ← readSourceElements (ofTrees elements)
        return Node.program body (← Reading.currentScope)).run {} = .ok root d := hrun
    obtain ⟨_, _, henter, hrun⟩ := ok_of_run_bind hrun
    cases henter
    obtain ⟨body, d₁, hbodyrun, hrun⟩ := ok_of_run_bind hrun
    obtain ⟨-, hlater, hisBody⟩ := hbody _ _ _ hbodyrun
    obtain ⟨scope, _, hscope, hrun⟩ := ok_of_run_bind hrun
    obtain ⟨_, -, rfl⟩ := run_currentScope hscope
    cases hrun
    refine ⟨⟨body, scope, rfl, hisBody⟩, (hlater.literal fun scope hscope => ?_).scope⟩
    obtain rfl : scope = {} := by simpa using hscope
    exact nofun

theorem isBody : ∃ body scope, s.root = .program body scope ∧ IsBody globals body :=
  (h.isScript hread).1

theorem literal (id : Nat) : (s.scope id).Literal :=
  (h.isScript hread).2 id

variable {b : Bytecode} (hcompile : s.compile name = .ok b)

include hcompile

theorem tidyLeaving {allowed : LoopKind → Bool}
    (hleaves : s.root.leavesOnly allowed none = true) :
    s.root.TidyProgram (.leaving globals allowed) := by
  obtain ⟨body, scope, hroot, hbody⟩ := h.isBody hread
  have hbodies := (s.compiles_iff hroot hbody).1 ⟨b, hcompile⟩
  rw [hroot] at hleaves
  exact ⟨body, scope, hroot, hbody.tidyLeaving (fun f hf => (hbodies f hf).1) hleaves⟩

theorem tidyProgram : s.root.TidyProgram (.grammatical globals) := by
  obtain ⟨body, scope, hroot, hbody⟩ := h.isBody hread
  have hbodies := (s.compiles_iff hroot hbody).1 ⟨b, hcompile⟩
  exact ⟨body, scope, hroot, hbody.tidy fun f hf => (hbodies f hf).1⟩

end Tree.Program

end PageScript
