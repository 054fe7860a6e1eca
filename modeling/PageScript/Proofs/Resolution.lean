/-
Names and constants find their places.

`Reads` says of an action that what it reads is resolved in every extension of the
declarations it ends with, and is closed under sequencing (`Reading.resolving`).  From it
comes, by induction over the tree, `Tree.sound`.

* `Node.Belongs` — which nodes belong to which scope;
* `Node.Resolved` — all that belongs to a node is resolved;
* `Script.resolved` — what is read from a tree with `main` at its root only is resolved.
-/
import PageScript.Proofs.Disciplines

namespace PageScript

open List Reading Literal

variable {s t : Scope} {d : Declarations} {name : String}

/-! ### Extensions -/

def Declarations.Extends (d e : Declarations) : Prop := ∀ id, (d.scope id).Extends (e.scope id)

theorem Declarations.Extends.refl (d : Declarations) : d.Extends d := fun _ => .refl _

theorem Declarations.Extends.trans {e f : Declarations} (h : d.Extends e) (h' : e.Extends f) :
    d.Extends f := fun id => (h id).trans (h' id)

/-! ### What belongs to a scope -/

namespace Literal

/-- A piece of a text as a segment: a variable leaves a gap. -/
def segment (piece : List Char) : Option String :=
  if piece.head? = some '$' then none else some (String.ofList piece)

/-- The segments that pieces of a text become.  An empty one is kept only at
the start. -/
def segmentsOf : List (List Char) → List (Option String)
  | [] => []
  | first :: rest => segment first :: (rest.filter (!·.isEmpty)).map segment

/-- The variables among pieces of a text, in turn. -/
def variablesOf (pieces : List (List Char)) : List String :=
  (pieces.filter (·.head? = some '$')).map String.ofList

/-- The segments of a text: what stands between its variables, and a gap for
each of them. -/
def segments (text : String) : List (Option String) := segmentsOf (splitVariables text.toList)

def variableNames (text : String) : List String := variablesOf (splitVariables text.toList)

end Literal

namespace Node

/-- `Belongs owner root owner' n` says that the node `n` is in the tree of
`root`, and that it belongs to the scope `owner'` if `root` belongs to
`owner`.  What is outside of programs and functions belongs to no scope. -/
inductive Belongs : Option Nat → Node → Option Nat → Node → Prop where
  | self {owner : Option Nat} {n : Node} : Belongs owner n owner n
  | part {owner owner' : Option Nat} {root p n : Node} : p ∈ root.parts →
      Belongs owner p owner' n → Belongs owner root owner' n
  | body {owner owner' : Option Nat} {root b n : Node} {id : Nat} : root.scope? = some id →
      root.body? = some b → Belongs (some id) b owner' n → Belongs owner root owner' n

/-- The scope with a number; outside of every scope nothing is declared. -/
def scopeAt (scopes : Nat → Scope) : Option Nat → Scope
  | some id => scopes id
  | none => {}

/-- A node that belongs to a scope is resolved in it: a variable has the slot
of its name, and a constant the place where its value is in the pool.  Of
equal real numbers the pool has one.  A program belongs to no scope. -/
def Resolves (scopes : Nat → Scope) (owner : Option Nat) : Node → Prop
  | .variable name slot => SlotIn (scopeAt scopes owner) name slot
  | .assignment name slot _ _ _ => SlotIn (scopeAt scopes owner) name slot
  | .constantInt n place => (scopeAt scopes owner).constants[place]? = some (.int n)
  | .constantText t place => (scopeAt scopes owner).constants[place]? = some (.text t)
  | .constantFloat x place =>
    ∃ y, (scopeAt scopes owner).constants[place]? = some (.float y) ∧ (y = x ∨ (y == x) = true)
  | .interpolation text parts place =>
    (scopeAt scopes owner).constants[place]? = some (.template (Literal.segments text)) ∧
      parts.map literal? = (Literal.variableNames text).map some
  | .program _ _ => owner = none
  | _ => True

/-- All that belongs to a node is resolved. -/
def Resolved (scopes : Nat → Scope) (owner : Option Nat) (root : Node) : Prop :=
  ∀ owner' n, Belongs owner root owner' n → n.Resolves scopes owner'

namespace Resolved

variable {scopes : Nat → Scope} {owner : Option Nat} {n : Node}

theorem self (h : Resolved scopes owner n) : n.Resolves scopes owner := h owner n .self

theorem part (h : Resolved scopes owner n) {p : Node} (hp : p ∈ n.parts) :
    Resolved scopes owner p :=
  fun owner' n' hn' => h owner' n' (.part hp hn')

theorem body (h : Resolved scopes owner n) {id : Nat} {b : Node} (hid : n.scope? = some id)
    (hb : n.body? = some b) : Resolved scopes (some id) b :=
  fun owner' n' hn' => h owner' n' (.body hid hb hn')

theorem of_parts (hscope : n.scope? = none) (hself : n.Resolves scopes owner)
    (hparts : ∀ p ∈ n.parts, Resolved scopes owner p) : Resolved scopes owner n := by
  intro owner' n' hn'
  cases hn' with
  | self => exact hself
  | part hp hn' => exact hparts _ hp _ _ hn'
  | body hid => exact absurd (hscope.symm.trans hid) nofun

theorem of_isBare (hbare : n.isBare) (hparts : ∀ p ∈ n.parts, Resolved scopes owner p) :
    Resolved scopes owner n := by
  cases n with
  | program | function | «variable» | assignment | constantInt | constantFloat | constantText
  | interpolation => cases hbare
  | _ => exact of_parts rfl trivial hparts

theorem function {body : Node} {scope : Nat} (hbody : Resolved scopes (some scope) body) :
    Resolved scopes owner (.function name body scope) := by
  intro owner' n' hn'
  cases hn' with
  | self => exact trivial
  | part hp => exact absurd hp not_mem_nil
  | body hid hb hn' =>
    cases hid
    cases hb
    exact hbody _ _ hn'

theorem program {body : Node} {scope : Nat} (hbody : Resolved scopes (some scope) body) :
    Resolved scopes none (.program body scope) := by
  intro owner' n' hn'
  cases hn' with
  | self => rfl
  | part hp => exact absurd hp not_mem_nil
  | body hid hb hn' =>
    cases hid
    cases hb
    exact hbody _ _ hn'

end Resolved

end Node

/-! ### Reading -/

/-- The pool of constants has literals only, and globals have the slots of
their names. -/
structure Scope.Sound (s : Scope) : Prop where
  literal : s.Literal
  named : s.Named

/-- Scopes that are open exist, and the functions declared so far are resolved
and stay so, whatever else is declared. -/
structure Declarations.Sound (d : Declarations) : Prop where
  opened : ∀ id ∈ d.opened, id < d.scopes.size
  literal : d.Literal
  named : ∀ scope ∈ d.scopes, scope.Named
  functions : ∀ fs ∈ d.functions, ∀ f ∈ fs, ∀ e, d.Extends e → ∀ owner, f.Resolved e.scope owner

theorem Declarations.Sound.named_scope (h : d.Sound) (id : Nat) : (d.scope id).Named := by
  rw [scope, Array.getD_eq_getD_getElem?]
  cases hscope : d.scopes[id]? with
  | none => exact .new
  | some scope => exact h.named scope (Array.mem_of_getElem? hscope)

theorem Declarations.Sound.extend {e : Declarations} (h : d.Sound) (hext : d.Extends e)
    (hopened : ∀ id ∈ e.opened, id < e.scopes.size) (hliteral : e.Literal)
    (hnamed : ∀ scope ∈ e.scopes, scope.Named)
    (hfunctions : e.functions = d.functions) : e.Sound where
  opened := hopened
  literal := hliteral
  named := hnamed
  functions fs hfs f hf e' he' := by
    rw [hfunctions] at hfs
    exact h.functions fs hfs f hf e' (hext.trans he')

theorem Declarations.scope_set (d : Declarations) (id : Nat) (s : Scope) (i : Nat) :
    ({ d with scopes := d.scopes.setIfInBounds id s } : Declarations).scope i
      = if i = id ∧ id < d.scopes.size then s else d.scope i := by
  simp only [scope, Array.getD_eq_getD_getElem?, Array.getElem?_setIfInBounds]
  grind

theorem Reading.exists_declared {α : Type} {id : Nat} {rest : List Nat}
    (hopened : d.opened = id :: rest) (hid : id < d.scopes.size) (g : Scope → α × Scope) :
    ∃ d', (declare g).run d = .ok (g (d.scope id)).1 d' ∧ d'.opened = d.opened ∧
      d'.scopes.size = d.scopes.size ∧ d'.scope id = (g (d.scope id)).2 := by
  refine ⟨_, run_declare_of_opened hopened, rfl, Array.size_setIfInBounds, ?_⟩
  rw [Declarations.scope_set, if_pos ⟨rfl, hid⟩]

theorem Declarations.scope_push (d : Declarations) (opened : List Nat) (i : Nat) :
    ({ d with scopes := d.scopes.push {}, opened := opened } : Declarations).scope i
      = d.scope i := by
  simp only [scope, Array.getD_eq_getD_getElem?, Array.getElem?_push]
  grind

namespace Reading

variable {α β : Type} {P : (Nat → Scope) → α → Prop} {Q : (Nat → Scope) → β → Prop}
  {owner : Option Nat} {x : Reading α} {f : α → Reading β}

theorem run_enterScope {d' : Declarations} (hd : d.Sound) (h : enterScope.run d = .ok () d') :
    d'.Sound ∧ d.Extends d' ∧ d'.opened = d.scopes.size :: d.opened := by
  cases h
  have hext : d.Extends
      { d with scopes := d.scopes.push {}, opened := d.scopes.size :: d.opened } := by
    intro i
    rw [d.scope_push]
    exact .refl _
  refine ⟨hd.extend hext (fun i hi => ?_) (fun scope hscope => ?_) (fun scope hscope => ?_) rfl,
    hext, rfl⟩
  · simp only [Array.size_push]
    rcases mem_cons.1 hi with rfl | hi
    · exact Nat.lt_succ_self _
    · exact Nat.lt_succ_of_lt (hd.opened i hi)
  · rcases Array.mem_push.1 hscope with hscope | rfl
    · exact hd.literal scope hscope
    · exact nofun
  · rcases Array.mem_push.1 hscope with hscope | rfl
    · exact hd.named scope hscope
    · exact .new

theorem run_literal {node : Node} {d' : Declarations}
    (h : (literal node).run d = .ok name d') : d = d' := by
  unfold literal at h
  split at h <;> cases h
  rfl

/-- Where `owner` is the innermost open scope, the action leaves the open
scopes as they are, and what it reads has a property in all scopes that extend
those it ends with. -/
def Reads (owner : Option Nat) (P : (Nat → Scope) → α → Prop) (x : Reading α) : Prop :=
  ∀ d a d', d.Sound → d.opened.head? = owner → x.run d = .ok a d' →
    d'.Sound ∧ d.Extends d' ∧ d'.opened = d.opened ∧ ∀ e, d'.Extends e → P e.scope a

namespace Reads

theorem pure {a : α} (h : ∀ scopes, P scopes a) : Reads owner P (Pure.pure a) := by
  intro d a' d' hd _ hrun
  cases hrun
  exact ⟨hd, .refl d, rfl, fun e _ => h e.scope⟩

theorem throw (fault : Fault) : Reads owner P (throw fault) := by
  intro d a d' _ _ hrun
  cases hrun

theorem bind (hx : Reads owner P x) (hf : ∀ a, Reads owner (fun s b => P s a → Q s b) (f a)) :
    Reads owner Q (x >>= f) := by
  intro d b d'' hd howner hrun
  obtain ⟨a, d', hxrun, hfrun⟩ := ok_of_run_bind hrun
  obtain ⟨hd', hext, hopened, ha⟩ := hx d a d' hd howner hxrun
  obtain ⟨hd'', hext', hopened', hb⟩ :=
    hf a d' b d'' hd' (by rw [hopened, howner]) hfrun
  refine ⟨hd'', hext.trans hext', hopened'.trans hopened, fun e he => hb e he ?_⟩
  exact ha e (hext'.trans he)

theorem imp {P' : (Nat → Scope) → α → Prop} (hx : Reads owner P x)
    (h : ∀ s a, P s a → P' s a) : Reads owner P' x := by
  intro d a d' hd howner hrun
  obtain ⟨hd', hext, hopened, ha⟩ := hx d a d' hd howner hrun
  exact ⟨hd', hext, hopened, fun e he => h _ _ (ha e he)⟩

theorem ofExcept (e : Except Fault α) :
    Reads owner (fun _ a => e = .ok a) (ofExcept e : Reading α) := by
  cases e with
  | error fault => exact throw fault
  | ok a => exact pure fun _ => rfl

theorem declare {g : Scope → α × Scope} {R : Scope → α → Prop}
    (hext : ∀ s : Scope, s.Extends (g s).2) (hliteral : ∀ s : Scope, s.Literal → (g s).2.Literal)
    (hnamed : ∀ s : Scope, s.Named → (g s).2.Named)
    (hR : ∀ s t : Scope, (g s).2.Extends t → R t (g s).1) :
    Reads owner (fun scopes a => R (Node.scopeAt scopes owner) a) (declare g) := by
  intro d a d' hd howner hrun
  obtain ⟨id, rest, hopened, rfl, hd'⟩ := run_declare hrun
  rw [hopened] at howner
  cases howner
  have hid : id < d.scopes.size := hd.opened id (by rw [hopened]; exact mem_cons_self)
  have hscope := d.scope_set id (g (d.scope id)).2
  rw [← hd'] at hscope
  have hsame : d.Extends d' := by
    intro i
    rw [hscope]
    split
    case isTrue h =>
      rw [h.1]
      exact hext _
    case isFalse => exact .refl _
  refine ⟨hd.extend hsame ?_ ?_ ?_ (by rw [hd']), hsame, by rw [hd'], fun e he => ?_⟩
  · intro i hi
    rw [hd'] at hi ⊢
    simpa using hd.opened i hi
  · intro scope hmem
    rw [hd'] at hmem
    rcases Array.mem_or_eq_of_mem_setIfInBounds hmem with hmem | rfl
    · exact hd.literal scope hmem
    · exact hliteral _ (hd.literal.scope id)
  · intro scope hmem
    rw [hd'] at hmem
    rcases Array.mem_or_eq_of_mem_setIfInBounds hmem with hmem | rfl
    · exact hd.named scope hmem
    · exact hnamed _ (hd.named_scope id)
  · have hlast := he id
    rw [hscope, if_pos ⟨rfl, hid⟩] at hlast
    exact hR _ _ hlast

end Reads

abbrev Resolving (owner : Option Nat) : (Nat → Scope) → Node → Prop :=
  fun scopes n => n.Resolved scopes owner

/-! ### Names and constants -/

theorem slotIn_of_addSymbol
    (h : (s.addSymbol name).2.Extends t) : Node.SlotIn t name (s.addSymbol name).1 := by
  have hge : 0 ≤ (s.symbols.insert name).lookup (some name) := s.symbols.lookup_insert_self name
  have hsame : t.symbols.lookup (some name) = (s.symbols.insert name).lookup (some name) :=
    h.symbols _ hge
  have hlt := t.symbols.lookup_lt_size (some name)
  rw [hsame] at hlt
  exact ⟨hsame.symm, hge, hlt⟩

theorem reads_named (name : String) :
    Reads owner (fun scopes n => n.Resolved scopes owner ∧ n.literal? = some name)
      (readVariable name) := by
  have hdeclare : Reads owner (fun scopes slot => Node.SlotIn (Node.scopeAt scopes owner) name slot)
      (declare (·.addVariable name)) := by
    refine .declare (g := (·.addVariable name)) (R := fun t slot => Node.SlotIn t name slot)
      (fun s => { Scope.Extends.addSymbol s name with }) (fun _ h => h)
      (fun _ h => h.addVariable name) fun s t h => ?_
    exact slotIn_of_addSymbol (s := s) ⟨h.symbols, h.constants⟩
  exact hdeclare.bind fun slot => .pure fun scopes h => ⟨.of_parts rfl h nofun, rfl⟩

theorem constant_of_addConstant {same : Value → Bool} {v : Value}
    (h : (s.addConstant same v).2.Extends t) :
    ∃ w, t.constants[(s.addConstant same v).1]? = some w ∧ (w = v ∨ same w = true) := by
  suffices hown : ∃ w, (s.addConstant same v).2.constants[(s.addConstant same v).1]? = some w ∧
      (w = v ∨ same w = true) by
    obtain ⟨w, hw, hsame⟩ := hown
    exact ⟨w, h.constant hw, hsame⟩
  unfold Scope.addConstant
  split
  case h_1 i hi =>
    obtain ⟨hlt, hsame, -⟩ := findIdx?_eq_some_iff_getElem.1 hi
    exact ⟨s.constants[i], getElem?_eq_getElem hlt, .inr hsame⟩
  case h_2 => exact ⟨v, by simp, .inl rfl⟩

theorem constant_of_addInt {n : Int} (h : (s.addInt n).2.Extends t) :
    t.constants[(s.addInt n).1]? = some (.int n) := by
  obtain ⟨w, hw, rfl | hsame⟩ := constant_of_addConstant h
  · exact hw
  · cases w with
    | int m =>
      obtain rfl : m = n := by simpa using hsame
      exact hw
    | _ => cases hsame

theorem constant_of_addFloat {x : Float} (h : (s.addFloat x).2.Extends t) :
    ∃ y, t.constants[(s.addFloat x).1]? = some (.float y) ∧ (y = x ∨ y == x) := by
  obtain ⟨w, hw, rfl | hsame⟩ := constant_of_addConstant h
  · exact ⟨x, hw, .inl rfl⟩
  · cases w with
    | float y => exact ⟨y, hw, .inr hsame⟩
    | _ => cases hsame

theorem constant_of_addText {text : String} (h : (s.addText text).2.Extends t) :
    t.constants[(s.addText text).1]? = some (.text text) := by
  obtain ⟨w, hw, rfl | hsame⟩ := constant_of_addConstant h
  · exact hw
  · cases w with
    | text u =>
      obtain rfl : u = text := by simpa using hsame
      exact hw
    | _ => cases hsame

theorem constant_of_addTemplate {pieces : List (Option String)}
    (h : (s.addTemplate pieces).2.Extends t) :
    t.constants[(s.addTemplate pieces).1]? = some (.template pieces) := by
  obtain ⟨w, hw, rfl | hsame⟩ := constant_of_addConstant h
  · exact hw
  · cases hsame

theorem reads_constant {same : Value → Bool} {v : Value} (hv : v.isLiteral)
    {R : Scope → Nat → Prop} (hR : ∀ s t : Scope, (s.addConstant same v).2.Extends t →
      R t (s.addConstant same v).1) {node : Nat → Node}
    (hnode : ∀ place, (node place).scope? = none ∧ (node place).parts = [])
    (hresolves : ∀ scopes place, R (Node.scopeAt scopes owner) place →
      (node place).Resolves scopes owner) :
    Reads owner (Resolving owner) (do return node (← declare (·.addConstant same v))) := by
  have hdeclare : Reads owner (fun scopes place => R (Node.scopeAt scopes owner) place)
      (declare (·.addConstant same v)) :=
    .declare (fun s => .addConstant s same v) (fun _ h => h.addConstant hv)
      (fun _ h => h.addConstant same v) hR
  refine hdeclare.bind fun place => .pure fun scopes h => ?_
  refine .of_parts (hnode place).1 (hresolves scopes place h) ?_
  rw [(hnode place).2]
  exact nofun

theorem reads_int (n : Int) : Reads owner (Resolving owner)
    (do return .constantInt n (← declare (·.addInt n))) := by
  refine reads_constant (R := fun t place => t.constants[place]? = some (.int n)) rfl
    (fun _ _ h => ?_) (fun _ => ⟨rfl, rfl⟩) fun _ _ h => h
  exact constant_of_addInt h

theorem reads_float (x : Float) : Reads owner (Resolving owner)
    (do return .constantFloat x (← declare (·.addFloat x))) := by
  refine reads_constant (R := fun t place => ∃ y,
      t.constants[place]? = some (.float y) ∧ (y = x ∨ y == x)) rfl
    (fun _ _ h => ?_) (fun _ => ⟨rfl, rfl⟩) fun _ _ h => h
  exact constant_of_addFloat h

theorem reads_constantText (text : String) : Reads owner (Resolving owner) (constantText text) := by
  refine reads_constant (R := fun t place => t.constants[place]? = some (.text text)) rfl
    (fun _ _ h => ?_) (fun _ => ⟨rfl, rfl⟩) fun _ _ h => h
  exact constant_of_addText h

theorem reads_number (own : String) (parts : List Part) :
    Reads owner (Resolving owner) (readNumber own parts) := by
  unfold readNumber
  dsimp only
  split
  · exact reads_int _
  · exact reads_float _
  · split
    · exact reads_float _
    · exact .throw _

theorem variableName?_eq {piece name : List Char} (h : variableName? piece = some name) :
    name = piece := by
  unfold variableName? at h
  split at h
  case h_2 => cases h
  case h_1 name' htake =>
    cases h
    unfold takeName at htake
    split at htake
    case h_2 => cases htake
    case h_1 c cs =>
      split at htake
      case isFalse => cases htake
      case isTrue =>
        obtain ⟨rfl, hrest⟩ := Prod.mk.inj (Option.some.inj htake)
        have happend := takeWhile_append_dropWhile (p := isNamePart) (l := cs)
        rw [hrest, append_nil] at happend
        rw [happend]

/-- What comes of pieces after others: their segments, and variables with the
names among them, which are resolved if those before are. -/
def Pieces (owner : Option Nat) (done : List (Option String)) (filled : List Node)
    (names : List String) (scopes : Nat → Scope) (result : List (Option String) × List Node) :
    Prop :=
  result.1 = done ∧
  result.2.map Node.literal? = filled.map Node.literal? ++ names.map some ∧
  ((∀ n ∈ filled, n.Resolved scopes owner) → ∀ n ∈ result.2, n.Resolved scopes owner)

theorem reads_piece {done : List (Option String)} {filled : List Node} {piece : List Char}
    {pieces : List (List Char)} {all : List (Option String)} {names : List String}
    (hkept : ¬(piece.isEmpty && !done.isEmpty))
    (hrest : ∀ done' filled', done' = done ++ [segment piece] →
      Reads owner (Pieces owner all filled' names) (readPieces done' filled' pieces)) :
    Reads owner (Pieces owner all filled ((variablesOf [piece]) ++ names))
      (readPieces done filled (piece :: pieces)) := by
  unfold readPieces
  rw [if_neg hkept]
  by_cases hvariable : piece.head? = some '$'
  · rw [if_pos hvariable]
    have hnames : variablesOf [piece] = [String.ofList piece] := by
      simp [variablesOf, hvariable]
    cases hname : variableName? piece with
    | none => exact .throw _
    | some name =>
      obtain rfl := variableName?_eq hname
      refine (reads_named _).bind fun part => ?_
      have hdone : done ++ [none] = done ++ [segment name] := by
        rw [Literal.segment, if_pos hvariable]
      refine (hrest _ (filled ++ [part]) hdone).imp fun scopes result h hpart => ?_
      obtain ⟨hsegments, hliterals, hresolved⟩ := h
      refine ⟨hsegments, ?_, fun hfilled => hresolved ?_⟩
      · rw [hliterals, hnames]
        simp [hpart.2]
      · simpa [or_imp, forall_and] using ⟨hfilled, hpart.1⟩
  · rw [if_neg hvariable]
    have hnames : variablesOf [piece] = [] := by simp [variablesOf, hvariable]
    rw [hnames, nil_append]
    exact hrest _ _ (by rw [Literal.segment, if_neg hvariable])

theorem variablesOf_cons (piece : List Char) (pieces : List (List Char)) :
    variablesOf (piece :: pieces)
      = variablesOf [piece] ++ variablesOf pieces := by
  rw [variablesOf, variablesOf, variablesOf, ← map_append,
    ← filter_append, singleton_append]

theorem reads_laterPieces {done : List (Option String)} {filled : List Node}
    {pieces : List (List Char)} (hdone : done ≠ []) :
    Reads owner (Pieces owner (done ++ (pieces.filter (!·.isEmpty)).map segment) filled
      (variablesOf pieces)) (readPieces done filled pieces) := by
  induction pieces generalizing done filled with
  | nil => exact .pure fun scopes => by simp [Pieces, variablesOf]
  | cons piece pieces ih =>
    by_cases hempty : piece.isEmpty
    · -- An empty piece is passed over.
      obtain rfl := isEmpty_iff.1 hempty
      have hskip : readPieces done filled ([] :: pieces) = readPieces done filled pieces := by
        rw [readPieces]
        simp [hdone]
      rw [hskip]
      exact ih hdone
    · rw [variablesOf_cons]
      refine reads_piece (by simp [hempty]) fun done' filled' hdone' => ?_
      have hall : done ++ ((piece :: pieces).filter (!·.isEmpty)).map segment
          = done' ++ (pieces.filter (!·.isEmpty)).map segment := by
        rw [hdone', filter_cons_of_pos (by simpa using hempty)]
        simp
      rw [hall]
      exact ih (by simp [hdone'])

theorem reads_pieces (pieces : List (List Char)) :
    Reads owner (Pieces owner (segmentsOf pieces) [] (variablesOf pieces))
      (readPieces [] [] pieces) := by
  cases pieces with
  | nil => exact .pure fun scopes => by simp [Pieces, segmentsOf, variablesOf]
  | cons first rest =>
    rw [variablesOf_cons]
    refine reads_piece (by simp) fun done' filled' hdone' => ?_
    rw [segmentsOf, ← singleton_append,
      show [segment first] = done' from hdone'.symm]
    exact reads_laterPieces (by simp [hdone'])

theorem reads_text (literal : String) : Reads owner (Resolving owner) (readText literal) := by
  refine (Reads.ofExcept _).bind fun (quoted, quoting) => ?_
  refine Reads.imp ?_ fun _ _ h _ => h
  refine (Reads.ofExcept _).bind fun cs => ?_
  refine Reads.imp ?_ fun _ _ h _ => h
  cases quoting with
  | single => exact reads_constantText _
  | double =>
    refine (reads_pieces _).bind fun (pieces, parts) => ?_
    dsimp only
    split
    · exact (reads_constantText _).imp fun _ _ h _ => h
    · have hdeclare : Reads owner (fun scopes place =>
          (Node.scopeAt scopes owner).constants[place]? = some (.template pieces))
          (declare (·.addTemplate pieces)) :=
        .declare (g := (·.addTemplate pieces))
          (R := fun t place => t.constants[place]? = some (.template pieces))
          (fun s => .addConstant s _ _) (fun _ h => h.addConstant rfl)
          (fun _ h => h.addConstant _ _) fun s t h => constant_of_addTemplate h
      refine hdeclare.bind fun place => .pure fun scopes hplace hpieces => ?_
      obtain ⟨hsegments, hliterals, hresolved⟩ := hpieces
      replace hsegments : pieces = _ := hsegments
      refine .of_parts rfl ⟨?_, ?_⟩ (hresolved nofun)
      · rw [hplace, hsegments, segments, String.toList_ofList]
      · rw [hliterals, variableNames, String.toList_ofList]
        rfl

end Reading

namespace Reading

def resolving (owner : Option Nat) : Discipline where
  renumber := id
  Good := Resolving owner
  Does _ P x _ := Reads owner P x
  pure _ h := .pure h
  throw := .throw
  bind := .bind
  imp := .imp
  global name := .declare (R := fun _ _ => True)
    (fun s => { Scope.Extends.addSymbol s name with }) (fun _ h => h) (fun _ h => h.addGlobal name)
    fun _ _ _ => trivial
  parameter name _ := .declare (R := fun _ _ => True)
    (fun s => { Scope.Extends.addSymbol s name with }) (fun _ h => h)
    (fun _ h => h.addParameter name _) fun _ _ _ => trivial
  variable_ name := (reads_named name).imp fun _ _ h => h.1
  number := reads_number
  text := reads_text
  good := .of_isBare
  part h hp := h.part hp
  assigned hvariable hright := .of_parts rfl hvariable.self (forall_mem_singleton.2 hright)

end Reading

/-! ### Rules -/

/-- A part whose subtrees are all read into nodes that are resolved. -/
inductive Part.Sound : Part → Prop where
  | mk {tree : Tree} {read : Reading Node} {children : List Part} :
      (∀ owner, (resolving owner).Obeys read) →
      (∀ p ∈ children, Part.Sound p) → Part.Sound (.mk tree read children)

theorem Part.Sound.read {p : Part} (h : p.Sound) (owner : Option Nat) :
    (resolving owner).Obeys p.read := by
  cases h with
  | mk hread _ => exact hread owner

theorem Part.Sound.children {p : Part} (h : p.Sound) : ∀ q ∈ p.children, q.Sound := by
  cases h with
  | mk _ hchildren => exact hchildren

namespace Reading

variable {owner : Option Nat} {parts : List Part}

theorem reads_sourceElements (hparts : ∀ p ∈ parts, p.Sound) :
    Reads owner (Resolving owner) (readSourceElements parts) := by
  intro d node d' hd howner hrun
  -- The statements are read with an empty list of functions in front.
  obtain ⟨_, d₁, hmodify, hrun⟩ := ok_of_run_bind hrun
  cases hmodify
  have hd₁ : ({ d with functions := [] :: d.functions } : Declarations).Sound := by
    refine ⟨hd.opened, hd.literal, hd.named, fun fs hfs f hf => ?_⟩
    rcases mem_cons.1 hfs with rfl | hfs
    · exact absurd hf not_mem_nil
    · exact hd.functions fs hfs f hf
  obtain ⟨nodes, d₂, hstatements, hrun⟩ := ok_of_run_bind hrun
  obtain ⟨hd₂, hext, hopened, hnodes⟩ :=
    Discipline.does_statements (D := resolving owner) (fun p hp => (hparts p hp).read owner) _ _ _
      hd₁ howner hstatements
  cases hrun
  refine ⟨⟨hd₂.opened, hd₂.literal, hd₂.named, fun fs hfs f hf => ?_⟩, hext, hopened, fun e he => ?_⟩
  · exact hd₂.functions fs (mem_of_mem_drop hfs) f hf
  · refine .of_parts rfl trivial fun n hn => ?_
    rcases mem_append.1 hn with hn | hn
    · -- The functions declared on the way are those of the innermost list.
      cases hfunctions : d₂.functions with
      | nil =>
        rw [hfunctions] at hn
        exact absurd hn not_mem_nil
      | cons innermost outer =>
        rw [hfunctions] at hn
        exact hd₂.functions innermost (by rw [hfunctions]; exact mem_cons_self) n hn e he owner
    · exact hnodes e he n hn

theorem mem_insertFunction {f g : Node} {functions : List Node}
    (h : g ∈ insertFunction name f functions) : g = f ∨ g ∈ functions := by
  fun_induction insertFunction name f functions with
  | case1 => exact .inl (mem_singleton.1 h)
  | case2 | case3 | case4 => grind

theorem resolved_orReturn {scopes : Nat → Scope} {body : Node} (h : body.Resolved scopes owner) :
    (orReturn body).Resolved scopes owner := by
  unfold orReturn
  split
  · exact .of_parts rfl trivial (forall_mem_singleton.2 (.of_parts rfl trivial (by rintro _ ⟨⟩)))
  · exact h

theorem reads_function (hparts : ∀ p ∈ parts, p.Sound) :
    Reads owner (Resolving owner) (readFunction parts) := by
  intro d node d' hd _ hrun
  rw [run_readFunction] at hrun
  obtain ⟨hsound₁, hext₁, -⟩ := run_enterScope hd rfl
  obtain ⟨definition, e, hdefinition, hrun⟩ := ok_of_run_bind hrun
  -- What is read inside belongs to the new scope.
  obtain ⟨hsound, hext, hopened, hresolved⟩ :=
    Discipline.does_definition (D := resolving (some d.scopes.size))
      (fun p hp => (hparts p hp).read _) _ _ e hsound₁ rfl hdefinition
  replace hopened : e.opened = d.scopes.size :: d.opened := hopened
  cases hfunctions : e.functions with
  | nil =>
    obtain ⟨scope, e₁, hcurrent, hrun⟩ := ok_of_run_bind hrun
    obtain ⟨-, -, rfl⟩ := run_currentScope hcurrent
    obtain ⟨_, e₁, hexit, hrun⟩ := ok_of_run_bind hrun
    cases hexit
    obtain ⟨name, e₁, hname, hrun⟩ := ok_of_run_bind hrun
    obtain rfl := run_literal hname
    simp only [EStateM.run_bind, EStateM.run_get, hfunctions] at hrun
    cases hrun
  | cons innermost outer =>
    rw [run_closeFunction hopened hfunctions] at hrun
    split at hrun
    case h_1 => cases hrun
    case h_2 name _ =>
      cases hrun
      refine ⟨⟨fun i hi => ?_, hsound.literal, hsound.named, fun fs hfs f hf e' he' owner => ?_⟩,
        hext₁.trans hext, rfl, fun _ _ => .of_parts rfl trivial nofun⟩
      · exact hsound.opened i (by rw [hopened]; exact mem_cons_of_mem _ hi)
      · have hbefore : ∀ fs ∈ innermost :: outer, ∀ f ∈ fs, f.Resolved e'.scope owner := by
          intro fs hfs f hf
          exact hsound.functions fs (by rwa [hfunctions]) f hf e' he' owner
        rcases mem_cons.1 hfs with rfl | hfs
        · rcases mem_insertFunction hf with rfl | hf
          · exact .function (resolved_orReturn (hresolved e' he'))
          · exact hbefore innermost mem_cons_self f hf
        · exact hbefore fs (mem_cons_of_mem _ hfs) f hf

theorem reads_rule {tree : Tree} (hmain : tree.symbol ≠ "main") (hparts : ∀ p ∈ parts, p.Sound) :
    (resolving owner).Obeys (rule tree parts) := by
  by_cases hlist : tree.symbol = "sourceelements"
  · have hrule : rule tree parts = readSourceElements parts := by
      rw [rule, hlist]
      rfl
    rw [hrule]
    exact reads_sourceElements hparts
  by_cases hfunction : tree.symbol = "functiondeclaration"
  · have hrule : rule tree parts = readFunction parts := by
      rw [rule, hfunction]
      rfl
    rw [hrule]
    exact reads_function hparts
  · exact Discipline.obeys_rule (fun p hp => (hparts p hp).read owner) hmain hlist hfunction
      fun p hp q hq => ((hparts p hp).children q hq).read owner

end Reading

/-! ### Trees -/

mutual

def Tree.avoids (symbol : String) : Tree → Bool
  | .leaf own _ => own != symbol
  | .branch own children => own != symbol && Tree.allAvoid symbol children

def Tree.allAvoid (symbol : String) : List Tree → Bool
  | [] => true
  | tree :: trees => tree.avoids symbol && Tree.allAvoid symbol trees

end

mutual

/-- A tree without `main` is read into nodes that are resolved. -/
theorem Tree.sound : (tree : Tree) → tree.avoids "main" → (Part.ofTree tree).Sound
  | .leaf symbol text, h =>
    .mk (fun _ => reads_rule (by simpa [avoids, Tree.symbol] using h) nofun) nofun
  | .branch symbol children, h => by
    rw [avoids, Bool.and_eq_true] at h
    have hchildren := Tree.allSound children h.2
    exact .mk (fun _ => reads_rule (by simpa [Tree.symbol] using h.1) hchildren) hchildren

theorem Tree.allSound : (trees : List Tree) → Tree.allAvoid "main" trees →
    ∀ p ∈ Part.ofTrees trees, p.Sound
  | [], _ => nofun
  | tree :: trees, h => by
    rw [allAvoid, Bool.and_eq_true] at h
    exact forall_mem_cons.2 ⟨Tree.sound tree h.1, Tree.allSound trees h.2⟩

end

def Tree.MainAtRoot (tree : Tree) : Prop := Tree.allAvoid "main" tree.children = true

instance (tree : Tree) : Decidable tree.MainAtRoot := inferInstanceAs (Decidable (_ = true))

theorem Part.read_ofTree (tree : Tree) :
    (Part.ofTree tree).read = rule tree (Part.ofTrees tree.children) := by
  cases tree <;> rfl

/-- What is read from a tree belongs to the scopes that were declared on the
way, and is resolved in them as they are in the end.  Their pools have
literals only, and they name their globals. -/
theorem Script.resolved {tree : Tree} (hmain : tree.MainAtRoot) {s : Script}
    (h : Script.ofTree tree = .ok s) :
    s.root.Resolved s.scope none ∧ ∀ scope ∈ s.scopes, scope.Sound := by
  unfold ofTree at h
  split at h
  case h_2 => cases h
  case h_1 root d hrun =>
    cases h
    have hstart : ({} : Declarations).Sound := ⟨nofun, nofun, nofun, nofun⟩
    have hparts := Tree.allSound tree.children hmain
    rw [Part.read_ofTree] at hrun
    by_cases hsymbol : tree.symbol = "main"
    · have hrule : rule tree (Part.ofTrees tree.children)
          = readMain (Part.ofTrees tree.children) := by
        rw [rule, hsymbol]
        rfl
      rw [hrule] at hrun
      obtain ⟨_, d₁, henter, hrun⟩ := ok_of_run_bind hrun
      obtain ⟨hsound₁, -, hopened₁⟩ := run_enterScope hstart henter
      obtain ⟨body, d₂, hbody, hrun⟩ := ok_of_run_bind hrun
      obtain ⟨hsound₂, -, hopened₂, hresolved⟩ :=
        Discipline.obeys_child (D := resolving (some 0))
          (fun p hp => (hparts p hp).read _) 0 d₁ _ d₂ hsound₁ (by rw [hopened₁]; rfl) hbody
      obtain ⟨scope, d₃, hcurrent, hrun⟩ := ok_of_run_bind hrun
      obtain ⟨rest, hscope, hd₃⟩ := run_currentScope hcurrent
      subst hd₃
      cases hrun
      rw [hopened₂, hopened₁] at hscope
      cases hscope
      exact ⟨.program (hresolved d (.refl d)),
        fun scope hscope => ⟨hsound₂.literal scope hscope, hsound₂.named scope hscope⟩⟩
    · have hreads : Reads none _ (rule tree (Part.ofTrees tree.children)) :=
        reads_rule hsymbol hparts
      obtain ⟨hsound, -, -, hresolved⟩ := hreads _ _ d hstart rfl hrun
      exact ⟨hresolved d (.refl d),
        fun scope hscope => ⟨hsound.literal scope hscope, hsound.named scope hscope⟩⟩

end PageScript
