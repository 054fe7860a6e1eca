/-
Where a part of a tree is read.

What is read of a function depends on what was read before it only in the numbers of
scopes.  `Environs.place` puts declarations that were made on their own among others, and
`Node.rescoped` gives the functions in a node the numbers that go with it.  An action can
be placed (`Places`) if it does the same there, renumbered; this is a discipline
(`Reading.placing`), from which comes `Tree.portable`.  Functions may stand directly in
lists of statements only, and such lists in functions (`Tree.orderly`).
-/
import PageScript.Proofs.Resolution

namespace PageScript

open List EStateM

/-! ### Declarations among others -/

/-- What is declared around a part of a tree.  The scope numbered `home` is the
one that the part is read in. -/
structure Environs where
  scopes : Array Scope
  home : Nat
  home_lt : home < scopes.size
  opened : List Nat
  functions : List (List Node)

/-- There is an open scope, and all open scopes exist. -/
structure Declarations.Entered (d : Declarations) : Prop where
  opened : d.opened ≠ []
  lt : ∀ id ∈ d.opened, id < d.scopes.size

/-- The same scopes are open, and as many lists of functions. -/
structure Declarations.Keeps (d e : Declarations) : Prop where
  opened : e.opened = d.opened
  scopes : d.scopes.size ≤ e.scopes.size
  functions : e.functions.length = d.functions.length

namespace Declarations

variable {d e e' : Declarations}

theorem Entered.pos (h : d.Entered) : 0 < d.scopes.size := by
  obtain ⟨id, hid⟩ := exists_mem_of_ne_nil _ h.opened
  exact Nat.zero_lt_of_lt (h.lt id hid)

theorem Keeps.refl (d : Declarations) : d.Keeps d := ⟨rfl, Nat.le_refl _, rfl⟩

theorem Keeps.trans (h : d.Keeps e) (h' : e.Keeps e') : d.Keeps e' :=
  ⟨h'.opened.trans h.opened, Nat.le_trans h.scopes h'.scopes, h'.functions.trans h.functions⟩

theorem Keeps.entered (h : d.Keeps e) (hd : d.Entered) : e.Entered where
  opened := by
    rw [h.opened]
    exact hd.opened
  lt id hid := by
    rw [h.opened] at hid
    exact Nat.lt_of_lt_of_le (hd.lt id hid) h.scopes

theorem Keeps.inside (h : d.Keeps e) (hd : d.functions ≠ []) : e.functions ≠ [] := by
  intro hnil
  have hlength := h.functions
  rw [hnil] at hlength
  exact hd (length_eq_zero_iff.1 hlength.symm)

end Declarations

namespace Environs

variable {r : Environs} {f : Nat → Nat} {d : Declarations} {m n i : Nat}

/-- The number that a scope gets among the others. -/
def number (r : Environs) : Nat → Nat
  | 0 => r.home
  | i + 1 => r.scopes.size + i

/-- These are the numbers of the first `n` scopes. -/
def Fits (r : Environs) (f : Nat → Nat) (n : Nat) : Prop := ∀ i < n, f i = r.number i

/-- Declarations, placed among those around them. -/
def place (r : Environs) (f : Nat → Nat) (d : Declarations) : Declarations where
  scopes := r.scopes.set r.home (d.scope 0) r.home_lt ++ d.scopes.toList.tail.toArray
  opened := d.opened.map f ++ r.opened
  functions := d.functions.map (Node.rescopedAll f) ++ r.functions

theorem Fits.mono (h : r.Fits f n) (hle : m ≤ n) : r.Fits f m :=
  fun i hi => h i (Nat.lt_of_lt_of_le hi hle)

theorem size_place (h : 0 < d.scopes.size) :
    (r.place f d).scopes.size = r.number d.scopes.size := by
  obtain ⟨k, hk⟩ : ∃ k, d.scopes.size = k + 1 := ⟨d.scopes.size - 1, by omega⟩
  rw [hk, number]
  simp [place, hk]

theorem toList_place : (r.place f d).scopes.toList
    = r.scopes.toList.set r.home (d.scope 0) ++ d.scopes.toList.tail := by
  simp [place]

theorem scope_place (h : i < d.scopes.size) : (r.place f d).scope (r.number i) = d.scope i := by
  have hhome := r.home_lt
  have hscope : (r.place f d).scopes[r.number i]? = d.scopes[i]? := by
    rw [← Array.getElem?_toList, ← Array.getElem?_toList, toList_place]
    cases i with
    | zero =>
      rw [number, getElem?_append_left (by simpa using hhome), getElem?_set_self]
      · simp [Declarations.scope, h]
      · simpa using hhome
    | succ i =>
      rw [number, getElem?_append_right (by simp)]
      simp
  rw [Declarations.scope, Declarations.scope, Array.getD_eq_getD_getElem?, hscope,
    Array.getD_eq_getD_getElem?]

theorem scope_place_of_ne (hi : i < r.scopes.size) (hhome : i ≠ r.home) :
    (r.place f d).scope i = r.scopes.getD i {} := by
  have hlt : i < (r.scopes.set r.home (d.scope 0) r.home_lt).size := by simpa using hi
  rw [Declarations.scope, place, Array.getD_eq_getD_getElem?, Array.getElem?_append_left hlt,
    Array.getElem?_set_ne _ (Ne.symm hhome), Array.getD_eq_getD_getElem?]

theorem place_set (h : i < d.scopes.size) (s : Scope) :
    r.place f { d with scopes := d.scopes.setIfInBounds i s }
      = { r.place f d with scopes := (r.place f d).scopes.setIfInBounds (r.number i) s } := by
  have hhome := r.home_lt
  have hscopes : (r.place f { d with scopes := d.scopes.setIfInBounds i s }).scopes
      = (r.place f d).scopes.setIfInBounds (r.number i) s := by
    apply Array.ext'
    rw [Array.toList_setIfInBounds, toList_place, toList_place, d.scope_set,
      Array.toList_setIfInBounds]
    cases i with
    | zero =>
      -- The scope that the part is read in is the first of its own scopes.
      have htail : (d.scopes.toList.set 0 s).tail = d.scopes.toList.tail := by
        cases d.scopes.toList <;> rfl
      rw [if_pos ⟨rfl, h⟩, htail, number, set_append_left _ _ (by simpa using hhome),
        set_set]
    | succ i =>
      have htail : (d.scopes.toList.set (i + 1) s).tail = d.scopes.toList.tail.set i s := by
        cases d.scopes.toList <;> rfl
      rw [if_neg (by simp), htail, number, set_append_right _ _ (by simp)]
      simp
  simp only [place, Declarations.mk.injEq, and_self, and_true]
  exact hscopes

theorem place_push (h : 0 < d.scopes.size) (opened : List Nat) :
    (r.place f { d with scopes := d.scopes.push {}, opened := opened }).scopes
      = (r.place f d).scopes.push {} := by
  have hne : d.scopes.toList ≠ [] := by
    intro hnil
    rw [← Array.length_toList, hnil] at h
    exact absurd h (Nat.lt_irrefl 0)
  apply Array.ext'
  rw [Array.toList_push, toList_place, toList_place, d.scope_push, Array.toList_push,
    tail_append_of_ne_nil hne, append_assoc]

end Environs

/-! ### Actions that can be placed -/

namespace Reading

variable {α β : Type} {r : Environs} {f : Nat → Nat} {inside : Prop} {g : α → α} {h : β → β}

/-- What an action does on its own, another one does among others: it gives
the same result, renumbered by `g`, and the same declarations, placed.  It may
ask for a list of statements around it. -/
def Places (r : Environs) (f : Nat → Nat) (inside : Prop) (g : α → α) (x x' : Reading α) :
    Prop :=
  ∀ d : Declarations, d.Entered → (inside → d.functions ≠ []) →
    (∀ a d', x.run d = .ok a d' → d.Keeps d' ∧
      (r.Fits f d'.scopes.size → x'.run (r.place f d) = .ok (g a) (r.place f d'))) ∧
    ∀ fault d', x.run d = .error fault d' → (∀ n, r.Fits f n) →
      ∃ e, x'.run (r.place f d) = .error fault e

namespace Places

theorem pure (a : α) : Places r f inside g (Pure.pure a) (Pure.pure (g a)) := by
  intro d _ _
  constructor
  · intro a' d' hrun
    cases hrun
    exact ⟨.refl d, fun _ => rfl⟩
  · intro fault d' hrun
    cases hrun

theorem throw (fault : Fault) : Places r f inside g (throw fault) (throw fault) := by
  intro d _ _
  constructor
  · intro a d' hrun
    cases hrun
  · intro fault' d' hrun _
    cases hrun
    exact ⟨_, rfl⟩

theorem bind {x x' : Reading α} {k k' : α → Reading β} (hx : Places r f inside g x x')
    (hk : ∀ a, Places r f inside h (k a) (k' (g a))) :
    Places r f inside h (x >>= k) (x' >>= k') := by
  intro d hd hinside
  obtain ⟨hok, herror⟩ := hx d hd hinside
  constructor
  · intro b d'' hrun
    obtain ⟨a, d', hxrun, hkrun⟩ := ok_of_run_bind hrun
    obtain ⟨hkeeps, hplaced⟩ := hok a d' hxrun
    obtain ⟨hkeeps', hplaced'⟩ := (hk a d' (hkeeps.entered hd)
      fun hin => hkeeps.inside (hinside hin)).1 b d'' hkrun
    refine ⟨hkeeps.trans hkeeps', fun hfits => ?_⟩
    rw [run_bind, hplaced (hfits.mono hkeeps'.scopes)]
    exact hplaced' hfits
  · intro fault d'' hrun hfits
    rw [run_bind] at hrun ⊢
    cases hxrun : x.run d with
    | error fault' d' =>
      rw [hxrun] at hrun
      cases hrun
      obtain ⟨e, he⟩ := herror fault d'' hxrun hfits
      exact ⟨e, by rw [he]⟩
    | ok a d' =>
      rw [hxrun] at hrun
      obtain ⟨hkeeps, hplaced⟩ := hok a d' hxrun
      rw [hplaced (hfits _)]
      exact (hk a d' (hkeeps.entered hd) fun hin => hkeeps.inside (hinside hin)).2 fault d'' hrun
        hfits

theorem imp {outer : Prop} {x x' : Reading α} (hx : Places r f inside g x x')
    (himp : inside → outer) : Places r f outer g x x' :=
  fun d hd houter => hx d hd fun hin => houter (himp hin)

theorem ofExcept (x : Except Fault α) :
    Places r f inside id (MonadExcept.ofExcept x) (MonadExcept.ofExcept x) := by
  cases x with
  | error fault => exact throw fault
  | ok a => exact pure a

end Places

theorem Places.declare (act : Scope → α × Scope) :
    Places r f inside id (declare act) (declare act) := by
  intro d hd _
  obtain ⟨id, rest, hopened⟩ := exists_cons_of_ne_nil hd.opened
  have hid : id < d.scopes.size := hd.lt id (by rw [hopened]; exact mem_cons_self)
  rw [run_declare_of_opened hopened]
  constructor
  · intro a d' hrun
    cases hrun
    refine ⟨⟨rfl, by simp, rfl⟩, fun hfits => ?_⟩
    have hnumber : f id = r.number id := hfits id (by simpa using hid)
    have hplaced : (r.place f d).opened = r.number id :: (rest.map f ++ r.opened) := by
      rw [Environs.place, hopened, map_cons, hnumber, cons_append]
    rw [run_declare_of_opened hplaced, Environs.scope_place hid, Environs.place_set hid]
    rfl
  · intro fault d' hrun
    cases hrun

/-! ### Rules -/

section

open Node (rescoped rescopedAll)

variable {parts : List Part}

theorem places_variable (name : String) :
    Places r f inside (rescoped f) (readVariable name) (readVariable name) :=
  .bind (.declare _) fun slot => .pure (Node.variable name slot)

theorem places_constantText (text : String) :
    Places r f inside (rescoped f) (constantText text) (constantText text) :=
  .bind (.declare _) fun place => .pure (Node.constantText text place)

theorem places_number (own : String) (parts : List Part) :
    Places r f inside (rescoped f) (readNumber own parts) (readNumber own parts) := by
  have hfloat : ∀ x, Places r f inside (rescoped f)
      (do return .constantFloat x (← declare (·.addFloat x)))
      (do return .constantFloat x (← declare (·.addFloat x))) := fun x =>
    .bind (.declare _) fun place => .pure (Node.constantFloat x place)
  unfold readNumber
  dsimp only
  split
  · exact .bind (.declare _) fun place => .pure (Node.constantInt _ place)
  · exact hfloat _
  · split
    · exact hfloat _
    · exact .throw _

theorem places_pieces (done : List (Option String)) (filled : List Node)
    (pieces : List (List Char)) :
    Places r f inside (fun result => (result.1, rescopedAll f result.2))
      (readPieces done filled pieces) (readPieces done (rescopedAll f filled) pieces) := by
  induction pieces generalizing done filled with
  | nil => exact .pure (done, filled)
  | cons piece pieces ih =>
    unfold readPieces
    split
    · exact ih done filled
    · split
      · split
        · refine .bind (places_variable _) fun part => ?_
          have happend : rescopedAll f (filled ++ [part])
              = rescopedAll f filled ++ [part.rescoped f] := by
            simp only [Node.rescopedAll_eq_map, map_append, map_cons, map_nil]
          rw [← happend]
          exact ih _ _
        · exact .throw _
      · exact ih _ _

theorem places_text (literal : String) :
    Places r f inside (rescoped f) (readText literal) (readText literal) := by
  refine .bind (.ofExcept _) fun (quoted, quoting) => .bind (.ofExcept _) fun cs => ?_
  cases quoting with
  | single => exact places_constantText _
  | double =>
    refine .bind (places_pieces [] [] _) fun (pieces, parts) => ?_
    have hempty : (rescopedAll f parts).isEmpty = parts.isEmpty := by cases parts <;> rfl
    dsimp only
    rw [hempty]
    split
    · exact places_constantText _
    · exact .bind (.declare _) fun place => .pure (Node.interpolation _ parts place)

/-- What is read on its own is read among others. -/
def placing (r : Environs) (f : Nat → Nat) (inside : Prop) : Discipline where
  renumber := f
  Good _ _ := True
  Does g _ x x' := Places r f inside g x x'
  pure a _ := .pure a
  throw := .throw
  bind := .bind
  imp h _ := h
  global _ := .declare _
  parameter _ _ := .declare _
  variable_ := places_variable
  number := places_number
  text := places_text
  good _ _ := trivial
  part _ _ := trivial
  assigned _ _ := trivial

@[simp]
theorem renumber_placing : (placing r f inside).renumber = f := rfl

theorem run_sourceElements (parts : List Part) (d : Declarations) :
    (readSourceElements parts).run d
      = match (readStatements parts).run { d with functions := [] :: d.functions } with
        | .ok nodes e => .ok (.sourceElements (e.functions.headD []) nodes)
            { e with functions := e.functions.drop 1 }
        | .error fault e => .error fault e := by
  rw [readSourceElements, run_bind]
  change (readStatements parts >>= _).run _ = _
  rw [run_bind]
  cases (readStatements parts).run _ <;> rfl

theorem places_sourceElements (hparts : ∀ p ∈ parts, (placing r f True).Obeys p.read) :
    (placing r f inside).Obeys (readSourceElements parts) := by
  intro d hd _
  obtain ⟨hok, herror⟩ := Discipline.does_statements hparts { d with functions := [] :: d.functions }
    ⟨hd.opened, hd.lt⟩ (fun _ => cons_ne_nil _ _)
  have hplace : { r.place f d with functions := [] :: (r.place f d).functions }
      = r.place f { d with functions := [] :: d.functions } := rfl
  rw [run_sourceElements, run_sourceElements, hplace]
  constructor
  · intro a d' hrun
    split at hrun
    case h_2 => cases hrun
    case h_1 nodes e hnodes =>
      cases hrun
      obtain ⟨hkeeps, hplaced⟩ := hok nodes e hnodes
      obtain ⟨own, outer, hfunctions⟩ := exists_cons_of_ne_nil
        (hkeeps.inside (cons_ne_nil _ _))
      refine ⟨⟨hkeeps.opened, hkeeps.scopes, ?_⟩, fun hfits => ?_⟩
      · have hlength := hkeeps.functions
        rw [hfunctions] at hlength ⊢
        exact Nat.succ.inj hlength
      · rw [hplaced hfits]
        simp [Environs.place, hfunctions, rescoped, Declarations.scope]
  · intro fault d' hrun hfits
    split at hrun
    case h_1 => cases hrun
    case h_2 fault e hnodes =>
      cases hrun
      obtain ⟨e', he'⟩ := herror fault d' hnodes hfits
      exact ⟨e', by rw [he']⟩

theorem orReturn_rescoped (body : Node) :
    orReturn (body.rescoped f) = (orReturn body).rescoped f := by
  cases body <;> rfl

theorem insertFunction_rescoped (name : String) (node : Node) (nodes : List Node) :
    insertFunction name (node.rescoped f) (rescopedAll f nodes)
      = rescopedAll f (insertFunction name node nodes) := by
  induction nodes with
  | nil => rfl
  | cons other nodes ih =>
    cases other with
    | function name' body scope =>
      simp only [rescopedAll, rescoped, insertFunction]
      split
      · rfl
      · rw [ih]
        rfl
    | _ => simp only [rescopedAll, rescoped, insertFunction, ih]

theorem places_definition (hparts : ∀ p ∈ parts, (placing r f inside).Obeys p.read) :
    Places r f inside (fun definition => (definition.1.rescoped f, definition.2.rescoped f))
      (readDefinition parts) (readDefinition parts) :=
  Discipline.does_definition hparts

theorem place_entered {d : Declarations} (hd : d.Entered)
    (hsize : f d.scopes.size = r.number d.scopes.size) :
    entered (r.place f d) = r.place f (entered d) := by
  have hscopes := Environs.place_push (r := r) (f := f) hd.pos (d.scopes.size :: d.opened)
  have hopened : (r.place f d).scopes.size :: (r.place f d).opened
      = (r.place f (entered d)).opened := by
    rw [Environs.size_place hd.pos, ← hsize]
    rfl
  rw [entered, ← hscopes, hopened]
  rfl

theorem Entered.entered {d : Declarations} (hd : d.Entered) : (entered d).Entered where
  opened := cons_ne_nil _ _
  lt id hid := by
    have hsize : (Reading.entered d).scopes.size = d.scopes.size + 1 := Array.size_push _
    rcases mem_cons.1 hid with rfl | hid
    · omega
    · have := hd.lt id hid
      omega

theorem places_function (hparts : ∀ p ∈ parts, (placing r f False).Obeys p.read) :
    (placing r f True).Obeys (readFunction parts) := by
  intro d hd hinside
  obtain ⟨hok, herror⟩ := places_definition hparts (entered d) (Entered.entered hd) False.elim
  rw [run_readFunction, run_readFunction, run_bind]
  cases hdefinition : (readDefinition parts).run (entered d) with
  | error fault e =>
    constructor
    · intro a d' hnone
      cases hnone
    · intro fault' d' herr hfits
      cases herr
      obtain ⟨e', he'⟩ := herror fault e hdefinition hfits
      exact ⟨e', by rw [place_entered hd (hfits _ _ (Nat.lt_succ_self _)), run_bind, he']⟩
  | ok definition e =>
    obtain ⟨hkeeps, hplaced⟩ := hok definition e hdefinition
    have hopened : e.opened = d.scopes.size :: d.opened := hkeeps.opened
    have hsize : d.scopes.size < e.scopes.size := by
      have hle := hkeeps.scopes
      rwa [entered, Array.size_push] at hle
    obtain ⟨innermost, outer, hfunctions⟩ := exists_cons_of_ne_nil
      (hkeeps.inside (hinside trivial))
    -- The function gets the number of its scope among the others.
    have hclose : r.Fits f e.scopes.size →
        (readDefinition parts >>= closeFunction).run (entered (r.place f d))
          = definition.1.literal?.elim
            (.error .noOperation { r.place f e with opened := (r.place f d).opened })
            fun name => .ok .absent (r.place f { e with
              opened := d.opened
              functions := insertFunction name
                (.function name (orReturn definition.2) d.scopes.size) innermost :: outer }) := by
      intro hfits
      have hopened' : (r.place f e).opened = f d.scopes.size :: (r.place f d).opened := by
        rw [Environs.place, hopened]
        rfl
      have hfunctions' : (r.place f e).functions
          = rescopedAll f innermost :: (outer.map (rescopedAll f) ++ r.functions) := by
        rw [Environs.place, hfunctions]
        rfl
      rw [place_entered hd (hfits _ hsize), run_bind, hplaced hfits]
      dsimp only
      rw [run_closeFunction hopened' hfunctions', Node.literal?_rescoped, orReturn_rescoped]
      cases definition.1.literal? with
      | none => rfl
      | some name =>
        have hinsert := insertFunction_rescoped (f := f) name
          (.function name (orReturn definition.2) d.scopes.size) innermost
        rw [rescoped] at hinsert
        dsimp only
        rw [hinsert]
        rfl
    dsimp only
    rw [run_closeFunction hopened hfunctions]
    cases hname : definition.1.literal? with
    | none =>
      constructor
      · intro a d' hnone
        cases hnone
      · intro fault d' herr hfits
        cases herr
        rw [hclose (hfits _), hname]
        exact ⟨_, rfl⟩
    | some name =>
      constructor
      · intro a d' hsome
        cases hsome
        refine ⟨⟨rfl, Nat.le_of_lt hsize, ?_⟩, fun hfits => by rw [hclose hfits, hname]; rfl⟩
        have hlength := hkeeps.functions
        rw [hfunctions] at hlength
        exact hlength
      · intro fault d' hnone
        cases hnone

end

end Reading

/-! ### Trees -/

/-- Among children of a symbol, functions stand in lists of statements only, and
such lists in functions. -/
def Tree.StandsIn (parent : String) (tree : Tree) : Prop :=
  (tree.symbol = "functiondeclaration" → parent = "sourceelements") ∧
    (tree.symbol = "sourceelements" → parent = "functiondeclaration")

instance (parent : String) (tree : Tree) : Decidable (tree.StandsIn parent) :=
  inferInstanceAs (Decidable (_ ∧ _))

mutual

/-- A tree below the root: there is no `main` in it, and functions and lists of
statements stand where they may. -/
def Tree.orderly : Tree → Bool
  | .leaf symbol _ => symbol != "main"
  | .branch symbol children => symbol != "main" && Tree.allOrderly symbol children

def Tree.allOrderly (parent : String) : List Tree → Bool
  | [] => true
  | tree :: trees => decide (tree.StandsIn parent) && tree.orderly && Tree.allOrderly parent trees

end

theorem Tree.allOrderly_iff {parent : String} {trees : List Tree} :
    Tree.allOrderly parent trees = true ↔ ∀ tree ∈ trees, tree.StandsIn parent ∧ tree.orderly := by
  induction trees with
  | nil => simp [Tree.allOrderly]
  | cons tree trees ih => simp [Tree.allOrderly, ih]

mutual

theorem Tree.avoids_main : (tree : Tree) → tree.orderly → tree.avoids "main"
  | .leaf _ _, h => h
  | .branch symbol children, h => by
    rw [orderly, Bool.and_eq_true] at h
    rw [avoids, h.1, allAvoid_main symbol children h.2]
    rfl

theorem Tree.allAvoid_main (parent : String) : (trees : List Tree) → allOrderly parent trees →
    allAvoid "main" trees
  | [], _ => rfl
  | tree :: trees, h => by
    rw [allOrderly, Bool.and_eq_true, Bool.and_eq_true] at h
    rw [allAvoid, avoids_main tree h.1.2, allAvoid_main parent trees h.2]
    rfl

end

inductive Part.Portable (r : Environs) (f : Nat → Nat) : Part → Prop
  | mk {tree : Tree} {read : Reading Node} {children : List Part}
      (read_places : (Reading.placing r f (tree.symbol = "functiondeclaration")).Obeys read)
      (stands : ∀ p ∈ children, p.tree.StandsIn tree.symbol)
      (portable : ∀ p ∈ children, Portable r f p) : Portable r f (.mk tree read children)

namespace Part.Portable

variable {r : Environs} {f : Nat → Nat} {p : Part}

theorem places (h : p.Portable r f) :
    (Reading.placing r f (p.tree.symbol = "functiondeclaration")).Obeys p.read := by
  obtain ⟨hread, -, -⟩ := h
  exact hread

theorem children_places (h : p.Portable r f) (hlist : p.tree.symbol ≠ "sourceelements") :
    ∀ q ∈ p.children, (Reading.placing r f False).Obeys q.read := by
  obtain ⟨-, hstands, hchildren⟩ := h
  intro q hq
  exact Reading.Places.imp (hchildren q hq).places fun hfunction => hlist ((hstands q hq).1 hfunction)

theorem of_children {tree : Tree} {parts : List Part} (hmain : tree.symbol ≠ "main")
    (hstands : ∀ p ∈ parts, p.tree.StandsIn tree.symbol)
    (hparts : ∀ p ∈ parts, p.Portable r f) :
    (Part.mk tree (Reading.rule tree parts) parts).Portable r f := by
  refine .mk ?_ hstands hparts
  by_cases hlist : tree.symbol = "sourceelements"
  · have hrule : Reading.rule tree parts = Reading.readSourceElements parts := by
      rw [Reading.rule, hlist]
      rfl
    rw [hrule]
    exact Reading.places_sourceElements fun p hp => Reading.Places.imp (hparts p hp).places fun _ => trivial
  have hchildren : ∀ p ∈ parts, (Reading.placing r f False).Obeys p.read :=
    fun p hp => Reading.Places.imp (hparts p hp).places fun hfunction => hlist ((hstands p hp).1 hfunction)
  by_cases hfunction : tree.symbol = "functiondeclaration"
  · have hrule : Reading.rule tree parts = Reading.readFunction parts := by
      rw [Reading.rule, hfunction]
      rfl
    rw [hrule]
    exact Reading.Places.imp (Reading.places_function hchildren) fun _ => hfunction
  · have hbelow : ∀ p ∈ parts, ∀ q ∈ p.children, (Reading.placing r f False).Obeys q.read :=
      fun p hp => (hparts p hp).children_places fun hsource => hfunction ((hstands p hp).2 hsource)
    exact Reading.Places.imp
      (Reading.Discipline.obeys_rule hchildren hmain hlist hfunction hbelow) False.elim

end Part.Portable

mutual

/-- What is read of an orderly tree is the same wherever it stands. -/
theorem Tree.portable (r : Environs) (f : Nat → Nat) :
    (tree : Tree) → tree.orderly → (Part.ofTree tree).Portable r f
  | .leaf symbol text, h => .of_children (by simpa [orderly, Tree.symbol] using h) nofun nofun
  | .branch symbol children, h => by
    rw [orderly, Bool.and_eq_true] at h
    have hchildren := Tree.allPortable r f symbol children h.2
    exact .of_children (by simpa [Tree.symbol] using h.1) (fun p hp => (hchildren p hp).1)
      fun p hp => (hchildren p hp).2

theorem Tree.allPortable (r : Environs) (f : Nat → Nat) (parent : String) :
    (trees : List Tree) → Tree.allOrderly parent trees →
    ∀ p ∈ Part.ofTrees trees, p.tree.StandsIn parent ∧ p.Portable r f
  | [], _ => nofun
  | tree :: trees, h => by
    rw [allOrderly, Bool.and_eq_true, Bool.and_eq_true, decide_eq_true_eq] at h
    refine forall_mem_cons.2 ⟨⟨?_, Tree.portable r f tree h.1.2⟩,
      Tree.allPortable r f parent trees h.2⟩
    rw [Part.tree_ofTree]
    exact h.1.1

end

end PageScript
