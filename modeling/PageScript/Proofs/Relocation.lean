/-
Worlds on top of other worlds.

A program that runs after another one finds the pools as that one left them.  `Store.atop`
puts the pools of a store behind those of another one, where everything has a greater number
(`Renumbering.behind`).  `Machine.atop` puts a machine into a world where something ran
already.  That a program does not notice is said by `Transport.step`, as this is a transport
(`Transport.behind`).
-/
import PageScript.Proofs.Transport

namespace PageScript

open Store Entries

/-! ### Stores -/

/-- The numbers behind those of a store. -/
def Renumbering.behind (base : Store) : Renumbering where
  list id := base.lists.size + id
  dict id := base.dicts.size + id
  ref id := base.refs.size + id
  builder id := base.builders.size + id
  cursor id := base.cursors.size + id
  code id := base.codes.size + id

/-- A store whose pools follow those of another one. -/
def Store.atop (s base : Store) : Store where
  lists := base.lists ++ s.lists.map (·.map (·.renumbered (.behind base)))
  dicts := base.dicts ++ s.dicts.map (·.renumbered (.behind base))
  refs := base.refs ++ s.refs.map (·.map (·.renumbered (.behind base)))
  builders := base.builders ++ s.builders
  cursors := base.cursors ++ s.cursors.map (·.renumbered (.behind base))
  codes := base.codes ++ s.codes

theorem getD_append_size_add {α : Type} (xs ys : Array α) (i : Nat) (d : α) :
    (xs ++ ys).getD (xs.size + i) d = ys.getD i d := by
  rw [Array.getD_eq_getD_getElem?, Array.getElem?_append_right (Nat.le_add_right _ _),
    Nat.add_sub_cancel_left, Array.getD_eq_getD_getElem?]

theorem getD_append_map {α : Type} (xs ys : Array α) (f : α → α) (i : Nat) (d : α) :
    (xs ++ ys.map f).getD (xs.size + i) (f d) = f (ys.getD i d) := by
  rw [getD_append_size_add, getD_map]

/-- What is read off a store, put into it or changed in it is the same behind another
store, but for the numbers. -/
def Transfer.behind (base : Store) : Transfer (.behind base) where
  store s := s.atop base
  list s id := by
    have hlist := getD_append_map base.lists s.lists (Array.map (·.renumbered (.behind base))) id #[]
    rwa [Array.map_empty] at hlist
  dict s id := getD_append_map base.dicts s.dicts (Entries.renumbered _) id []
  ref s id := getD_append_map base.refs s.refs (Option.map (·.renumbered _)) id none
  builder s id := getD_append_size_add base.builders s.builders id _
  cursor s id := by
    have hsize : (s.atop base).dicts.size = base.dicts.size + s.dicts.size := by simp [atop]
    rw [Store.cursor, hsize]
    exact getD_append_map base.cursors s.cursors (·.renumbered _) id ⟨s.dicts.size, [], 0, 0⟩
  code s id := getD_append_size_add base.codes s.codes id _
  newList s items := by simp [Store.newList, atop, Value.renumbered, Renumbering.behind]
  newDict s entries := by simp [Store.newDict, atop, Value.renumbered, Renumbering.behind]
  newRef s v := by simp [Store.newRef, atop, Value.renumbered, Renumbering.behind]
  newEmptyRef s := by simp [Store.newEmptyRef, atop, Value.renumbered, Renumbering.behind]
  newConcat s t := by simp [Store.newConcat, atop, Value.renumbered, Renumbering.behind]
  newCursor s c := by simp [Store.newCursor, atop, Value.renumbered, Renumbering.behind]
  setList s id items := by simp [Store.setList, atop, Renumbering.behind]
  setDict s id entries := by simp [Store.setDict, atop, Renumbering.behind]
  setRef s id v := by simp [Store.setRef, atop, Renumbering.behind]
  appendTo s id t := by
    have hbuilder : (s.atop base).builder (base.builders.size + id) = s.builder id :=
      getD_append_size_add base.builders s.builders id _
    show (s.atop base).appendTo (base.builders.size + id) t = _
    rw [Store.appendTo, hbuilder]
    simp [Store.appendTo, atop]
  setCursor s id c := by simp [Store.setCursor, atop, Renumbering.behind]
  lists_le s := by simp [atop]
  dicts_le s := by simp [atop]
  refs_le s := by simp [atop]

/-! ### Machines -/

/-- The same for worlds.  Named constants and what is written come behind those that are
there, but functions do not: every interpreter has its own. -/
def Transport.behind (w : World) : Transport (.behind w.store) where
  toTransfer := .behind w.store
  constants es := w.constants ++ es.renumbered (.behind w.store)
  written text := w.written ++ text
  written_append _ _ := String.append_assoc.symm
  functions es := es.renumbered (.behind w.store)
  functions_get? _ _ := get?_renumbered
  Ready _ _ := True
  newCode s _ b _ := by simp [Store.newCode, Transfer.behind, atop, Value.renumbered, Renumbering.behind]
  functions_cons _ _ _ _ _ := rfl

/-- A world behind one that was used before. -/
def World.atop (u w : World) : World := (Transport.behind w).world u

/-- An interpreter in a world that was used before. -/
def Interpreter.atop (i : Interpreter) (w : World) : Interpreter := (Transport.behind w).interpreter i

/-- A machine in a world that was used before. -/
def Machine.atop (m : Machine) (w : World) : Machine := (Transport.behind w).machine m

end PageScript
