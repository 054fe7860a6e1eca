/-
What is set aside in a store.

A loop over an array has an iteration that nothing else knows of, and a loop over a list a
copy of the list.  Both stay as they are while other code runs, as an operation reaches them
only through a value that stands for them.  A `Reserve` says what is set aside,
`Reserve.Free` which values do not stand for it, and `Reserve.Stores` that a store keeps it;
its regime is bound to the stores that grow into a last one (`Reserve.complete_regime`).
-/
import PageScript.Proofs.Compliance
import PageScript.Proofs.Copies
import PageScript.Proofs.Places

namespace PageScript

open Store

/-- What is set aside, and what it is to be like. -/
structure Reserve where
  /-- The iterations that no value stands for. -/
  cursor? : Nat → Option Cursor := fun _ => none
  /-- The dictionaries that no value stands for. -/
  dict? : Nat → Option (Entries Value) := fun _ => none
  /-- The keys that a dictionary begins with. -/
  keys : Nat → List String := fun _ => []

/-- The second store has the dictionaries and iterations of the first, and
perhaps more. -/
structure Store.Grows (s t : Store) : Prop where
  dicts : s.dicts.size ≤ t.dicts.size
  cursors : s.cursors.size ≤ t.cursors.size

theorem Store.Grows.refl (s : Store) : s.Grows s := ⟨Nat.le_refl _, Nat.le_refl _⟩

theorem Store.cursor_of_lt {s t : Store} {id : Nat} (hid : id < s.cursors.size)
    (h : t.cursors[id]? = s.cursors[id]?) : t.cursor id = s.cursor id := by
  rw [cursor, cursor, Array.getD_eq_getD_getElem?, Array.getD_eq_getD_getElem?, h,
    Array.getElem?_eq_getElem hid]
  rfl

namespace Reserve

variable {r : Reserve} {s t u : Store} {v w key element : Value} {id : Nat}

/-- What the value stands for is there and is not set aside. -/
def Free (r : Reserve) (s : Store) : Value → Prop
  | .dict id => id < s.dicts.size ∧ r.dict? id = none
  | .cursor id => id < s.cursors.size ∧ r.cursor? id = none
  | _ => True

theorem Free.grows (h : r.Free s v) (hst : s.Grows t) : r.Free t v := by
  cases v with
  | dict id => exact ⟨Nat.lt_of_lt_of_le h.1 hst.dicts, h.2⟩
  | cursor id => exact ⟨Nat.lt_of_lt_of_le h.1 hst.cursors, h.2⟩
  | _ => trivial

theorem Free.of_isLiteral (h : v.isLiteral) : r.Free s v := by
  cases v with
  | dict | cursor => cases h
  | _ => trivial

/-- A store has what is set aside, as it is to be, and none of its values stands
for it. -/
structure Stores (r : Reserve) (s : Store) : Prop where
  cells : ∀ {id v}, s.ref id = some v → r.Free s v
  items : ∀ {id v}, v ∈ s.list id → r.Free s v
  entries : ∀ {id e}, e ∈ s.dict id → r.Free s e.2
  cursor : ∀ {id c}, r.cursor? id = some c → id < s.cursors.size ∧ s.cursor id = c
  dict : ∀ {id es}, r.dict? id = some es → id < s.dicts.size ∧ s.dict id = es
  keys : ∀ id, r.keys id <+: (s.dict id).keys

/-- A store has what is set aside, as it is to be. -/
structure Kept (r : Reserve) (s : Store) : Prop where
  cursor : ∀ {id c}, r.cursor? id = some c → id < s.cursors.size ∧ s.cursor id = c
  dict : ∀ {id es}, r.dict? id = some es → id < s.dicts.size ∧ s.dict id = es
  keys : ∀ id, r.keys id <+: (s.dict id).keys

theorem Stores.kept (h : r.Stores s) : r.Kept s := ⟨h.cursor, h.dict, h.keys⟩

theorem Stores.listEntries {e : String × Value} (h : r.Stores s)
    (he : e ∈ listEntries (s.list id)) : r.Free s e.2 :=
  h.items (mem_listEntries he)

namespace Kept

theorem cursor_congr (h : r.Kept s) (ht : t.cursors = s.cursors) {c : Cursor}
    (hc : r.cursor? id = some c) : id < t.cursors.size ∧ t.cursor id = c := by
  obtain ⟨hid, hcursor⟩ := h.cursor hc
  exact ⟨ht ▸ hid, (cursor_of_lt hid (by rw [ht])).trans hcursor⟩

theorem newDict (h : r.Kept s) (es : Entries Value) : r.Kept (s.newDict es).2 where
  cursor hc := h.cursor_congr (t := (s.newDict es).2) rfl hc
  dict hes := by
    obtain ⟨hid, hdict⟩ := h.dict hes
    exact ⟨by simp [Store.newDict]; omega, (Store.getD_push_of_lt hid ..).trans hdict⟩
  keys id := by
    refine (h.keys id).trans ?_
    by_cases hid : id < s.dicts.size
    · rw [show (s.newDict es).2.dict id = s.dict id from getD_push_of_lt hid ..]
    · -- There is nothing yet where the new dictionary goes.
      have hnone : s.dict id = [] := by simp [Store.dict, Array.getD_eq_getD_getElem?, hid]
      rw [hnone]
      exact List.nil_prefix

theorem setDict {es : Entries Value} (h : r.Kept s) (hid : r.dict? id = none)
    (hkeys : (s.dict id).keys <+: es.keys) : r.Kept (s.setDict id es) where
  cursor hc := h.cursor_congr (t := s.setDict id es) rfl hc
  dict {i es'} hes := by
    obtain ⟨hi, hdict⟩ := h.dict hes
    refine ⟨by simpa [Store.setDict] using hi, (Store.getD_setIfInBounds_of_ne ?_ ..).trans hdict⟩
    rintro rfl
    rw [hid] at hes
    cases hes
  keys i := by
    refine (h.keys i).trans ?_
    by_cases hi : id = i
    · subst hi
      by_cases hlt : id < s.dicts.size
      · simpa [Store.dict, Store.setDict, hlt] using hkeys
      · simp [Store.dict, Store.setDict, hlt]
    · rw [show (s.setDict id es).dict i = s.dict i from getD_setIfInBounds_of_ne hi ..]

theorem newCursor (h : r.Kept s) (c : Cursor) : r.Kept (s.newCursor c).2 where
  cursor hc := by
    obtain ⟨hid, hcursor⟩ := h.cursor hc
    refine ⟨by simp [Store.newCursor]; omega, (Store.cursor_of_lt hid ?_).trans hcursor⟩
    simp [Store.newCursor, Array.getElem?_push, Nat.ne_of_lt hid]
  dict hes := h.dict hes
  keys := h.keys

theorem setCursor (h : r.Kept s) (hid : r.cursor? id = none) (c : Cursor) :
    r.Kept (s.setCursor id c) where
  cursor {i _} hc := by
    obtain ⟨hi, hcursor⟩ := h.cursor hc
    have hne : id ≠ i := by
      rintro rfl
      rw [hid] at hc
      cases hc
    exact ⟨by simpa [Store.setCursor] using hi,
      (cursor_of_lt hi (Array.getElem?_setIfInBounds_ne hne)).trans hcursor⟩
  dict hes := h.dict hes
  keys := h.keys

theorem dict?_size (h : r.Kept s) : r.dict? s.dicts.size = none := by
  cases hes : r.dict? s.dicts.size with
  | none => rfl
  | some es => exact absurd (h.dict hes).1 (Nat.lt_irrefl _)

theorem cursor?_size (h : r.Kept s) : r.cursor? s.cursors.size = none := by
  cases hc : r.cursor? s.cursors.size with
  | none => rfl
  | some c => exact absurd (h.cursor hc).1 (Nat.lt_irrefl _)

end Kept

/-! ### The regime -/

/-- A store keeps what is set aside, and its values do not stand for it in the
last store that it grows into. -/
structure Bears (r : Reserve) (last s : Store) : Prop where
  cells : ∀ {id v}, s.ref id = some v → r.Free last v
  items : ∀ {id v}, v ∈ s.list id → r.Free last v
  entries : ∀ {id e}, e ∈ s.dict id → r.Free last e.2
  kept : r.Kept s
  codes : ∀ code ∈ s.codes, code.IsResolved

variable {last : Store}

theorem Stores.bears (h : r.Stores s) (hgrows : s.Grows last)
    (hcodes : ∀ code ∈ s.codes, code.IsResolved) : r.Bears last s where
  cells hv := (h.cells hv).grows hgrows
  items hv := (h.items hv).grows hgrows
  entries he := (h.entries he).grows hgrows
  kept := h.kept
  codes := hcodes

theorem Bears.stores (h : r.Bears s s) : r.Stores s :=
  ⟨h.cells, h.items, h.entries, h.kept.cursor, h.kept.dict, h.kept.keys⟩

theorem Bears.change (h : r.Bears last s)
    (hcells : ∀ {id v}, t.ref id = some v → s.ref id = some v ∨ r.Free last v)
    (hitems : ∀ {id v}, v ∈ t.list id → v ∈ s.list id ∨ r.Free last v)
    (hentries : ∀ {id e}, e ∈ t.dict id → e ∈ s.dict id ∨ r.Free last e.2) (hkept : r.Kept t)
    (hcodes : ∀ code ∈ t.codes, code ∈ s.codes ∨ code.IsResolved) : r.Bears last t where
  cells hv := (hcells hv).elim h.cells id
  items hv := (hitems hv).elim h.items id
  entries he := (hentries he).elim h.entries id
  kept := hkept
  codes code hcode := (hcodes code hcode).elim (h.codes code) id

/-- Nothing gets at what is set aside, as long as stores grow into the last one. -/
def regime (r : Reserve) (last : Store) : Regime where
  Stores := r.Bears last
  within s := s.Grows last
  storable := r.Free last
  iterable := r.Free last
  reachable _ := True
  codes := Bytecode.IsResolved
  tables := True

theorem free_of_allows {k : Kind} (h : (r.regime last).Allows k v) : r.Free last v := by
  cases k with
  | plain | iteration => exact h
  | reference =>
    rcases h with h | ⟨id, rfl, -⟩
    · exact h
    · trivial

theorem complete_regime (r : Reserve) (last : Store) : (r.regime last).Complete where
  inert {v} hv := by
    cases v with
    | dict | cursor => cases hv
    | _ => trivial
  iterable h := h
  refs _ := trivial
  cell hs _ hv := hs.cells hv
  element {s v e} hs _ he := by
    cases v with
    | list => exact hs.items (mem_listEntries he)
    | dict => exact hs.entries he
    | _ => cases he
  setCell hlast := by
    refine ⟨⟨hlast.dicts, hlast.cursors⟩, fun hs h => ⟨hs.change (fun hw => ?_) .inl .inl
      ⟨hs.kept.cursor, hs.kept.dict, hs.kept.keys⟩ fun _ => .inl, trivial⟩⟩
    exact (ref_of_setRef hw).imp_right (by rintro rfl; exact h.2)
  newList hlast := ⟨⟨hlast.dicts, hlast.cursors⟩, fun hs h => ⟨hs.change .inl
    (fun hv => (of_mem_newList hv).imp_right (h _)) .inl
    ⟨hs.kept.cursor, hs.kept.dict, hs.kept.keys⟩ fun _ => .inl, trivial⟩⟩
  setList hlast := ⟨⟨hlast.dicts, hlast.cursors⟩, fun hs h => ⟨hs.change .inl
    (fun hv => (of_mem_setList hv).imp_right (h.2 _)) .inl
    ⟨hs.kept.cursor, hs.kept.dict, hs.kept.keys⟩ fun _ => .inl, trivial⟩⟩
  newDict {s es} hlast := by
    have hsize : s.dicts.size < last.dicts.size :=
      Nat.lt_of_lt_of_le (by simp [newDict]) hlast.dicts
    exact ⟨⟨hsize.le, hlast.cursors⟩, fun hs h => ⟨hs.change .inl .inl
      (fun he => (of_mem_newDict he).imp_right (h _)) (hs.kept.newDict es) fun _ => .inl,
      hsize, hs.kept.dict?_size⟩⟩
  setDict hkeys hlast := ⟨⟨by simpa [setDict] using hlast.dicts, hlast.cursors⟩, fun hs h =>
    ⟨hs.change .inl .inl (fun he => (of_mem_setDict he).imp_right (h.2 _))
      (hs.kept.setDict h.1.2 hkeys) fun _ => .inl, trivial⟩⟩
  tables := trivial
  cells hs := hs.cells
  entries hs := hs.entries
  known hs := hs.codes _
  newCell hlast := ⟨⟨hlast.dicts, hlast.cursors⟩, fun hs h => ⟨hs.change
    (fun hw => (ref_of_push hw).imp_right (h _)) .inl .inl
    ⟨hs.kept.cursor, hs.kept.dict, hs.kept.keys⟩ fun _ => .inl, trivial⟩⟩
  newCursor {s c} hlast := by
    have hsize : s.cursors.size < last.cursors.size :=
      Nat.lt_of_lt_of_le (by simp [newCursor]) hlast.cursors
    exact ⟨⟨hlast.dicts, hsize.le⟩, fun hs _ => ⟨hs.change .inl .inl .inl (hs.kept.newCursor c)
      fun _ => .inl, hsize, hs.kept.cursor?_size⟩⟩
  setCursor {s id c} hlast := ⟨⟨hlast.dicts, by simpa [setCursor] using hlast.cursors⟩, fun hs h =>
    ⟨hs.change .inl .inl .inl (hs.kept.setCursor h.2 c) fun _ => .inl, trivial⟩⟩
  newCode hlast := ⟨⟨hlast.dicts, hlast.cursors⟩, fun hs h => ⟨hs.change .inl .inl .inl
    ⟨hs.kept.cursor, hs.kept.dict, hs.kept.keys⟩ fun _ hcode =>
      (Array.mem_push.1 hcode).imp_right (by rintro rfl; exact h), trivial⟩⟩
  copyRef _ _ := trivial
  copyCursor _ := trivial
  constants hcode hv := .of_isLiteral (hcode.literal hv)
  separate _ := .inl fun _ => trivial

theorem joins_regime (r : Reserve) (last : Store) : (r.regime last).Joins := by
  intro s t left right v hjoin hlast
  obtain ⟨_, _, _, rfl, rfl⟩ := ok_of_concatenate hjoin
  exact ⟨⟨hlast.dicts, hlast.cursors⟩, fun hs _ => ⟨hs.change .inl .inl .inl
    ⟨hs.kept.cursor, hs.kept.dict, hs.kept.keys⟩ fun _ => .inl, trivial⟩⟩

/-! ### Setting something aside -/

def withCursor (r : Reserve) (id : Nat) (c : Cursor) : Reserve :=
  { r with cursor? := fun i => if i = id then some c else r.cursor? i }

def withDict (r : Reserve) (id : Nat) (es : Entries Value) : Reserve :=
  { r with dict? := fun i => if i = id then some es else r.dict? i }

def withKeys (r : Reserve) (id : Nat) (ks : List String) : Reserve :=
  { r with keys := fun i => if i = id then ks else r.keys i }

variable {c c' : Cursor} {es : Entries Value} {ks : List String}

theorem Free.newCursor (h : r.Free s v) :
    (r.withCursor s.cursors.size c).Free (s.newCursor c).2 v := by
  cases v with
  | dict id => exact h
  | cursor id =>
    refine ⟨?_, (if_neg (Nat.ne_of_lt h.1)).trans h.2⟩
    rw [newCursor, Array.size_push]
    exact Nat.lt_succ_of_lt h.1
  | _ => trivial

theorem Free.newDict (h : r.Free s v) : (r.withDict s.dicts.size es).Free (s.newDict es).2 v := by
  cases v with
  | dict id =>
    refine ⟨?_, (if_neg (Nat.ne_of_lt h.1)).trans h.2⟩
    rw [newDict, Array.size_push]
    exact Nat.lt_succ_of_lt h.1
  | cursor id => exact h
  | _ => trivial

theorem Free.withKeys (h : r.Free s v) : (r.withKeys id ks).Free s v := by
  cases v <;> exact h

theorem Free.setCursor (h : (r.withCursor id c).Free s v) :
    (r.withCursor id c').Free (s.setCursor id c') v := by
  cases v with
  | dict i => exact h
  | cursor i =>
    refine ⟨?_, ?_⟩
    · rw [setCursor, Array.size_setIfInBounds]
      exact h.1
    · have hi := h.2
      simp only [withCursor] at hi ⊢
      split at hi
      · cases hi
      · rwa [if_neg ‹_›]
  | _ => trivial

namespace Stores

theorem withNewCursor (h : r.Stores s) :
    (r.withCursor s.cursors.size c).Stores (s.newCursor c).2 where
  cells hv := (h.cells hv).newCursor
  items hv := (h.items hv).newCursor
  entries he := (h.entries he).newCursor
  cursor {i c'} hc := by
    simp only [withCursor] at hc
    split at hc
    · subst i
      cases hc
      simp [Store.newCursor, Store.cursor]
    · exact (h.kept.newCursor c).cursor hc
  dict hes := h.dict hes
  keys := h.keys

theorem withNewDict (h : r.Stores s) (hes : ∀ e ∈ es, r.Free s e.2) :
    (r.withDict s.dicts.size es).Stores (s.newDict es).2 where
  cells hv := (h.cells hv).newDict
  items hv := (h.items hv).newDict
  entries {i e} he := by
    rcases of_mem_newDict he with he | he
    · exact (h.entries he).newDict
    · exact (hes e he).newDict
  cursor hc := (h.kept.newDict es).cursor hc
  dict {i es'} hes' := by
    simp only [withDict] at hes'
    split at hes'
    · subst i
      cases hes'
      simp [Store.newDict, Store.dict]
    · exact (h.kept.newDict es).dict hes'
  keys := (h.kept.newDict es).keys

theorem withKeys (h : r.Stores s) (hkeys : ks <+: (s.dict id).keys) :
    (r.withKeys id ks).Stores s where
  cells hv := (h.cells hv).withKeys
  items hv := (h.items hv).withKeys
  entries he := (h.entries he).withKeys
  cursor hc := h.cursor hc
  dict hes := h.dict hes
  keys i := by
    simp only [Reserve.withKeys]
    split
    · subst i
      exact hkeys
    · exact h.keys i

theorem moveCursor (h : (r.withCursor id c).Stores s) :
    (r.withCursor id c').Stores (s.setCursor id c') where
  cells hv := (h.cells hv).setCursor
  items hv := (h.items hv).setCursor
  entries he := (h.entries he).setCursor
  cursor {i c''} hc := by
    have hid : id < s.cursors.size := (h.cursor (if_pos rfl)).1
    simp only [withCursor] at hc
    split at hc
    · subst i
      cases hc
      simp [Store.setCursor, Store.cursor, hid]
    · rename_i hi
      -- Another iteration that is set aside stays where it was.
      obtain ⟨hlt, hold⟩ := h.cursor ((if_neg hi).trans hc)
      refine ⟨by simpa [setCursor] using hlt, ?_⟩
      rw [← hold]
      exact cursor_of_lt hlt (Array.getElem?_setIfInBounds_ne (Ne.symm hi))
  dict hes := h.dict hes
  keys := h.keys

end Stores

end Reserve

end PageScript
