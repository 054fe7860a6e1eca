/-
Which values are kept where.

A `Policy` says which values may be stored in cells, arrays and tables, which cells may be
reached through references, and what is to hold of the cells and of the texts under
construction.  A lawful policy is a regime that every instruction keeps to
(`Policy.Lawful.complete`).
-/
import PageScript.Proofs.Compliance

namespace PageScript

structure Policy where
  storable : Value → Prop
  reachable : Nat → Prop
  /-- What is to hold of the cells and of the texts under construction. -/
  pools : Array (Option Value) → Array String → Prop
  codes : Bytecode → Prop

namespace Policy

/-- A value that may be in the slot of a variable. -/
def Bindable (p : Policy) (v : Value) : Prop :=
  p.storable v ∨ ∃ id, v = .ref id ∧ p.reachable id

/-- What makes a policy one that every instruction keeps to. -/
structure Lawful (p : Policy) : Prop where
  plain : ∀ {v : Value}, v.isRef = false → v.isIteration = false → p.storable v
  copy : ∀ {s t : Store} {v w : Value}, p.storable v → s.copy v = .ok (w, t) → p.storable w
  refs : ∀ {id}, p.storable (.ref id) → p.reachable id
  newCell : ∀ {cells texts} (content : Option Value), p.pools cells texts →
    p.pools (cells.push content) texts ∧ p.reachable cells.size
  setCell : ∀ {cells texts id} (v : Value), p.pools cells texts → p.reachable id →
    p.pools (cells.setIfInBounds id (some v)) texts
  constants : ∀ {code v}, p.codes code → v ∈ code.constants → p.storable v
  separate : ∀ {code}, p.codes code → (∀ v, p.storable v) ∨ code.Separate

structure Stores (p : Policy) (s : Store) : Prop where
  cells : ∀ {id v}, s.ref id = some v → p.storable v
  items : ∀ {id v}, v ∈ s.list id → p.storable v
  entries : ∀ {id e}, e ∈ s.dict id → p.storable e.2
  pools : p.pools s.refs s.builders
  codes : ∀ {code}, code ∈ s.codes → p.codes code

structure Guards (p : Policy) (world : World) (interpreter : Interpreter) : Prop where
  store : p.Stores world.store
  named : ∀ {e}, e ∈ world.constants → p.storable e.2
  functions : ∀ {e}, e ∈ interpreter.functions → p.storable e.2
  superglobals : ∀ {v}, v ∈ interpreter.superglobals → p.Bindable v

def regime (p : Policy) : Regime where
  Stores := p.Stores
  within _ := True
  storable := p.storable
  iterable v := p.storable v ∨ v.isIteration
  reachable := p.reachable
  codes := p.codes
  tables := True

variable {p : Policy} {s t : Store}

theorem guards_iff {world : World} {interpreter : Interpreter} :
    p.regime.Guards world interpreter ↔ p.Guards world interpreter :=
  ⟨fun h => ⟨h.store, h.named trivial, h.functions trivial, h.superglobals trivial⟩,
    fun h => ⟨h.store, fun _ => h.named, fun _ => h.functions, fun _ => h.superglobals⟩⟩

theorem Stores.change (h : p.Stores s)
    (hcells : ∀ {id v}, t.ref id = some v → s.ref id = some v ∨ p.storable v)
    (hitems : ∀ {id v}, v ∈ t.list id → v ∈ s.list id ∨ p.storable v)
    (hentries : ∀ {id e}, e ∈ t.dict id → e ∈ s.dict id ∨ p.storable e.2)
    (hpools : p.pools t.refs t.builders)
    (hcodes : ∀ {code}, code ∈ t.codes → code ∈ s.codes ∨ p.codes code) : p.Stores t where
  cells hv := (hcells hv).elim h.cells id
  items hv := (hitems hv).elim h.items id
  entries he := (hentries he).elim h.entries id
  pools := hpools
  codes hcode := (hcodes hcode).elim h.codes id

namespace Lawful

variable (hp : p.Lawful)

include hp

theorem complete : p.regime.Complete where
  inert {v} hv := by
    cases v with
    | hollow kind => cases kind <;> first | exact hp.plain rfl rfl | cases hv
    | list | dict | concat | ref | cursor => cases hv
    | _ => exact hp.plain rfl rfl
  iterable := .inl
  refs := hp.refs
  cell hs _ hv := hs.cells hv
  element {s v e} hs _ he := by
    cases v with
    | list => exact hs.items (Store.mem_listEntries he)
    | dict => exact hs.entries he
    | _ => cases he
  setCell {s id v} _ := by
    refine ⟨trivial, fun hs h => ⟨hs.change (fun hw => ?_) .inl .inl (hp.setCell v hs.pools h.1) .inl,
      trivial⟩⟩
    exact (Store.ref_of_setRef hw).imp_right (by rintro rfl; exact h.2)
  newList _ := ⟨trivial, fun hs h => ⟨hs.change .inl
    (fun hv => (Store.of_mem_newList hv).imp_right (h _)) .inl hs.pools .inl, hp.plain rfl rfl⟩⟩
  setList _ := ⟨trivial, fun hs h => ⟨hs.change .inl
    (fun hv => (Store.of_mem_setList hv).imp_right (h.2 _)) .inl hs.pools .inl, trivial⟩⟩
  newDict _ := ⟨trivial, fun hs h => ⟨hs.change .inl .inl
    (fun he => (Store.of_mem_newDict he).imp_right (h _)) hs.pools .inl, hp.plain rfl rfl⟩⟩
  setDict _ _ := ⟨trivial, fun hs h => ⟨hs.change .inl .inl
    (fun he => (Store.of_mem_setDict he).imp_right (h.2 _)) hs.pools .inl, trivial⟩⟩
  tables := trivial
  cells hs := hs.cells
  entries hs := hs.entries
  known hs := hs.codes
  newCell {s content} _ := ⟨trivial, fun hs h =>
    ⟨hs.change (fun hw => (Store.ref_of_push hw).imp_right (h _)) .inl .inl
      (hp.newCell content hs.pools).1 .inl, (hp.newCell content hs.pools).2⟩⟩
  newCursor _ := ⟨trivial, fun hs _ => ⟨hs.change .inl .inl .inl hs.pools .inl, .inr rfl⟩⟩
  setCursor _ := ⟨trivial, fun hs _ => ⟨hs.change .inl .inl .inl hs.pools .inl, trivial⟩⟩
  newCode _ := ⟨trivial, fun hs h => ⟨hs.change .inl .inl .inl hs.pools
    fun hcode => (Array.mem_push.1 hcode).imp_right (by rintro rfl; exact h), trivial⟩⟩
  copyRef {id} s h := hp.copy (s := s) (v := .ref id) h rfl
  copyCursor {id} h := hp.copy (s := {}) (v := .cursor id) h rfl
  constants := hp.constants
  separate hcode := (hp.separate hcode).imp_left fun h _ _ => h _

theorem joins (htexts : ∀ {cells texts texts'}, p.pools cells texts → p.pools cells texts') :
    p.regime.Joins := by
  intro s t left right v hjoin _
  obtain ⟨_, _, _, rfl, rfl⟩ := Store.ok_of_concatenate hjoin
  exact ⟨trivial, fun hs _ =>
    ⟨hs.change .inl .inl .inl (htexts hs.pools) .inl, hp.plain rfl rfl⟩⟩

end Lawful

end Policy

end PageScript
