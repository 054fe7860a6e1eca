/-
What is kept while a machine runs.

A `Regime` says what is to hold of a store, which values may be stored in cells, arrays and
tables, and which cells may be reached through references; what may stand on a stack is told
by a list of `Kind`s, the top first.  It is `Lawful` if the operations on values keep to it,
and `Complete` if all do that an instruction can make.  `Keeps` is what follows for an
action, and is closed under sequencing.

A regime can be bound to the stores that are `within` a limit.  An action that stays within
it has done so from the start; hence in `Keeps` what the action relies on is an assumption
of its own.
-/
import PageScript.Proofs.Effect

namespace PageScript

open List Entries Frame

variable {x y : Int} {α : Type} {v : Value} {id : Nat} {items : Array Value}

def Value.isIteration : Value → Bool
  | .cursor _ => true
  | .hollow .cursor => true
  | _ => false

/-- The value is neither an iteration nor one that anything in the store is
behind. -/
def Value.isInert : Value → Bool
  | .list _ | .dict _ | .concat _ _ | .ref _ | .cursor _ | .hollow .cursor => false
  | _ => true

theorem Value.isInert_of_isNumber (h : v.isNumber) : v.isInert := by
  cases v with
  | int | float => rfl
  | _ => cases h

/-- What is known of an operand. -/
inductive Kind where
  | plain
  /-- Also a reference: an argument of a call that is being put together. -/
  | reference
  | iteration
  deriving DecidableEq, Repr, Inhabited

/-- No parameter by reference has the slot of a superglobal. -/
def Bytecode.Separate (b : Bytecode) : Prop :=
  ∀ {n : Nat} {name}, b.parameters[n]? = some (name, false) → (n : Int) ∉ b.superglobals

/-! ### The store -/

theorem of_getD_push (P : α → Prop) {xs : Array α} {x d : α} {i : Nat}
    (h : P ((xs.push x).getD i d)) : P (xs.getD i d) ∨ P x := by
  simp only [Array.getD_eq_getD_getElem?, Array.getElem?_push] at h ⊢
  split at h
  · exact .inr h
  · exact .inl h

theorem of_getD_setIfInBounds (P : α → Prop) {xs : Array α} {n i : Nat} {x d : α}
    (h : P ((xs.setIfInBounds n x).getD i d)) : P (xs.getD i d) ∨ P x := by
  simp only [Array.getD_eq_getD_getElem?, Array.getElem?_setIfInBounds] at h ⊢
  split at h
  · split at h
    · exact .inr h
    · rename_i h₁ h₂
      subst h₁
      exact .inl (by rwa [Array.getElem?_eq_none (by omega)])
  · exact .inl h

theorem Entries.mem_of_get? {es : Entries α} {key : String} {v : α}
    (h : es.get? key = some v) : (key, v) ∈ es := by
  induction es with
  | nil => cases h
  | cons e es ih =>
    rw [get?, lookup_cons] at h
    split at h
    · cases h
      rename_i heq
      rw [eq_of_beq heq]
      exact mem_cons_self
    · exact mem_cons_of_mem _ (ih h)

theorem Entries.of_mem_put {es : Entries α} {key : String} {v : α} {e : String × α}
    (h : e ∈ es.put key v) : e ∈ es ∨ e.2 = v := by
  induction es with
  | nil =>
    cases mem_singleton.1 h
    exact .inr rfl
  | cons first es ih =>
    obtain ⟨k, old⟩ := first
    rw [put] at h
    split at h
    · rcases mem_cons.1 h with rfl | h
      · exact .inr rfl
      · exact .inl (mem_cons_of_mem _ h)
    · rcases mem_cons.1 h with rfl | h
      · exact .inl mem_cons_self
      · exact (ih h).imp_left (mem_cons_of_mem _)

theorem Entries.keys_put_prefix (es : Entries α) (key : String) (v : α) :
    es.keys <+: (es.put key v).keys := by
  induction es with
  | nil => exact nil_prefix
  | cons e es ih =>
    obtain ⟨k, old⟩ := e
    rw [put]
    split
    · exact prefix_refl _
    · exact cons_prefix_cons.2 ⟨rfl, ih⟩

theorem Entries.of_mem_putAll {es : Entries α} {new : List (String × α)}
    {e : String × α} (h : e ∈ es.putAll new) : e ∈ es ∨ ∃ e' ∈ new, e.2 = e'.2 := by
  induction new generalizing es with
  | nil => exact .inl h
  | cons first new ih =>
    rcases ih h with h | ⟨e', he', heq⟩
    · rcases of_mem_put h with h | h
      · exact .inl h
      · exact .inr ⟨first, mem_cons_self, h⟩
    · exact .inr ⟨e', mem_cons_of_mem _ he', heq⟩

namespace Store

variable {s : Store} {id i : Nat} {v w : Value} {items : Array Value} {es : Entries Value}
  {e : String × Value}

theorem of_mem_newList (h : w ∈ (s.newList items).2.list i) : w ∈ s.list i ∨ w ∈ items :=
  of_getD_push (w ∈ ·) h

theorem of_mem_setList (h : w ∈ (s.setList id items).list i) : w ∈ s.list i ∨ w ∈ items :=
  of_getD_setIfInBounds (w ∈ ·) h

theorem of_mem_newDict (h : e ∈ (s.newDict es).2.dict i) : e ∈ s.dict i ∨ e ∈ es :=
  of_getD_push (e ∈ ·) h

theorem of_mem_setDict (h : e ∈ (s.setDict id es).dict i) : e ∈ s.dict i ∨ e ∈ es :=
  of_getD_setIfInBounds (e ∈ ·) h

theorem ref_of_push {content : Option Value}
    (h : Store.ref { s with refs := s.refs.push content } i = some w) :
    s.ref i = some w ∨ w ∈ content :=
  of_getD_push (· = some w) h

theorem ref_of_setRef (h : (s.setRef id v).ref i = some w) : s.ref i = some w ∨ w = v :=
  (of_getD_setIfInBounds (· = some w) h).imp_right fun h => (Option.some.inj h).symm

end Store

theorem Store.mem_numberedFrom {n : Nat} {vs : List Value} {e : String × Value}
    (h : e ∈ Store.numberedFrom n vs) : e.2 ∈ vs := by
  induction vs generalizing n with
  | nil => cases h
  | cons v vs ih =>
    rcases mem_cons.1 h with rfl | h
    · exact mem_cons_self
    · exact mem_cons_of_mem _ (ih h)

namespace Store

variable {s t : Store} {v w key element : Value}

theorem mem_listEntries {e : String × Value} (h : e ∈ listEntries items) : e.2 ∈ items :=
  Array.mem_toList_iff.1 (mem_numberedFrom h)

def elements (s : Store) : Value → Entries Value
  | .list id => listEntries (s.list id)
  | .dict id => s.dict id
  | _ => []

theorem exists_mem_listEntries (h : v ∈ items) : ∃ key, (key, v) ∈ listEntries items := by
  have hnumbered : ∀ (vs : List Value) n, v ∈ vs → ∃ key, (key, v) ∈ numberedFrom n vs := by
    intro vs
    induction vs with
    | nil => exact fun _ h => nomatch h
    | cons w vs ih =>
      intro n h
      rcases mem_cons.1 h with rfl | h
      · exact ⟨_, mem_cons_self⟩
      · obtain ⟨key, hkey⟩ := ih (n + 1) h
        exact ⟨key, mem_cons_of_mem _ hkey⟩
  exact hnumbered items.toList 0 (Array.mem_toList_iff.2 h)

theorem getMember_cases (h : s.getMember v key = .ok w) :
    (∃ x, w = .text x) ∨ ∃ k, (k, w) ∈ s.elements v := by
  have hchar : ∀ {x i}, charAt x i = .ok w → ∃ x, w = .text x := by
    intro x i hchar
    unfold charAt at hchar
    split at hchar <;> cases hchar
    exact ⟨_, rfl⟩
  have hmissing : ∀ {k a}, s.missingKey k a ≠ .ok w := by
    intro k a hmissing
    obtain ⟨_, -, hmissing⟩ := ok_of_bind hmissing
    obtain ⟨_, -, hmissing⟩ := ok_of_bind hmissing
    cases hmissing
  unfold getMember at h
  split at h
  · split at h
    · exact .inl (hchar h)
    · cases h
  · obtain ⟨i, -, h⟩ := ok_of_bind h
    exact .inl (hchar h)
  · split at h
    · split at h
      · cases h
        rename_i hitem
        obtain ⟨n, -, hitem⟩ := Option.bind_eq_some_iff.1 hitem
        exact .inr (exists_mem_listEntries (Array.mem_of_getElem? hitem))
      · cases h
    · exact absurd h hmissing
  · obtain ⟨k, -, h⟩ := ok_of_bind h
    split at h
    · cases h
      exact .inr ⟨k, mem_of_get? ‹_›⟩
    · exact absurd h hmissing
  · cases h

theorem mem_of_putItem {items' : Array Value} {i : Int} (h : putItem items i v = .ok items')
    (hw : w ∈ items') : w ∈ items ∨ w = v ∨ w = .null := by
  unfold putItem at h
  split at h
  · cases h
    exact (Array.mem_or_eq_of_mem_setIfInBounds hw).imp_right .inl
  · split at h
    · cases h
    · dsimp only at h
      split at h
      · cases h
      · cases h
        rcases Array.mem_push.1 hw with hw | rfl
        · exact (Array.mem_append.1 hw).imp_right fun hw => .inr (Array.eq_of_mem_replicate hw)
        · exact .inr (.inl rfl)

inductive Puts (s : Store) (element : Value) : Value → Value → Store → Prop where
  | list {id : Nat} {items : Array Value} :
      (∀ w ∈ items, w ∈ s.list id ∨ w = element ∨ w = .null) →
      Puts s element (.list id) (.list id) (s.setList id items)
  /-- A list becomes a new dictionary. -/
  | turn {id : Nat} {es : Entries Value} :
      (∀ e ∈ es, e ∈ listEntries (s.list id) ∨ e.2 = element) →
      Puts s element (.list id) (s.newDict es).1 (s.newDict es).2
  /-- The entries of a dictionary are replaced. -/
  | dict {id : Nat} {es : Entries Value} : (∀ e ∈ es, e ∈ s.dict id ∨ e.2 = element) →
      (s.dict id).keys <+: es.keys → Puts s element (.dict id) (.dict id) (s.setDict id es)

theorem puts_of_putMember (h : s.putMember v key element = .ok (w, t)) : s.Puts element v w t := by
  unfold putMember at h
  split at h
  · split at h
    · obtain ⟨items, hitems, h⟩ := ok_of_bind h
      cases h
      exact .list fun w => mem_of_putItem hitems
    · obtain ⟨k, -, h⟩ := ok_of_bind h
      cases h
      exact .turn fun e => of_mem_put
  · obtain ⟨k, -, h⟩ := ok_of_bind h
    cases h
    exact .dict (fun e => of_mem_put) <| keys_put_prefix _ k element
  · cases h

theorem mem_of_currentElement {c : Cursor} (h : s.currentElement c = .ok v) :
    ∃ key, (key, v) ∈ s.dict c.dict := by
  unfold currentElement at h
  split at h
  · cases h
    exact ⟨_, mem_of_get? ‹_›⟩
  · cases h

theorem valueOf_cases (h : s.valueOf v = .ok w) :
    v = w ∧ v.isRef = false ∨ ∃ id, v = .ref id ∧ s.ref id = some w := by
  unfold valueOf at h
  split at h
  · cases h
  · cases h
  · split at h
    · cases h
      exact .inr ⟨_, rfl, ‹_›⟩
    · cases h
  · cases h
    rename_i href
    refine .inl ⟨rfl, ?_⟩
    cases v with
    | ref id => exact absurd rfl (href id)
    | _ => rfl

end Store

namespace Frame

variable {f g : Frame} {slot : Int} {v w : Value}

theorem mem_of_load (h : f.load slot = .ok v) : v ∈ f.slots := by
  unfold load at h
  split at h
  · cases h
  · split at h <;> cases h
    exact Array.mem_of_getElem? ‹_›

theorem mem_of_store (h : f.store slot v = .ok g) (hw : w ∈ g.slots) : w ∈ f.slots ∨ w = v := by
  unfold store at h
  split at h
  · cases h
  · split at h <;> cases h
    exact Array.mem_or_eq_of_mem_setIfInBounds hw

end Frame

/-! ### Regimes -/

/-- What values may be stored where. -/
structure Regime where
  Stores : Store → Prop
  /-- The stores of which something is said. -/
  within : Store → Prop
  storable : Value → Prop
  /-- The values that an operand may be which is an iteration. -/
  iterable : Value → Prop
  reachable : Nat → Prop
  codes : Bytecode → Prop
  /-- Whether something is said of values that have a name. -/
  tables : Prop

namespace Regime

/-- A value that may be in the slot of a variable. -/
def Bindable (g : Regime) (v : Value) : Prop :=
  g.storable v ∨ ∃ id, v = .ref id ∧ g.reachable id

def Binds (g : Regime) (slots : Array Value) : Prop := ∀ v ∈ slots, g.Bindable v

/-- The values of a kind. -/
def Allows (g : Regime) : Kind → Value → Prop
  | .plain, v => g.storable v
  | .reference, v => g.Bindable v
  | .iteration, v => g.iterable v

/-- With something given, a change of the store keeps to the regime, and
something holds after it. -/
def Turns (g : Regime) (s t : Store) (A B : Prop) : Prop :=
  g.within t → g.within s ∧ (g.Stores s → A → g.Stores t ∧ B)

/-- What makes a regime one that the operations on values keep to. -/
structure Lawful (g : Regime) : Prop where
  inert : ∀ {v : Value}, v.isInert → g.storable v
  iterable : ∀ {v}, g.storable v → g.iterable v
  refs : ∀ {id}, g.storable (.ref id) → g.reachable id
  cell : ∀ {s id v}, g.Stores s → g.reachable id → s.ref id = some v → g.storable v
  element : ∀ {s v e}, g.Stores s → g.storable v → e ∈ s.elements v → g.storable e.2
  setCell : ∀ {s id v}, g.Turns s (s.setRef id v) (g.reachable id ∧ g.storable v) True
  newList : ∀ {s items},
    g.Turns s (s.newList items).2 (∀ v ∈ items, g.storable v) (g.storable (s.newList items).1)
  setList : ∀ {s id items},
    g.Turns s (s.setList id items) (g.storable (.list id) ∧ ∀ v ∈ items, g.storable v) True
  newDict : ∀ {s es},
    g.Turns s (s.newDict es).2 (∀ e ∈ es, g.storable e.2) (g.storable (s.newDict es).1)
  setDict : ∀ {s id es}, (s.dict id).keys <+: es.keys →
    g.Turns s (s.setDict id es) (g.storable (.dict id) ∧ ∀ e ∈ es, g.storable e.2) True

/-- What makes a regime one that every instruction keeps to. -/
structure Complete (g : Regime) : Prop extends Lawful g where
  tables : g.tables
  cells : ∀ {s id v}, g.Stores s → s.ref id = some v → g.storable v
  entries : ∀ {s id e}, g.Stores s → e ∈ s.dict id → g.storable e.2
  known : ∀ {s code}, g.Stores s → code ∈ s.codes → g.codes code
  newCell : ∀ {s content}, g.Turns s { s with refs := s.refs.push content }
    (∀ v ∈ content, g.storable v) (g.reachable s.refs.size)
  newCursor : ∀ {s c}, g.Turns s (s.newCursor c).2 True (g.iterable (s.newCursor c).1)
  setCursor : ∀ {s id c}, g.Turns s (s.setCursor id c) (g.iterable (.cursor id)) True
  newCode : ∀ {s code}, g.Turns s (s.newCode code).2 (g.codes code) True
  copyRef : ∀ {id} (s : Store), g.storable (.ref id) → g.storable (.ref s.refs.size)
  copyCursor : ∀ {id}, g.storable (.cursor id) → g.storable (.hollow .cursor)
  constants : ∀ {code v}, g.codes code → v ∈ code.constants → g.storable v
  separate : ∀ {code}, g.codes code →
    (∀ {id}, g.reachable id → g.storable (.ref id)) ∨ code.Separate

/-- Texts under construction may grow. -/
def Joins (g : Regime) : Prop :=
  ∀ {s t left right v}, s.concatenate left right = .ok (v, t) →
    g.Turns s t (g.storable left) (g.storable v)

structure Guards (g : Regime) (world : World) (interpreter : Interpreter) : Prop where
  store : g.Stores world.store
  named : g.tables → ∀ {e}, e ∈ world.constants → g.storable e.2
  functions : g.tables → ∀ {e}, e ∈ interpreter.functions → g.storable e.2
  superglobals : g.tables → ∀ {v}, v ∈ interpreter.superglobals → g.Bindable v

/-- A machine keeps to the regime, apart from its operands and from what
waits. -/
structure Holds (g : Regime) (m : Machine) : Prop where
  guards : g.Guards m.world m.interpreter
  constants : ∀ {v}, v ∈ m.current.frame.code.constants → g.storable v
  slots : g.Binds m.current.frame.slots

/-- The operands on a stack are of these kinds, and those below can be stored. -/
def Fits (g : Regime) (ks : List Kind) (stack : List Value) : Prop :=
  ∀ n v, stack[n]? = some v → g.Allows (ks.getD n .plain) v

/-- The running code keeps to the regime, with operands of these kinds. -/
structure Meets (g : Regime) (ks : List Kind) (m : Machine) : Prop where
  holds : g.Holds m
  fits : g.Fits ks m.current.frame.stack

variable {g : Regime} {s t u : Store} {v w key element : Value} {A A' B B' : Prop}

/-! ### Values -/

theorem Turns.refl (h : g.Stores s → A → B) : g.Turns s s A B :=
  fun hs => ⟨hs, fun h' hA => ⟨h', h h' hA⟩⟩

theorem Turns.imp (h : g.Turns s t A B) (hA : g.Stores s → A' → A) (hB : A' → B → B') :
    g.Turns s t A' B' := by
  intro ht
  refine ⟨(h ht).1, fun hs hA' => ?_⟩
  obtain ⟨ht, hb⟩ := (h ht).2 hs (hA hs hA')
  exact ⟨ht, hB hA' hb⟩

theorem Turns.trans (h : g.Turns s t A B) (h' : g.Turns t u B B') : g.Turns s u A B' := by
  intro hu
  have ht := (h' hu).1
  refine ⟨(h ht).1, fun hs hA => ?_⟩
  obtain ⟨hstores, hb⟩ := (h ht).2 hs hA
  exact (h' hu).2 hstores hb

theorem Bindable.storable (h : g.Bindable v) (hv : v.isRef = false) : g.storable v := by
  rcases h with h | ⟨id, rfl, -⟩
  · exact h
  · cases hv

namespace Lawful

variable (hg : g.Lawful)

include hg

theorem number (h : v.isNumber) : g.storable v := hg.inert (Value.isInert_of_isNumber h)

theorem reachable (h : g.Bindable (.ref id)) : g.reachable id := by
  rcases h with h | ⟨_, h, hid⟩
  · exact hg.refs h
  · cases h
    exact hid

theorem valueOf (h : g.Stores s) (hv : g.Bindable v) (hw : s.valueOf v = .ok w) : g.storable w := by
  rcases Store.valueOf_cases hw with ⟨rfl, href⟩ | ⟨id, rfl, hcell⟩
  · exact hv.storable href
  · exact hg.cell h (hg.reachable hv) hcell

theorem item (h : g.Stores s) (hid : g.storable (.list id)) (hv : v ∈ s.list id) :
    g.storable v := by
  obtain ⟨k, hk⟩ := Store.exists_mem_listEntries hv
  exact hg.element h hid hk

theorem getMember (h : g.Stores s) (hv : g.storable v) (hget : s.getMember v key = .ok w) :
    g.storable w := by
  rcases Store.getMember_cases hget with ⟨x, rfl⟩ | ⟨k, helement⟩
  · exact hg.inert rfl
  · exact hg.element h hv helement

theorem putMember (hput : s.putMember v key element = .ok (w, t)) :
    g.Turns s t (g.storable v ∧ g.storable element) (g.storable w) := by
  cases Store.puts_of_putMember hput with
  | list hitems =>
    refine hg.setList.imp (fun hs h => ⟨h.1, fun w hw => ?_⟩) fun h _ => h.1
    rcases hitems w hw with hw | rfl | rfl
    · exact hg.item hs h.1 hw
    · exact h.2
    · exact hg.inert rfl
  | turn hentries =>
    refine hg.newDict.imp (fun hs h e he => ?_) fun _ hw => hw
    rcases hentries e he with he | he
    · exact hg.element hs h.1 he
    · exact he ▸ h.2
  | dict hentries hkeys =>
    refine (hg.setDict hkeys).imp (fun hs h => ⟨h.1, fun e he => ?_⟩) fun h _ => h.1
    rcases hentries e he with he | he
    · exact hg.element hs h.1 he
    · exact he ▸ h.2

variable {f f' : Frame} {slot : Int}

theorem getVariable (h : g.Stores s) (hf : g.Binds f.slots)
    (hv : f.getVariable s slot = .ok v) : g.storable v := by
  obtain ⟨old, hload, hv⟩ := ok_of_bind hv
  have hold := hf old (mem_of_load hload)
  split at hv
  · exact hg.valueOf h hold hv
  · cases hv
    exact hold.storable (Bool.eq_false_iff.2 ‹_›)

theorem puts {content : Value → Prop} (hputs : f.Puts s slot v content f' t)
    (hf : A → g.Binds f.slots) (hv : A → g.Bindable v)
    (hcontent : ∀ {id w}, f.load slot = .ok (.ref id) → content w → g.Stores s → A →
      g.storable w) : g.Turns s t A (g.Binds f'.slots) := by
  cases hputs with
  | cell hload hw =>
    refine hg.setCell.imp (fun hs h => ⟨?_, hcontent hload hw hs h⟩) fun h _ => hf h
    exact hg.reachable (hf h _ (mem_of_load hload))
  | slot _ _ hstore =>
    refine .refl fun _ h w hw => ?_
    rcases mem_of_store hstore hw with hw | rfl
    · exact hf h w hw
    · exact hv h

theorem storeVariable (hstore : f.storeVariable s slot v = .ok (f', t))
    (hf : A → g.Binds f.slots) (hv : A → g.Bindable v)
    (hslot : A → g.storable v ∨ ∀ {old}, f.load slot = .ok old → old.isRef = false) :
    g.Turns s t A (g.Binds f'.slots) := by
  refine hg.puts (puts_of_storeVariable hstore) hf hv fun hload hw _ h => ?_
  rcases hslot h with hslot | hslot
  · rwa [hw]
  · cases hslot hload

end Lawful

namespace Complete

variable (hg : g.Complete)

include hg

theorem iterate (hiterate : s.iterate v = .ok (w, t)) :
    g.Turns s t (g.storable v) (g.iterable w) := by
  unfold Store.iterate at hiterate
  split at hiterate
  · cases hiterate
    -- The copy of a list is a dictionary before the iteration is made.
    rename_i id
    have hcopy : g.Turns s (s.newDict (Store.listEntries (s.list id))).2 (g.storable (.list id))
        True := hg.newDict.imp (fun hs h e he => hg.element hs h he) fun _ _ => trivial
    exact hcopy.trans hg.newCursor
  · cases hiterate
    exact hg.newCursor.imp (fun _ _ => trivial) fun _ h => h
  · cases hiterate

theorem nextElement (hnext : s.nextElement id = .ok (v, t)) :
    g.Turns s t (g.iterable (.cursor id)) True := by
  obtain ⟨w, -, hnext⟩ := ok_of_bind hnext
  cases hnext
  exact hg.setCursor

theorem copy (hcopy : s.copy v = .ok (w, t)) : g.Turns s t (g.storable v) (g.storable w) := by
  unfold Store.copy at hcopy
  split at hcopy <;> cases hcopy
  case h_4 => exact hg.newList.imp (fun hs h w hw => hg.item hs h hw) fun _ hw => hw
  case h_5 => exact hg.newDict.imp (fun hs _ _ => hg.entries hs) fun _ hw => hw
  case h_6 => exact hg.newCell.imp (fun _ _ => nofun) fun h _ => hg.copyRef s h
  case h_7 => exact .refl fun _ => hg.copyCursor
  case h_11 => exact .refl fun _ h => h
  all_goals exact .refl fun _ _ => hg.inert rfl

variable {f f' : Frame} {slot : Int} {r : Value}

theorem getReference (hget : f.getReference s slot = .ok (r, f', t)) :
    g.Turns s t (∀ {old}, f.load slot = .ok old → g.Bindable old)
      ((f' = f ∨ f.store slot r = .ok f') ∧ ∃ id, r = .ref id ∧ g.reachable id) := by
  cases refers_of_getReference hget with
  | found hload => exact .refl fun _ hold => ⟨.inl rfl, _, rfl, hg.reachable (hold hload)⟩
  | made hload hplain hstore =>
    refine hg.newCell.imp (fun _ hold v hv => ?_) fun _ hid => ⟨.inr hstore, _, rfl, hid⟩
    cases hv
    exact (hold hload).storable hplain

theorem setReference (hset : f.setReference s slot (.ref id) = .ok (f', t)) :
    g.Turns s t (g.Binds f.slots ∧ g.reachable id) (g.Binds f'.slots) := by
  obtain ⟨_, -, hputs⟩ := puts_of_setReference hset
  exact hg.puts hputs (fun h => h.1) (fun h => .inr ⟨id, rfl, h.2⟩)
    fun _ hw hs h => hg.valueOf hs (.inr ⟨id, rfl, h.2⟩) hw

end Complete

/-- What is kept says that the store keeps to the regime, and of the store no
more than that. -/
structure Covers (g : Regime) (J : Machine → Prop) : Prop where
  store : ∀ {m}, J m → g.Stores m.world.store
  update : ∀ {m t}, J m → g.Stores t → J { m with world := { m.world with store := t } }

theorem covers_guards (g : Regime) (a : Activation) :
    g.Covers fun m => g.Guards m.world m.interpreter ∧ m.current = a where
  store h := h.1.store
  update h ht := ⟨{ h.1 with store := ht }, h.2⟩

theorem covers_holds (g : Regime) : g.Covers g.Holds where
  store h := h.guards.store
  update h ht := ⟨{ h.guards with store := ht }, h.constants, h.slots⟩

end Regime

/-! ### Actions -/

namespace Exec

variable {α β : Type} {g : Regime} {A B : Prop} {P : α → Prop} {Q : β → Prop}

/-- With something given, the action keeps what holds of the machine, and its
answer is as it should be. -/
def Keeps (g : Regime) (J : Machine → Prop) (A : Prop) (P : α → Prop) (a : Exec α) : Prop :=
  ∀ m r m', a.run m = .ok r m' → g.within m'.world.store →
    g.within m.world.store ∧ (J m → A → J m' ∧ P r)

section

variable {J : Machine → Prop}

theorem Keeps.pure {r : α} (h : A → P r) : Keeps g J A P (Pure.pure r) := by
  intro m r' m' hrun hm'
  cases hrun
  exact ⟨hm', fun hm hA => ⟨hm, h hA⟩⟩

theorem Keeps.throw (fault : Fault) : Keeps g J A P (throw fault : Exec α) := by
  intro m r m' hrun
  cases hrun

theorem Keeps.bind {x : Exec α} {f : α → Exec β} (hx : Keeps g J A P x)
    (hf : ∀ r, Keeps g J (A ∧ P r) Q (f r)) : Keeps g J A Q (x >>= f) := by
  intro m r m' hrun hm'
  obtain ⟨r₁, m₁, hfirst, hrun⟩ := ok_of_run_bind hrun
  obtain ⟨hm₁, hnext⟩ := hf r₁ _ _ _ hrun hm'
  obtain ⟨hm, hkeeps⟩ := hx _ _ _ hfirst hm₁
  refine ⟨hm, fun hJ hA => ?_⟩
  obtain ⟨hJ₁, hr₁⟩ := hkeeps hJ hA
  exact hnext hJ₁ ⟨hA, hr₁⟩

theorem Keeps.given {a : Exec α} (h : Keeps g J B P a) (hA : A → B) : Keeps g J A P a :=
  fun m r m' hrun hm' => ⟨(h m r m' hrun hm').1, fun hJ ha => (h m r m' hrun hm').2 hJ (hA ha)⟩

theorem Keeps.andThen {x : Exec α} {f : α → Exec β} (hx : Keeps g J A P x)
    (hf : ∀ r, Keeps g J A Q (f r)) : Keeps g J A Q (x >>= f) :=
  hx.bind fun r => (hf r).given And.left

theorem Keeps.ofExcept {x : Except Fault α} (h : ∀ r, x = .ok r → A → P r) :
    Keeps g J A P (ofExcept x) := by
  cases x with
  | error e => exact .throw e
  | ok r => exact .pure (h r rfl)

theorem Keeps.any {x : Except Fault α} : Keeps g J A (fun _ => True) (MonadExcept.ofExcept x) :=
  .ofExcept fun _ _ _ => trivial

theorem Keeps.check (holds : Bool) : Keeps g J A (fun _ => True) (Exec.check holds) := by
  cases holds
  · exact .throw _
  · exact .pure fun _ => trivial

theorem Keeps.fromStore (hJ : g.Covers J) {f : Store → Except Fault α}
    (h : ∀ s r, f s = .ok r → g.Stores s → A → P r) : Keeps g J A P (Exec.fromStore f) := by
  intro m r m' hrun hm'
  obtain ⟨hr, rfl⟩ := ok_of_run_fromStore hrun
  exact ⟨hm', fun hm hA => ⟨hm, h _ r hr (hJ.store hm) hA⟩⟩

theorem Keeps.onStore (hJ : g.Covers J) {f : Store → Except Fault (α × Store)}
    (h : ∀ s r t, f s = .ok (r, t) → g.Turns s t A (P r)) : Keeps g J A P (Exec.onStore f) := by
  intro m r m' hrun hm'
  obtain ⟨t, ht, rfl⟩ := store_of_run_onStore hrun
  obtain ⟨hm, hkeeps⟩ := h _ _ _ ht hm'
  refine ⟨hm, fun hJm hA => ?_⟩
  obtain ⟨hstore, hr⟩ := hkeeps (hJ.store hJm) hA
  exact ⟨hJ.update hJm hstore, hr⟩

end

theorem Keeps.read {f : Store → Except Fault α} :
    Keeps g g.Holds A (fun _ => True) (Exec.fromStore f) :=
  .fromStore g.covers_holds fun _ _ _ _ _ => trivial

theorem Keeps.output (text : String) : Keeps g g.Holds A (fun _ => True) (Exec.output text) := by
  rintro ⟨world, ⟨functions, buffers, superglobals⟩, current, callers, steps, fault⟩ r m' hrun hm'
  cases hrun
  cases buffers <;>
    exact ⟨hm', fun hm _ => ⟨⟨{ hm.guards with }, hm.constants, hm.slots⟩, trivial⟩⟩

theorem Keeps.startBuffering : Keeps g g.Holds A (fun _ => True) Exec.startBuffering := by
  intro m r m' hrun hm'
  cases hrun
  exact ⟨hm', fun hm _ => ⟨⟨{ hm.guards with }, hm.constants, hm.slots⟩, trivial⟩⟩

theorem Keeps.endBuffer : Keeps g g.Holds A (fun _ => True) Exec.endBuffer := by
  rintro ⟨world, ⟨functions, buffers, superglobals⟩, current, callers, steps, fault⟩ r m' hrun hm'
  cases buffers <;> cases hrun
  exact ⟨hm', fun hm _ => ⟨⟨{ hm.guards with }, hm.constants, hm.slots⟩, trivial⟩⟩

theorem Keeps.requireVariable (hg : g.Lawful) (slot : Int) (name : String) :
    Keeps g g.Holds A g.storable (Exec.requireVariable slot name) := by
  intro m r m' hrun hm'
  obtain ⟨hv, rfl⟩ := ok_of_run_requireVariable hrun
  exact ⟨hm', fun hm _ => ⟨hm, hg.getVariable hm.guards.store hm.slots hv⟩⟩

theorem Keeps.storeVariable (hg : g.Lawful) (hv : A → g.storable v) (slot : Int) :
    Keeps g g.Holds A (fun _ => True) (Exec.storeVariable slot v) := by
  intro m r m' hrun hm'
  obtain ⟨frame, t, hstore, rfl⟩ := ok_of_run_storeVariable hrun
  obtain ⟨hback, hturns⟩ := hg.storeVariable (A := g.Binds m.current.frame.slots ∧ A) hstore
    And.left (fun h => .inl (hv h.2)) (fun h => .inl (hv h.2)) hm'
  refine ⟨hback, fun hm hA => ?_⟩
  obtain ⟨ht, hslots⟩ := hturns hm.guards.store ⟨hm.slots, hA⟩
  refine ⟨⟨{ hm.guards with store := ht }, fun hw => hm.constants ?_, hslots⟩, trivial⟩
  rw [← (storeVariable_alike hstore).code]
  exact hw

theorem Keeps.getReference (hg : g.Complete) (slot : Int) :
    Keeps g g.Holds A g.Bindable (Exec.getReference slot) := by
  intro m r m' hrun hm'
  obtain ⟨frame, t, hget, rfl⟩ := ok_of_run_getReference hrun
  obtain ⟨hback, hturns⟩ := hg.getReference hget hm'
  refine ⟨hback, fun hm _ => ?_⟩
  obtain ⟨ht, hframe, hr⟩ :=
    hturns hm.guards.store fun hload => hm.slots _ (mem_of_load hload)
  rcases hframe with rfl | hstore
  · exact ⟨⟨{ hm.guards with store := ht }, hm.constants, hm.slots⟩, .inr hr⟩
  · refine ⟨⟨{ hm.guards with store := ht }, fun hw => hm.constants ?_, fun w hw => ?_⟩, .inr hr⟩
    · rw [← (store_alike hstore).code]
      exact hw
    · rcases mem_of_store hstore hw with hw | rfl
      · exact hm.slots w hw
      · exact .inr hr

theorem Keeps.constantAt (place : Int) : Keeps g g.Holds A g.storable (Exec.constantAt place) := by
  intro m r m' hrun hm'
  obtain ⟨hr, rfl⟩ := ok_of_run_constantAt hrun
  exact ⟨hm', fun hm _ => ⟨hm, hm.constants hr⟩⟩

theorem Keeps.newList (hg : g.Lawful) {items : List Value} (h : A → ∀ v ∈ items, g.storable v) :
    Keeps g g.Holds A g.storable (Exec.newList items) := by
  refine .onStore g.covers_holds fun s r t hr => ?_
  cases hr
  exact hg.newList.imp (fun _ hA v hv => h hA v (mem_toArray.1 hv)) fun _ hv => hv

/-! #### Native functions -/

section

variable {args : List Value}

theorem Keeps.argumentValue (hg : g.Lawful) (hargs : A → ∀ v ∈ args, g.Bindable v) (i : Nat) :
    Keeps g g.Holds A g.storable (Exec.argumentValue args i) := by
  refine .bind (P := g.Bindable) ?_ fun v =>
    .fromStore g.covers_holds fun s w hw hs h => hg.valueOf hs h.2 hw
  unfold Exec.argument
  split
  · exact .pure fun h => hargs h _ (mem_of_getElem? ‹_›)
  · exact .throw _

theorem Keeps.valuesOf (args : List Value) :
    Keeps g g.Holds A (fun _ => True) (Exec.valuesOf args) := by
  induction args with
  | nil => exact .pure fun _ => trivial
  | cons v args ih => exact .andThen .read fun _ => .andThen ih fun _ => .pure fun _ => trivial

theorem Keeps.callDefine (hg : g.Lawful) (hargs : A → ∀ v ∈ args, g.Bindable v) :
    Keeps g g.Holds A g.storable (Native.callDefine args) := by
  refine .andThen (.argumentValue hg hargs 0) fun name => .andThen (.check _) fun _ =>
    .bind (.argumentValue hg hargs 1) fun v => .andThen .read fun key => ?_
  intro m r m' hrun hm'
  obtain ⟨_, _, hstate, hrun⟩ := ok_of_run_bind hrun
  cases hstate
  split at hrun
  · cases hrun
    exact ⟨hm', fun hm _ => ⟨hm, hg.inert rfl⟩⟩
  · obtain ⟨_, m₁, hcheck, hrun⟩ := ok_of_run_bind hrun
    obtain ⟨_, m₂, hset, hrun⟩ := ok_of_run_bind hrun
    cases hset
    cases hrun
    refine ⟨hm', fun hm h => ⟨⟨{ hm.guards with named := fun htables _ he => ?_ }, hm.constants,
      hm.slots⟩, hg.inert rfl⟩⟩
    rcases of_mem_put he with he | he
    · exact hm.guards.named htables he
    · exact he ▸ h.2

theorem Keeps.native (hg : g.Lawful) (f : Native) (hargs : A → ∀ v ∈ args, g.Bindable v) :
    Keeps g g.Holds A g.storable (f.call args) := by
  have hvalue : ∀ i, Keeps g g.Holds A g.storable (Exec.argumentValue args i) :=
    .argumentValue hg hargs
  have hinert : ∀ v : Value, v.isInert → Keeps g g.Holds A g.storable (Pure.pure v) :=
    fun v hv => .pure fun _ => hg.inert hv
  cases f with
  | define => exact .callDefine hg hargs
  | strlen =>
    exact .andThen (hvalue 0) fun _ => .andThen (.check _) fun _ => .andThen .read fun _ =>
      hinert _ rfl
  | strRepeat =>
    exact .andThen (hvalue 0) fun _ => .andThen (hvalue 1) fun _ => .andThen (.check _) fun _ =>
      .andThen (.check _) fun _ => .andThen .read fun _ => .andThen .any fun _ =>
      .andThen .any fun _ => hinert _ rfl
  | printf =>
    refine .andThen (P := fun _ => True) ?_ fun _ => .andThen (.check _) fun _ =>
      .andThen (.valuesOf _) fun _ => .andThen .read fun _ => .andThen .read fun _ =>
      .andThen (.output _) fun _ => hinert _ rfl
    unfold Exec.argument
    split
    · exact .pure fun _ => trivial
    · exact .throw _
  | printR =>
    exact .andThen (hvalue 0) fun _ => .andThen .read fun _ => .andThen (.output _) fun _ =>
      hinert _ rfl
  | dechex =>
    exact .andThen (hvalue 0) fun _ => .andThen (.check _) fun _ => .andThen .any fun _ =>
      hinert _ rfl
  | numberFormat =>
    exact .andThen (hvalue 0) fun _ => .andThen (.check _) fun _ => .andThen (hvalue 1) fun _ =>
      .andThen (.check _) fun _ => .andThen .any fun _ => .andThen .any fun _ =>
      .andThen .any fun _ => hinert _ rfl
  | range =>
    refine .andThen (hvalue 0) fun _ => .andThen (hvalue 1) fun _ => .andThen (.check _) fun _ =>
      .andThen (.check _) fun _ => .andThen .any fun _ => .andThen .any fun _ =>
      .newList hg fun _ v hv => ?_
    obtain ⟨n, -, rfl⟩ := mem_map.1 hv
    exact hg.inert rfl
  | getTimeOfDay =>
    intro m r m' hrun
    obtain ⟨_, _, hstate, hrun⟩ := ok_of_run_bind hrun
    cases hstate
    refine Keeps.andThen .any (fun time => .onStore g.covers_holds fun s r t hr => ?_) m r m' hrun
    cases hr
    refine hg.newDict.imp (fun _ _ e he => ?_) fun _ hv => hv
    simp only [mem_cons, not_mem_nil, or_false] at he
    rcases he with rfl | rfl <;> exact hg.inert rfl
  | obStart => exact .andThen .startBuffering fun _ => hinert _ rfl
  | obEndClean => exact .andThen .endBuffer fun _ => hinert _ rfl
  | obFlush => exact .andThen .endBuffer fun _ => .andThen (.output _) fun _ => hinert _ rfl

end

end Exec

/-! ### Operators -/

namespace ArithOp

variable {op : ArithOp} {left right v : Value}

theorem isNumber_of_checked {z : Int} {f : Float → Float → Float}
    (h : checked z f x y = .ok v) : v.isNumber := by
  unfold checked at h
  split at h
  · cases h
    rfl
  · obtain ⟨_, -, h⟩ := ok_of_bind h
    obtain ⟨_, -, h⟩ := ok_of_bind h
    cases h
    rfl

theorem isNumber_of_divide (h : divide x y = .ok v) : v.isNumber := by
  obtain ⟨b, -, h⟩ := ok_of_bind h
  obtain ⟨a, -, h⟩ := ok_of_bind h
  dsimp only at h
  split at h
  · cases h
  · split at h
    · obtain ⟨n, -, h⟩ := ok_of_bind h
      cases h
      rfl
    · cases h
      rfl

theorem isNumber_of_remainder (h : remainder x y = .ok v) : v.isNumber := by
  unfold remainder at h
  split at h
  · cases h
    rfl
  · obtain ⟨a, -, h⟩ := ok_of_bind h
    obtain ⟨b, -, h⟩ := ok_of_bind h
    obtain ⟨m, -, h⟩ := ok_of_bind h
    obtain ⟨n, -, h⟩ := ok_of_bind h
    dsimp only at h
    split at h <;> cases h
    rfl

theorem isNumber_of_onInts (h : op.onInts x y = .ok v) : v.isNumber := by
  cases op with
  | add | sub | mult => exact isNumber_of_checked h
  | mod => exact isNumber_of_remainder h
  | div => exact isNumber_of_divide h

theorem isNumber_of_onFloats {x y : Float} (h : op.onFloats x y = .ok v) : v.isNumber := by
  cases op with
  | add | sub | mult =>
    cases h
    rfl
  | mod => cases h
  | div =>
    simp only [onFloats] at h
    split at h <;> cases h
    rfl

theorem isNumber_of_strict (h : op.strict left right = .ok v) : v.isNumber := by
  unfold strict at h
  split at h
  · exact isNumber_of_onInts h
  · cases h
  · exact isNumber_of_onFloats h
  · split at h <;> cases h
  · cases h

theorem isNumber_of_apply (h : op.apply left right = .ok v) : v.isNumber := by
  unfold apply at h
  split at h
  · exact isNumber_of_onInts h
  · obtain ⟨x, -, h⟩ := ok_of_bind h
    exact isNumber_of_strict h
  · obtain ⟨y, -, h⟩ := ok_of_bind h
    exact isNumber_of_strict h
  · exact isNumber_of_strict h

end ArithOp

theorem Value.isNumber_of_increment (step : Option Step) {w : Value}
    (h : v.increment step = .ok w) : w.isNumber := by
  unfold increment at h
  split at h
  · split at h
    · cases h
      rfl
    · obtain ⟨_, -, h⟩ := ok_of_bind h
      obtain ⟨_, -, h⟩ := ok_of_bind h
      cases h
      rfl
    · cases h
  · split at h
    · obtain ⟨_, -, h⟩ := ok_of_bind h
      cases h
      rfl
    · cases h
      rfl
    · cases h
  · cases h

namespace Regime.Lawful

variable {g : Regime} {A : Prop} (hg : g.Lawful)

include hg

theorem unary {op : UnaryOperator} {w : Value} (h : op.evaluate v = .ok w) : g.storable w := by
  cases op with
  | not =>
    obtain ⟨b, -, h⟩ := ok_of_bind h
    cases h
    exact hg.inert rfl
  | incr => exact hg.number (Value.isNumber_of_increment (some (.int 1)) h)
  | decr => exact hg.number (Value.isNumber_of_increment (some (.int (-1))) h)

theorem operator {op : Operator} (hjoins : op = .concat → g.Joins) {left right : Value}
    (hleft : A → g.storable left) (hright : A → g.storable right) :
    Exec.Keeps g g.Holds A g.storable (op.evaluate left right) := by
  cases op with
  | comma => exact .pure hright
  | concat =>
    exact .onStore g.covers_holds fun _ _ _ hv =>
      (hjoins rfl hv).imp (fun _ => hleft) fun _ h => h
  | eq | gt | ge | lt | le => exact .andThen .read fun _ => .pure fun _ => hg.inert rfl
  | add | sub | mul | div | mod =>
    exact .ofExcept fun _ h _ => hg.number (ArithOp.isNumber_of_apply h)
  | ursh | rsh | lsh =>
    refine .ofExcept fun _ h _ => ?_
    obtain ⟨r, -, h⟩ := ok_of_bind h
    obtain ⟨l, -, h⟩ := ok_of_bind h
    cases h
    exact hg.inert rfl

end Regime.Lawful

end PageScript
