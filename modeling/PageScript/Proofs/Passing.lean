/-
Arguments by value, from left to right.

The arguments of a call are evaluated from left to right (`Node.Moment`), and copies are
made when all have been.  An expression has been replaced by its value then; a variable is
passed as a reference, and what is copied is what its cell holds at the call.  So a
parameter has what its argument had when it was evaluated just if what the argument stands
for is still the same (`argument_received`, `argument_received_late`).
-/
import PageScript.Proofs.Arguments
import PageScript.Proofs.DeclarationOrder
import PageScript.Proofs.Elements
import PageScript.Proofs.Globals

open EStateM (Result)

namespace PageScript

open Exec Node Frame Store

variable {m m' : Machine} {id : Nat} {args : List Value}

/-! ### Copies in a store that grows -/

namespace Store

variable {s t u : Store} {v w : Value}

/-- All arrays and texts of the first store are in the second one, as they
were. -/
structure Retains (s t : Store) : Prop extends Extends s t where
  lists_le : s.lists.size ≤ t.lists.size
  dicts_le : s.dicts.size ≤ t.dicts.size
  builders_le : s.builders.size ≤ t.builders.size

namespace Retains

theorem of_eq (hlists : t.lists = s.lists) (hdicts : t.dicts = s.dicts)
    (hbuilders : t.builders = s.builders) : s.Retains t where
  list _ := by rw [list, list, hlists]
  dict _ := by rw [dict, dict, hdicts]
  builder _ := by rw [builder, builder, hbuilders]
  lists_le := by rw [hlists]
  dicts_le := by rw [hdicts]
  builders_le := by rw [hbuilders]

theorem refl (s : Store) : s.Retains s := of_eq rfl rfl rfl

theorem trans (h : s.Retains t) (h' : t.Retains u) : s.Retains u where
  list hid := (h'.list (Nat.lt_of_lt_of_le hid h.lists_le)).trans (h.list hid)
  dict hid := (h'.dict (Nat.lt_of_lt_of_le hid h.dicts_le)).trans (h.dict hid)
  builder hid := (h'.builder (Nat.lt_of_lt_of_le hid h.builders_le)).trans (h.builder hid)
  lists_le := h.lists_le.trans h'.lists_le
  dicts_le := h.dicts_le.trans h'.dicts_le
  builders_le := h.builders_le.trans h'.builders_le

theorem newList (s : Store) (items : Array Value) : s.Retains (s.newList items).2 :=
  { refl s with
    list := fun hid => getD_push_of_lt hid ..
    lists_le := by simp [Store.newList] }

theorem newDict (s : Store) (es : Entries Value) : s.Retains (s.newDict es).2 :=
  { refl s with
    dict := fun hid => getD_push_of_lt hid ..
    dicts_le := by simp [Store.newDict] }

theorem data (h : s.Retains t) (hv : s.Data v) : t.Data v := by
  induction hv with
  | scalar hv => exact .scalar hv
  | concat hid => exact .concat (Nat.lt_of_lt_of_le hid h.builders_le)
  | list hid _ ih =>
    refine .list (Nat.lt_of_lt_of_le hid h.lists_le) ?_
    rw [h.list hid]
    exact ih
  | dict hid hkeys _ ih =>
    refine .dict (Nat.lt_of_lt_of_le hid h.dicts_le) ?_ ?_ <;> rw [h.dict hid]
    · exact hkeys
    · exact ih

end Retains

theorem view_list_congr {id' : Nat} (hlist : t.list id' = s.list id)
    (h : ∀ v ∈ s.list id, ∀ depth, t.view depth v = s.view depth v) (depth : Nat) :
    t.view depth (.list id') = s.view depth (.list id) := by
  cases depth with
  | zero => rfl
  | succ depth =>
    rw [view, view, hlist]
    exact congrArg View.list
      (List.map_congr_left fun v hv => h v (Array.mem_toList_iff.1 hv) depth)

theorem view_dict_congr {id' : Nat} (hdict : t.dict id' = s.dict id)
    (h : ∀ e ∈ s.dict id, ∀ depth, t.view depth e.2 = s.view depth e.2) (depth : Nat) :
    t.view depth (.dict id') = s.view depth (.dict id) := by
  cases depth with
  | zero => rfl
  | succ depth =>
    rw [view, view, hdict]
    exact congrArg View.dict
      (List.map_congr_left fun e he => congrArg (Prod.mk e.1) (h e he depth))

theorem Extends.view (h : s.Extends t) (hv : s.Data v) (depth : Nat) :
    t.view depth v = s.view depth v := by
  induction hv generalizing depth with
  | @scalar v hv =>
    cases depth with
    | zero => rfl
    | succ depth =>
      cases v with
      | null | bool | int | float | text => rfl
      | _ => cases hv
  | concat hid =>
    cases depth with
    | zero => rfl
    | succ depth => exact congrArg (View.concat · _) (h.builder hid)
  | list hid _ ih => exact view_list_congr (h.list hid) ih depth
  | dict hid _ _ ih => exact view_dict_congr (h.dict hid) ih depth

theorem retains_of_copy (h : s.copy v = .ok (w, t)) : s.Retains t ∧ ∀ id, t.ref id = s.ref id := by
  cases v with
  | list id =>
    cases h
    exact ⟨.newList s _, fun _ => rfl⟩
  | dict id =>
    cases h
    exact ⟨.newDict s _, fun _ => rfl⟩
  | ref id =>
    cases h
    refine ⟨.of_eq rfl rfl rfl, fun id => ?_⟩
    simp only [ref, Array.getD_eq_getD_getElem?, Array.getElem?_push]
    split
    · rename_i hid
      rw [hid, Array.getElem?_eq_none (Nat.le_refl _)]
      rfl
    · rfl
  | _ =>
    cases h <;> exact ⟨.refl s, fun _ => rfl⟩

/-- A copy of what one store has is in another one: it was made on the way from
the first to the second. -/
def HasCopy (s t : Store) (v w : Value) : Prop :=
  ∃ s' t', s.Retains s' ∧ s'.copy v = .ok (w, t') ∧ t'.Retains t

namespace HasCopy

theorem mono {s' t' : Store} (hs : s.Retains s') (h : s'.HasCopy t v w) (ht : t.Retains t') :
    s.HasCopy t' v w := by
  obtain ⟨s₁, t₁, hs₁, hcopy, ht₁⟩ := h
  exact ⟨s₁, t₁, hs.trans hs₁, hcopy, ht₁.trans ht⟩

theorem eq_of_isScalar (h : s.HasCopy t v w) (hv : v.isScalar) : w = v := by
  obtain ⟨s', t', -, hcopy, -⟩ := h
  cases v with
  | null | bool | int | float | text =>
    cases hcopy
    rfl
  | _ => cases hv

theorem view (h : s.HasCopy t v w) (hv : s.Data v) (depth : Nat) :
    t.view depth w = s.view depth v := by
  obtain ⟨s', t', hretains, hcopy, hretains'⟩ := h
  have hv' := hretains.data hv
  rcases hv'.copy with ⟨_, _, -, hfails⟩ | ⟨p, t'', hcopy', hcopied⟩
  · cases hfails.symm.trans hcopy
  cases hcopy'.symm.trans hcopy
  have hmade := (retains_of_copy hcopy).1.trans hretains'
  rw [← hretains.toExtends.view hv depth]
  cases hcopied with
  | scalar hscalar => exact hmade.toExtends.view (.scalar hscalar) depth
  | @list id =>
    cases hv' with
    | scalar hscalar => cases hscalar
    | list hid hitems =>
      refine view_list_congr ?_ (fun v hv => hmade.toExtends.view (hitems v hv)) depth
      rw [hretains'.list (by simp [newList])]
      simp [newList, list]
  | @dict id =>
    cases hv' with
    | scalar hscalar => cases hscalar
    | dict hid hkeys hitems =>
      refine view_dict_congr ?_ (fun e he => hmade.toExtends.view (hitems e he)) depth
      rw [hretains'.dict (by simp [newDict])]
      simp [newDict, dict]

end HasCopy

/-- What is passed for an argument: a value itself, and for a reference what its
cell holds. -/
def contentOf (s : Store) (v : Value) : Except Fault Value :=
  if v.isRef then s.valueOf v else .ok v

theorem contentOf_congr (h : ∀ id, t.ref id = s.ref id) (v : Value) :
    t.contentOf v = s.contentOf v := by
  cases v with
  | ref id =>
    show t.valueOf (.ref id) = s.valueOf (.ref id)
    rw [valueOf, valueOf, h]
  | _ => rfl

/-- What a parameter gets for an argument: by value a copy of what this stands for,
by reference the reference itself. -/
def HandsOver (s t : Store) (byValue : Bool) (v w : Value) : Prop :=
  match byValue with
  | true => ∃ u, s.contentOf v = .ok u ∧ s.HasCopy t u w
  | false => v.isRef ∧ w = v

theorem HandsOver.mono {s' t' : Store} {byValue : Bool} (hs : s.Retains s')
    (hrefs : ∀ id, s'.ref id = s.ref id) (h : s'.HandsOver t byValue v w) (ht : t.Retains t') :
    s.HandsOver t' byValue v w := by
  cases byValue with
  | false => exact h
  | true =>
    obtain ⟨u, hu, hcopy⟩ := h
    exact ⟨u, (contentOf_congr hrefs v).symm.trans hu, hcopy.mono hs ht⟩

end Store

/-! ### Parameters -/

/-- All parameters are by value, and each has a slot of its own, which is neither
that of a superglobal nor that of a name which is declared global. -/
structure Bytecode.ByValue (b : Bytecode) : Prop where
  values : ∀ p ∈ b.parameters, p.2 = true
  superglobal : ∀ n < b.parameters.length, (n : Int) ∉ b.superglobals
  global : ∀ e ∈ b.globals, ∀ n < b.parameters.length, e.2 ≠ n

instance (b : Bytecode) : Decidable b.ByValue :=
  decidable_of_iff ((∀ p ∈ b.parameters, p.2 = true) ∧
      (∀ n < b.parameters.length, (n : Int) ∉ b.superglobals) ∧
      ∀ e ∈ b.globals, ∀ n < b.parameters.length, e.2 ≠ n)
    ⟨fun h => ⟨h.1, h.2.1, h.2.2⟩, fun h => ⟨h.values, h.superglobal, h.global⟩⟩

namespace Frame

variable {f g : Frame} {s t : Store} {slot : Int} {r : Value}

theorem retains_of_getReference (h : f.getReference s slot = .ok (r, g, t)) : s.Retains t := by
  cases refers_of_getReference h with
  | found => exact .refl s
  | made => exact .of_eq rfl rfl rfl

theorem exists_load_of_setReference (h : f.setReference s slot r = .ok (g, t)) :
    ∃ id, g.load slot = .ok (.ref id) := by
  obtain ⟨id, rfl, hputs⟩ := puts_of_setReference h
  cases hputs with
  | cell hload => exact ⟨_, hload⟩
  | slot _ _ hstore => exact ⟨id, load_of_store_self hstore⟩

theorem retains_of_setReference (h : f.setReference s slot r = .ok (g, t)) : s.Retains t := by
  obtain ⟨_, -, hputs⟩ := puts_of_setReference h
  cases hputs with
  | cell => exact .of_eq rfl rfl rfl
  | slot => exact .refl s

end Frame

namespace Exec

variable {frame frame' : Frame} {m m' : Machine}

theorem handsOver_of_bindArgument {byValue : Bool} {v w : Value}
    (h : (bindArgument byValue v).run m = .ok w m') :
    m.world.store.HandsOver m'.world.store byValue v w ∧ m.world.store.Retains m'.world.store ∧
      ∀ id, m'.world.store.ref id = m.world.store.ref id := by
  cases byValue with
  | false =>
    cases v with
    | ref id =>
      cases h
      exact ⟨⟨rfl, rfl⟩, .refl _, fun _ => rfl⟩
    | _ => cases h
  | true =>
    have hcontent : (bindArgument true v).run m
        = (fromStore (·.contentOf v) >>= fun u => onStore (·.copy u)).run m := by
      cases v <;> rfl
    rw [hcontent] at h
    obtain ⟨u, m₁, hu, hcopy⟩ := ok_of_run_bind h
    obtain ⟨hvalue, rfl⟩ := ok_of_run_fromStore hu
    obtain ⟨t, ht, rfl⟩ := store_of_run_onStore hcopy
    obtain ⟨hretains, hrefs⟩ := retains_of_copy ht
    exact ⟨⟨u, hvalue, m₁.world.store, t, .refl _, ht, .refl t⟩, hretains, hrefs⟩

theorem handsOver_of_bindParameters {i : Nat} {parameters : List (String × Bool)}
    (hfree : ∀ n < parameters.length, ∀ v, frame.load (i + n : Nat) = .ok v → v.isRef = false)
    (h : (bindParameters frame i args parameters).run m = .ok frame' m') :
    m.world.store.Retains m'.world.store ∧
      ∀ (n : Nat) name byValue, parameters[n]? = some (name, byValue) →
        ∃ v w, args[n]? = some v ∧ m.world.store.HandsOver m'.world.store byValue v w ∧
          frame'.load (i + n : Nat) = .ok w := by
  induction parameters generalizing frame i args m with
  | nil =>
    rw [bindParameters] at h
    cases h
    exact ⟨.refl _, fun n _ _ hn => by cases hn⟩
  | cons parameter rest ih =>
    cases args with
    | nil => cases h
    | cons v args =>
      obtain ⟨w, m₁, hargument, hrest⟩ := ok_of_run_bind h
      obtain ⟨hpasses, hretains, hrefs⟩ := handsOver_of_bindArgument hargument
      obtain ⟨frame₁, m₂, hstore, hlast⟩ := ok_of_run_bind hrest
      obtain ⟨t', hvariable, rfl⟩ := store_of_run_onStore hstore
      -- The slot holds no reference, so what is passed goes there and not into a cell.
      obtain ⟨old, hload, hput⟩ := ok_of_bind hvariable
      rw [hfree 0 (by simp) old hload] at hput
      obtain ⟨frame₂, hslot, hput⟩ := ok_of_bind hput
      cases hput
      have hother : ∀ n, frame₁.load (i + 1 + n : Nat) = frame.load (i + 1 + n : Nat) :=
        fun n => load_of_store hslot (by omega)
      obtain ⟨hretains', hothers⟩ := ih (fun n hn v hv => by
        rw [hother] at hv
        exact hfree (n + 1) (by simpa using hn) v (by rwa [Nat.add_right_comm] at hv)) hlast
      refine ⟨hretains.trans hretains', fun n name byValue hn => ?_⟩
      cases n with
      | zero =>
        cases hn
        refine ⟨v, w, rfl, hpasses.mono (.refl _) (fun _ => rfl) hretains', ?_⟩
        rw [load_of_bindParameters (fun n _ => by omega) hlast]
        exact load_of_store_self hslot
      | succ n =>
        obtain ⟨v', w', hv', hpasses', hload'⟩ := hothers n name byValue hn
        refine ⟨v', w', hv', hpasses'.mono hretains hrefs (.refl _), ?_⟩
        rwa [Nat.add_right_comm] at hload'

theorem retains_of_bindGlobals {globals : List (String × Int)}
    (h : (bindGlobals frame globals).run m = .ok frame' m') :
    m.world.store.Retains m'.world.store ∧
      ∀ slot, (∀ e ∈ globals, e.2 ≠ slot) → frame'.load slot = frame.load slot := by
  induction globals generalizing frame m with
  | nil =>
    cases h
    exact ⟨.refl _, fun _ _ => rfl⟩
  | cons entry rest ih =>
    obtain ⟨r, m₁, hget, hrest⟩ := ok_of_run_bind h
    obtain ⟨frame₁, m₂, hstore, hlast⟩ := ok_of_run_bind hrest
    obtain ⟨t, hset, rfl⟩ := store_of_run_onStore hstore
    obtain ⟨hretains, hloads⟩ := ih hlast
    have hgets : m.world.store.Retains m₁.world.store := by
      replace hget : (getReference (m.current.frame.code.slotOf entry.1)).run m = .ok r m₁ := hget
      obtain ⟨_, _, hresult, rfl⟩ := ok_of_run_getReference hget
      exact retains_of_getReference hresult
    refine ⟨hgets.trans ((retains_of_setReference hset).trans hretains), fun slot hslot => ?_⟩
    obtain ⟨hentry, hslots⟩ := List.forall_mem_cons.1 hslot
    rw [hloads slot hslots]
    exact (load_of_setReference hset).1 slot hentry.symm

end Exec

theorem Exec.cells_of_bindGlobals {frame frame' : Frame} {globals : List (String × Int)}
    (h : (bindGlobals frame globals).run m = .ok frame' m') :
    ∀ e ∈ globals, ∃ id, frame'.load e.2 = .ok (.ref id) := by
  induction globals generalizing frame m with
  | nil => exact fun e he => absurd he List.not_mem_nil
  | cons entry rest ih =>
    obtain ⟨r, m₁, hget, hrest⟩ := ok_of_run_bind h
    obtain ⟨frame₁, m₂, hset, hlast⟩ := ok_of_run_bind hrest
    obtain ⟨s, hframe, -⟩ := store_of_run_onStore hset
    refine List.forall_mem_cons.2 ⟨?_, ih hlast⟩
    obtain ⟨id, hload⟩ := exists_load_of_setReference hframe
    exact ⟨id, (bindGlobals_settles hlast).load hload⟩

theorem Machine.Calls.binds {code : Bytecode}
    (h : m.Calls id args) (hcallee : m.world.store.code id = code)
    (hsuperglobal : ∀ n < code.parameters.length, (n : Int) ∉ code.superglobals)
    (hglobal : ∀ e ∈ code.globals, ∀ n < code.parameters.length, e.2 ≠ n)
    (hstep : Machine.step.run m = .ok .running m') :
    (m'.current.frame.code = code ∧ m'.current.pos = 0) ∧
    (∀ (n : Nat) name byValue, code.parameters[n]? = some (name, byValue) →
      ∃ v w, args[n]? = some v ∧ m.world.store.HandsOver m'.world.store byValue v w ∧
        m'.current.frame.load n = .ok w) ∧
    (∀ e ∈ code.globals, ∃ id, m'.current.frame.load e.2 = .ok (.ref id)) ∧
    ∃ first, new m.interpreter.superglobals code = .ok first ∧
      ∀ slot, (∀ e ∈ code.globals, e.2 ≠ slot) → (∀ n < code.parameters.length, slot ≠ n) →
        m'.current.frame.load slot = first.load slot := by
  obtain ⟨frame, rest, m₂, -, henter, rfl⟩ := h.step hstep
  rw [hcallee] at henter
  obtain ⟨first, second, m₁, hnew, hparameters, hglobals, -⟩ := ok_of_run_enterFunction henter
  obtain ⟨-, hpasses⟩ := handsOver_of_bindParameters (fun n hn v hload => by
    rw [Nat.zero_add] at hload
    rw [(new_spec hnew).2.2 (hsuperglobal n hn) hload]
    rfl) hparameters
  obtain ⟨hretains, hloads⟩ := retains_of_bindGlobals hglobals
  refine ⟨⟨(enterFunction_frame henter).1, rfl⟩, fun n name byValue hn => ?_,
    cells_of_bindGlobals hglobals, first, hnew, fun slot hslot hother => ?_⟩
  · obtain ⟨v, w, hv, hpassed, hload⟩ := hpasses n name byValue hn
    refine ⟨v, w, hv, hpassed.mono (.refl _) (fun _ => rfl) hretains, ?_⟩
    show frame.load n = .ok w
    rw [hloads n fun e he => hglobal e he n (List.getElem?_eq_some_iff.1 hn).1]
    rwa [Nat.zero_add] at hload
  · show frame.load slot = first.load slot
    rw [hloads slot hslot]
    exact load_of_bindParameters (by simpa using hother) hparameters

/-- A function with parameters by value that is entered has in its slots copies of
what the arguments stood for at the call. -/
theorem Machine.Calls.copies (h : m.Calls id args) (hcode : (m.world.store.code id).ByValue)
    (hstep : Machine.step.run m = .ok .running m') {n : Nat} {v : Value}
    (hn : n < (m.world.store.code id).parameters.length) (hv : args[n]? = some v) :
    ∃ u w, m.world.store.contentOf v = .ok u ∧ m.world.store.HasCopy m'.world.store u w ∧
      m'.current.frame.load n = .ok w := by
  obtain ⟨⟨name, byValue⟩, hparameter⟩ : ∃ p, (m.world.store.code id).parameters[n]? = some p :=
    ⟨_, List.getElem?_eq_getElem hn⟩
  obtain rfl : byValue = true := hcode.values _ (List.mem_of_getElem? hparameter)
  obtain ⟨_, w, hv', ⟨u, hu, hcopy⟩, hload⟩ :=
    (h.binds rfl hcode.superglobal hcode.global hstep).2.1 n name true hparameter
  cases hv.symm.trans hv'
  exact ⟨u, w, hu, hcopy, hload⟩

/-! ### From left to right -/

theorem Eval.exists_of_getReference {slot : Int} {S T : Situation} {r : Value}
    (h : (act (getReference slot)).run S = .ok r T) :
    ∃ frame store, (bareFrame S).getReference S.world.store slot = .ok (r, frame, store) ∧
      T = { S with world := { S.world with store := store }, slots := frame.slots } := by
  have hframe : (S.under default).current.frame.getReference S.world.store slot
      = ((bareFrame S).getReference S.world.store slot).map fun p =>
          (p.1, (S.under default).current.frame.withSlots p.2.1, p.2.2) :=
    getReference_congr (f := (S.under default).current.frame) (g := bareFrame S) rfl _ _
  have hstore : (S.under default).world.store = S.world.store := rfl
  rw [run_act, seen, run_getReference, hstore, hframe] at h
  cases hreference : (bareFrame S).getReference S.world.store slot with
  | error e =>
    rw [hreference] at h
    cases h
  | ok p =>
    rw [hreference] at h
    cases h
    exact ⟨p.2.1, p.2.2, rfl, rfl⟩

namespace Node

variable {fuel : Nat} {node : Node} {before after : List Node} {S T S₁ S₂ : Situation}
  {args : List Value} {v x : Value}

open Eval

/-- What is passed for an argument: for a variable, a reference to it. -/
def argument (fuel : Nat) : Node → Eval Value
  | .variable _ slot => act (getReference slot)
  | node => node.eval fuel

theorem argument_eq_eval (h : node.isVariable = false) : node.argument fuel = node.eval fuel := by
  cases node with
  | «variable» => cases h
  | _ => rfl

theorem evalArguments_append (before after : List Node) :
    evalArguments fuel (before ++ after) = do
      let vs ← evalArguments fuel before
      let ws ← evalArguments fuel after
      return vs ++ ws := by
  induction before with
  | nil => simp [evalArguments]
  | cons node before ih => simp [evalArguments_cons, ih]

/-- An argument is evaluated when those before it have been, and then those after
it are. -/
structure Moment (fuel : Nat) (S : Situation) (before : List Node) (node : Node)
    (after : List Node) (T S₁ : Situation) (v : Value) (S₂ : Situation) : Prop where
  before : ∃ vs, (evalArguments fuel before).run S = .ok vs S₁
  here : (node.argument fuel).run S₁ = .ok v S₂
  after : ∃ vs, (evalArguments fuel after).run S₂ = .ok vs T

theorem exists_moment (h : (evalArguments fuel (before ++ node :: after)).run S = .ok args T) :
    ∃ S₁ v S₂, Moment fuel S before node after T S₁ v S₂ ∧ args[before.length]? = some v := by
  rw [evalArguments_append] at h
  obtain ⟨vs, S₁, hbefore, hrest⟩ := ok_of_run_bind h
  obtain ⟨ws, S₃, htail, hlast⟩ := ok_of_run_bind hrest
  cases hlast
  rw [evalArguments_cons] at htail
  obtain ⟨v, S₂, hnode, hrest⟩ := ok_of_run_bind htail
  obtain ⟨ws', S₃, hafter, hlast⟩ := ok_of_run_bind hrest
  cases hlast
  refine ⟨S₁, v, S₂, ⟨⟨vs, hbefore⟩, ?_, ws', hafter⟩, ?_⟩
  · cases node <;> exact hnode
  · rw [← length_of_evalArguments hbefore]
    simp

theorem contentOf_of_argument (h : (node.argument fuel).run S = .ok v T)
    (hx : (node.eval fuel).run S = .ok x S₁) (hplain : x.isRef = false) :
    T.world.store.contentOf v = .ok x := by
  cases hvariable : node.isVariable with
  | true =>
    obtain ⟨name, slot, rfl⟩ : ∃ name slot, node = .variable name slot := by
      cases node with
      | «variable» name slot => exact ⟨name, slot, rfl⟩
      | _ => cases hvariable
    rw [eval] at hx
    obtain ⟨rfl, hget⟩ := eq_of_requireVariable hx
    obtain ⟨frame, store, hreference, rfl⟩ := exists_of_getReference h
    obtain ⟨held, hload, hget⟩ := ok_of_bind hget
    obtain ⟨held', hload', hreference⟩ := ok_of_bind hreference
    obtain rfl : held = held' := Except.ok.inj (hload.symm.trans hload')
    split at hreference
    · cases hreference
      cases v with
      | ref id => exact hget
      | _ => contradiction
    · rename_i hheld
      rw [if_neg hheld] at hget
      obtain ⟨_, -, hreference⟩ := ok_of_bind hreference
      cases hreference
      cases hget
      show (S₁.world.store.newRef x).2.valueOf (.ref S₁.world.store.refs.size) = .ok x
      simp [newRef, valueOf, ref]
  | false =>
    rw [argument_eq_eval hvariable] at h
    cases h.symm.trans hx
    rw [contentOf, hplain]
    rfl

end Node

/-! ### At the call -/

namespace Machine.Before

variable {m m₁ : Machine} {callee : Node} {nodes : List Node} {finish : Nat}

theorem does_arguments (h : m.Before (.call callee (.argumentList nodes)) finish) :
    m.control.code.code[finish - 1]? = some (.call nodes.length) ∧
      ∀ fuel, Does m.control (finish - 1) fuel (do
        let args ← evalArguments fuel nodes
        let f ← callee.eval fuel
        return (args, f)) (m.current.pos, m.current.frame.stack)
        fun p => (finish - 1, p.2 :: (p.1.reverse ++ m.current.frame.stack)) := by
  obtain ⟨p, htidy⟩ := h.tidy
  obtain ⟨scopes, hhosts, rfl⟩ := h.hosts
  cases htidy with
  | call hnodes hcallee =>
    simp only [layout, hosts_append, hosts_cons, List.length_append, length_layout,
      width, ← Nat.add_assoc] at hhosts
    obtain ⟨⟨hargs, hf⟩, hcall, -⟩ := hhosts
    rw [length_layoutArguments] at hf hcall
    have hfinish : m.current.pos + (call callee (.argumentList nodes)).width - 1
        = m.current.pos + widthAll nodes + callee.width := by
      simp only [width]
      omega
    rw [hfinish]
    refine ⟨hcall.1, fun fuel => ?_⟩
    refine .bind (does_evalArguments (fun n hn => (hnodes n hn).simulates) hargs (by omega))
      fun args hrun => ?_
    obtain ⟨S, T, hrun⟩ := hrun
    have hlength := length_of_evalArguments hrun
    have hf' : Hosts m.control (m.current.pos + widthAll nodes)
        (callee.layout scopes (m.current.pos + widthAll nodes)
          (args.reverse ++ m.current.frame.stack).length {}) := by
      simpa [count, nodes?, hlength, Nat.add_comm] using hf
    exact .bind (hcallee.simulates hf' (Nat.le_refl _)) fun f _ => .pure rfl

theorem exists_arguments (h : m.Before (.call callee (.argumentList nodes)) finish)
    (hreaches : m.Reaches (finish - 1) m₁) :
    m₁.next? = some (.call nodes.length) ∧ ∃ fuel args S f,
      (evalArguments fuel nodes).run m.situation = .ok args S ∧
      (callee.eval fuel).run S = .ok f m₁.situation ∧
      m₁.current.frame.stack = f :: (args.reverse ++ m.current.frame.stack) := by
  obtain ⟨hcall, hdoes⟩ := h.does_arguments
  have hm : m.Stands m.control m.situation m.current.pos m.current.frame.stack :=
    ⟨m.steps, m.stackFault, m.situation_under_control.symm⟩
  obtain ⟨p, fuel, T, hrun, steps, fault, rfl⟩ := Does.ok_of_reaches hdoes hm hreaches
  obtain ⟨args, S, hargs, hrest⟩ := ok_of_run_bind hrun
  obtain ⟨f, S', hf, hlast⟩ := ok_of_run_bind hrest
  cases hlast
  exact ⟨hcall, fuel, args, S, f, hargs, hf, rfl⟩

end Machine.Before

/-- What a parameter by value gets for its argument.

The arguments before it are evaluated, then the argument, then those after it and
the function; then the function is entered, and the parameter has a copy of what
the argument stands for at that time.  For an expression that is no variable this
is its value, and if that is a scalar the parameter has just this.  In general the
parameter has what the argument had when it was evaluated just if what the
argument stands for looks the same at the call. -/
theorem argument_received {m m₁ m₂ : Machine} {callee node : Node} {before after : List Node}
    {finish id : Nat}
    (hm : m.Before (.call callee (.argumentList (before ++ node :: after))) finish)
    (hreaches : m.Reaches (finish - 1) m₁)
    (hfunction : m₁.current.frame.stack.head? = some (.code id))
    (hcode : (m₁.world.store.code id).ByValue)
    (hparameter : before.length < (m₁.world.store.code id).parameters.length)
    (hstep : Machine.step.run m₁ = .ok .running m₂) :
    ∃ fuel S S₁ v S₂ u w, Node.Moment fuel m.situation before node after S S₁ v S₂ ∧
      (callee.eval fuel).run S = .ok (.code id) m₁.situation ∧
      m₁.world.store.contentOf v = .ok u ∧ m₁.world.store.HasCopy m₂.world.store u w ∧
      m₂.current.frame.load before.length = .ok w ∧
      ∀ x S', (node.eval fuel).run S₁ = .ok x S' → x.isRef = false →
        S₂.world.store.contentOf v = .ok x ∧ (node.isVariable = false → u = x) ∧
        (u = x → x.isScalar → w = x) ∧
        (m₁.world.store.Data u →
          ((∀ depth, m₂.world.store.view depth w = S₂.world.store.view depth x) ↔
            ∀ depth, m₁.world.store.view depth u = S₂.world.store.view depth x)) := by
  obtain ⟨hnext, fuel, args, S, f, hargs, hf, hstack⟩ := hm.exists_arguments hreaches
  rw [hstack] at hfunction
  cases hfunction
  have hcalls : m₁.Calls id args :=
    ⟨_, _, hnext, (Node.length_of_evalArguments hargs).trans (Int.toNat_natCast _).symm, hstack⟩
  obtain ⟨S₁, v, S₂, hmoment, hv⟩ := Node.exists_moment hargs
  obtain ⟨u, w, hu, hcopy, hload⟩ := hcalls.copies hcode hstep hparameter hv
  refine ⟨fuel, S, S₁, v, S₂, u, w, hmoment, hf, hu, hcopy, hload, fun x S' hx hplain => ?_⟩
  refine ⟨Node.contentOf_of_argument hmoment.here hx hplain, fun hnode => ?_, ?_, fun hdata => ?_⟩
  · have hhere := hmoment.here
    rw [Node.argument_eq_eval hnode] at hhere
    cases hhere.symm.trans hx
    rw [Store.contentOf, hplain] at hu
    exact (Except.ok.inj hu).symm
  · rintro rfl hscalar
    exact hcopy.eq_of_isScalar hscalar
  · simp only [hcopy.view hdata]

def steppingCallItems : List Item :=
  [.instr (.loadVar 0 "$x"), .instr (.loadConstant 0), .instr (.binary .add),
    .instr (.loadVar 0 "$x"), .instr .dup, .instr (.unary .incr), .instr (.assign 0 "$x"),
    .instr .discardTop, .instr (.loadFunction "f"), .instr (.call 2)]

/-- A machine before this code, with 1 in `$x`, and a function with two parameters
by value. -/
def beforeSteppingCall : Machine where
  world := { store := { codes := #[{ (default : Bytecode) with
    symbols := .node (.node .root (some "$p")) (some "$q")
    parameters := [("$p", true), ("$q", true)]
    code := #[.loadNull, .returnTop]
    stackSize := 1 }] } }
  interpreter := { functions := [("f", .code 0)] }
  current :=
    { frame :=
        { code := { (default : Bytecode) with
            constants := #[.int 1]
            code := #[.loadVar 0 "$x", .loadConstant 0, .binary .add, .loadVar 0 "$x", .dup,
              .unary .incr, .assign 0 "$x", .discardTop, .loadFunction "f", .call 2] }
          capacity := 4
          slots := #[.int 1] } }

/-- The first parameter gets 2, which the sum was before the variable was
changed. -/
theorem argument_received_stepping :
    ∃ m₁ m₂, beforeSteppingCall.Reaches 9 m₁ ∧ m₁.current.frame.slots = #[.int 2] ∧
      Machine.step.run m₁ = .ok .running m₂ ∧ m₂.current.frame.load 0 = .ok (.int 2) := by
  have hm : beforeSteppingCall.Before (.call (.identifier "f") (.argumentList ([] ++
      .binary .add (.variable "$x" 0) (.constantInt 1 0) ::
        [.assignment "$x" 0 .empty "++" true]))) 10 := by
    refine ⟨⟨.inner, .call ?_ .identifier⟩, fun _ => {}, {},
      { items := steppingCallItems.toArray }, steppingCallItems, [], by decide, rfl, rfl, ?_, rfl, ?_⟩
    · simp only [List.nil_append, List.forall_mem_cons]
      exact ⟨.binary .variable .constantInt, .step (by decide), by simp⟩
    · simp [steppingCallItems, Instr.retarget, beforeSteppingCall]
    · decide
  obtain ⟨m₁, hcourse, hcallers, hpos, hfunction, hslots, hcode, hparameter, m₂, hstep, -⟩ :
      ∃ m₁, Machine.Course (fun m => ¬(m.callers.length = 0 ∧ m.current.pos = 9)) 9
        beforeSteppingCall m₁ ∧ m₁.callers.length = 0 ∧ m₁.current.pos = 9 ∧
      m₁.current.frame.stack.head? = some (.code 0) ∧ m₁.current.frame.slots = #[.int 2] ∧
      (m₁.world.store.code 0).ByValue ∧ 0 < (m₁.world.store.code 0).parameters.length ∧
      ∃ m₂, Machine.step.run m₁ = .ok .running m₂ ∧ True := by decide +kernel
  have hreaches : beforeSteppingCall.Reaches 9 m₁ :=
    ⟨9, hcourse.mono fun m hm hat => hm ⟨List.length_eq_zero_iff.2 hat.1, hat.2⟩,
      List.length_eq_zero_iff.1 hcallers, hpos⟩
  obtain ⟨fuel, S, S₁, v, S₂, u, w, hmoment, -, -, -, hload, hvalue⟩ :=
    argument_received hm hreaches hfunction hcode hparameter hstep
  obtain ⟨⟨_, hbefore⟩, -, -⟩ := hmoment
  cases hbefore
  obtain ⟨-, hnode, hscalar, -⟩ := hvalue (.int 2) _ rfl rfl
  obtain rfl := hscalar (hnode rfl) rfl
  exact ⟨m₁, m₂, hreaches, hslots, hstep, hload⟩

open Sample

/-- `function f($p, $q) { print $p; } $x = 1; f($x, $x++);` -/
def lateArgumentTree : Tree := programTree [
  declarationTree "f" [parameterTree "$p", parameterTree "$q"] [printTree (variableTree "$p")],
  assignTree "$x" (numeral "1"),
  expressionTree (callTree "f"
    [variableTree "$x", .branch "postfixexpression" [variableTree "$x", token "++"]])]

/-- When the first argument has been evaluated the variable is 1, but the function
is entered with 2. -/
theorem argument_received_late :
    ∃ s b start m m', Script.ofTree lateArgumentTree = .ok s ∧ s.compile "main" = .ok b ∧
      Machine.launch {} {} b = .ok start ∧ Machine.Course (fun _ => True) 5 start m ∧
      m.current.frame.stack = [.ref 0] ∧ m.world.store.ref 0 = some (.int 1) ∧
      Machine.Course (fun _ => True) 7 m m' ∧ m'.next? = some (.loadVar 0 "$p") ∧
      m'.current.frame.slots = #[.int 2, .int 1] := by
  obtain ⟨s, hread, b, hcompile, start, hlaunch, m, hcourse, hstack, hcell, m', hlater⟩ :
      lateArgumentTree.ComesTo {} {} 5 fun _ _ m => m.current.frame.stack = [.ref 0] ∧
      m.world.store.ref 0 = some (.int 1) ∧
      ∃ m', Machine.Course (fun _ => True) 7 m m' ∧ m'.next? = some (.loadVar 0 "$p") ∧
        m'.current.frame.slots = #[.int 2, .int 1] := by decide +kernel
  exact ⟨s, b, start, m, m', hread, hcompile, hlaunch, hcourse, hstack, hcell, hlater⟩

end PageScript
