/-
Stores into nested arrays.

`$a[k1]...[kn]` is read by following a path of keys (`Store.follow`).  What is stored into
the array that all keys but the last lead to is found at the end of the path
(`follow_of_putMember`), unless the path passes the place that is stored into.  If that
array is a list and the key is no integer, a new dictionary takes its place; in an array
around it the list stays, and what was stored is lost (`nested_store`).
-/
import PageScript.Proofs.Elements

open EStateM (Result)

namespace PageScript

open List Store Node

/-- Integers that are not negative, and texts. -/
def Value.isKey : Value → Bool
  | .int i => decide (0 ≤ i)
  | .text _ | .concat _ _ => true
  | _ => false

theorem Entries.get?_put_of_ne {α : Type} {es : Entries α} {key other : String} (v : α)
    (h : other ≠ key) : (es.put key v).get? other = es.get? other := by
  induction es with
  | nil => simp [put, get?, h]
  | cons e es ih =>
    obtain ⟨k, old⟩ := e
    rw [put]
    split
    · rename_i hk
      have hne : (other == k) = false := beq_false_of_ne (hk ▸ h)
      rw [get?, get?, lookup_cons, lookup_cons, hne]
    · rw [get?, get?, lookup_cons, lookup_cons]
      split
      · rfl
      · exact ih

namespace Store

variable {s t : Store} {a b array' inner key k v : Value} {keys : List Value} {x : String}

/-! ### Elements elsewhere -/

theorem place?_putItem_of_ne {items items' : Array Value} {i j : Int} {w : Value}
    (h : putItem items j v = .ok items') (hi : 0 ≤ i) (hj : 0 ≤ j) (hne : i ≠ j)
    (hget : ((place? items.size i).bind fun n => items[n]?) = some w) :
    ((place? items'.size i).bind fun n => items'[n]?) = some w := by
  obtain ⟨i, rfl⟩ := Int.eq_ofNat_of_zero_le hi
  obtain ⟨j, rfl⟩ := Int.eq_ofNat_of_zero_le hj
  have hplace : ∀ size n : Nat, n < size → place? size (n : Int) = some n := by
    intro size n hn
    simp [place?, hn]
  have hlt : i < items.size := by
    by_contra hge
    have hnone : place? items.size (i : Int) = none := by simp [place?, hge]
    rw [hnone] at hget
    cases hget
  rw [hplace _ _ hlt, Option.bind_some] at hget
  unfold putItem at h
  split at h
  · rename_i n hn
    cases h
    have hnj : n = j := by
      unfold place? at hn
      split at hn
      · split at hn <;> cases hn
        rfl
      · omega
    rw [Array.size_setIfInBounds, hplace _ _ hlt, Option.bind_some,
      Array.getElem?_setIfInBounds_ne (by omega)]
    exact hget
  · split at h
    · cases h
    · dsimp only at h
      split at h
      · cases h
      · cases h
        have hlt' : i < (items ++ Array.replicate ((j : Int) - items.size).toNat Value.null).size := by
          rw [Array.size_append]
          omega
        rw [hplace _ _ (by rw [Array.size_push]; omega), Option.bind_some,
          Array.getElem?_push_lt hlt', ← Array.getElem?_eq_getElem, Array.getElem?_append_left hlt]
        exact hget

theorem keyText_eq (h : s.textOf key = .ok x) : s.keyText key = x := by
  rw [keyText, h]

theorem lt_of_getMember_list {id : Nat} (h : s.getMember (.list id) key = .ok v) :
    id < s.lists.size := by
  by_contra hge
  have hlist : s.list id = #[] := by
    simp [list, Array.getD_eq_getD_getElem?, Array.getElem?_eq_none (Nat.le_of_not_lt hge)]
  cases key with
  | int i => simp [getMember, hlist] at h
  | _ => exact missingKey_ne_ok h

theorem lt_of_getMember_dict {id : Nat} (h : s.getMember (.dict id) key = .ok v) :
    id < s.dicts.size := by
  by_contra hge
  have hdict : s.dict id = [] := by
    simp [dict, Array.getD_eq_getD_getElem?, Array.getElem?_eq_none (Nat.le_of_not_lt hge)]
  obtain ⟨x, -, h⟩ := ok_of_bind h
  rw [hdict] at h
  exact missingKey_ne_ok h

/-! ### Paths through the store -/

def follow (s : Store) (a : Value) (keys : List Value) : Except Fault Value :=
  keys.foldlM s.getMember a

theorem follow_cons (s : Store) (a k : Value) (keys : List Value) :
    s.follow a (k :: keys) = s.getMember a k >>= fun b => s.follow b keys := by
  rw [follow, foldlM_cons]
  rfl

theorem follow_concat (s : Store) (a k : Value) (keys : List Value) :
    s.follow a (keys ++ [k]) = s.follow a keys >>= fun b => s.getMember b k := by
  rw [follow, foldlM_append]
  refine bind_congr fun b => ?_
  rw [foldlM_cons]
  cases s.getMember b k <;> rfl

/-- A path goes through the element of an array under a key. -/
def Passes (s : Store) (inner key : Value) : Value → List Value → Prop
  | _, [] => False
  | a, k :: keys =>
    (a = inner ∧ s.keyText k = s.keyText key) ∨ ∃ b, s.getMember a k = .ok b ∧ s.Passes inner key b keys

/-- An array stays the one it is when something is stored under a key. -/
def Stays (array key : Value) : Prop := (∃ id, array = .dict id) ∨ ∃ i, key = .int i

variable (hput : s.putMember inner key v = .ok (array', t))

include hput

theorem eq_of_stays (h : Stays inner key) : array' = inner := by
  rcases h with ⟨id, rfl⟩ | ⟨i, rfl⟩
  · obtain ⟨x, -, hput⟩ := ok_of_bind hput
    cases hput
    rfl
  · cases inner with
    | list id =>
      obtain ⟨items, -, hput⟩ := ok_of_bind hput
      cases hput
      rfl
    | dict id =>
      obtain ⟨x, -, hput⟩ := ok_of_bind hput
      cases hput
      rfl
    | _ => cases hput

variable (hkey : key.isKey)

include hkey

theorem getMember_of_putMember_of_ne (hk : k.isKey) (hne : a = inner → s.keyText k ≠ s.keyText key)
    (hget : s.getMember a k = .ok b) : t.getMember a k = .ok b := by
  cases inner with
  | list id =>
    by_cases hint : ∃ j, key = .int j
    · obtain ⟨j, rfl⟩ := hint
      obtain ⟨items, hitems, hput⟩ := ok_of_bind hput
      cases hput
      by_cases ha : a = .list id
      · subst ha
        cases k with
        | int i =>
          have hij : i ≠ j := fun h => hne rfl (by rw [h])
          have hlist : (s.setList id items).list id = items := by
            have hid : id < s.lists.size := lt_of_getMember_list hget
            simp [list, setList, Array.getD_eq_getD_getElem?, hid]
          simp only [getMember] at hget ⊢
          split at hget
          · cases hget
            rename_i hitem
            rw [hlist, place?_putItem_of_ne hitems (of_decide_eq_true hk) (of_decide_eq_true hkey)
              hij hitem]
          · cases hget
        | _ => exact absurd hget missingKey_ne_ok
      · refine getMember_congr (s := s) (fun id' ha' => ?_) (fun _ _ => rfl) rfl hget
        have hid : id ≠ id' := fun h => ha (h ▸ ha')
        simp only [list, setList, getD_setIfInBounds_of_ne hid]
    · -- The list stays, and a new dictionary is not one that elements were found in.
      have hturned : ∃ es, t = (s.newDict es).2 := by
        cases key with
        | int j => exact absurd ⟨j, rfl⟩ hint
        | _ =>
          obtain ⟨x, -, hput⟩ := ok_of_bind hput
          cases hput
          exact ⟨_, rfl⟩
      obtain ⟨es, rfl⟩ := hturned
      refine getMember_congr (s := s) (fun _ _ => rfl) (fun id' ha => ?_) rfl hget
      subst ha
      exact getD_push_of_lt (lt_of_getMember_dict hget) ..
  | dict id =>
    obtain ⟨x, hx, hput⟩ := ok_of_bind hput
    cases hput
    by_cases ha : a = .dict id
    · subst ha
      have hid : id < s.dicts.size := lt_of_getMember_dict hget
      obtain ⟨y, hy, hget⟩ := ok_of_bind hget
      have hxy : y ≠ x := by
        rw [← keyText_eq hx, ← keyText_eq hy]
        exact hne rfl
      have hdict : (s.setDict id ((s.dict id).put x v)).dict id = (s.dict id).put x v := by
        simp [dict, setDict, Array.getD_eq_getD_getElem?, hid]
      have htext : (s.setDict id ((s.dict id).put x v)).textOf k = .ok y :=
        (textOf_congr rfl k).trans hy
      simp only [getMember, htext, bind, Except.bind, hdict, Entries.get?_put_of_ne v hxy]
      split at hget
      · exact hget
      · exact absurd hget missingKey_ne_ok
    · refine getMember_congr (s := s) (fun _ _ => rfl) (fun id' ha' => ?_) rfl hget
      have hid : id ≠ id' := fun h => ha (h ▸ ha')
      simp only [dict, setDict, getD_setIfInBounds_of_ne hid]
  | _ => cases hput

theorem follow_of_not_passes (hkeys : ∀ k ∈ keys, k.isKey) (hpasses : ¬s.Passes inner key a keys)
    (h : s.follow a keys = .ok b) : t.follow a keys = .ok b := by
  induction keys generalizing a with
  | nil => exact h
  | cons k keys ih =>
    obtain ⟨hk, hkeys⟩ := forall_mem_cons.1 hkeys
    rw [Passes, not_or] at hpasses
    obtain ⟨hne, hrest⟩ := hpasses
    rw [follow_cons] at h ⊢
    obtain ⟨c, hget, h⟩ := ok_of_bind h
    have hget' : t.getMember a k = .ok c :=
      getMember_of_putMember_of_ne hput hkey hk (fun ha htext => hne ⟨ha, htext⟩) hget
    rw [hget']
    exact ih hkeys (fun hpass => hrest ⟨c, hget, hpass⟩) h

theorem follow_of_putMember (hkeys : ∀ k ∈ keys, k.isKey) (hpasses : ¬s.Passes inner key a keys)
    (h : s.follow a keys = .ok inner) (harray : s.HasArray inner) (hstays : Stays inner key) :
    t.follow a (keys ++ [key]) = .ok v := by
  have hget := getMember_of_putMember harray hput
  rw [eq_of_stays hput hstays] at hget
  rw [follow_concat, follow_of_not_passes hput hkey hkeys hpasses h]
  exact hget

theorem exists_follow_eq_error (hkeys : ∀ k ∈ keys, k.isKey) (hpasses : ¬s.Passes inner key a keys)
    (h : s.follow a keys = .ok inner) (harray : s.HasArray inner) (hstays : ¬Stays inner key) :
    ∃ f, t.follow a (keys ++ [key]) = .error f := by
  rw [follow_concat, follow_of_not_passes hput hkey hkeys hpasses h]
  cases hget : t.getMember inner key with
  | error f => exact ⟨f, by simp only [bind, Except.bind, hget]⟩
  | ok w =>
    cases inner with
    | list id =>
      cases key with
      | int i => exact absurd (.inr ⟨i, rfl⟩) hstays
      | _ => exact absurd hget missingKey_ne_ok
    | dict id => exact absurd (.inl ⟨id, rfl⟩) hstays
    | _ => exact harray.elim

end Store

/-! ### Elements of elements -/

namespace Eval

/-- The outcome of an evaluation that changes nothing. -/
def settled {α : Type} (r : Except Fault α) (S : Situation) : Result Halt Situation α :=
  match r with
  | .ok v => .ok v S
  | .error f => .error (.fault f) S

end Eval

namespace Node

variable {S : Situation} {base index : Node} {indices : List Node} {keys : List Value}
  {a key v : Value} {r : Except Fault Value}

def element (base : Node) (indices : List Node) : Node := indices.foldl .member base

/-- The node has this value in a situation, or fails like this, and changes
nothing. -/
def Settles (S : Situation) (node : Node) (r : Except Fault Value) : Prop :=
  ∀ fuel, (node.eval fuel).run S = Eval.settled r S

/-- The node has this value in a situation, and changes nothing. -/
def Denotes (S : Situation) (node : Node) (v : Value) : Prop := Settles S node (.ok v)

theorem Settles.member (hbase : base.Settles S r) (hindex : index.Denotes S key) :
    (member base index).Settles S (r >>= fun b => S.world.store.getMember b key) := by
  intro fuel
  have hkey : (index.eval fuel).run S = .ok key S := hindex fuel
  rw [eval, EStateM.run_bind, hkey]
  simp only [EStateM.run_bind, hbase fuel]
  cases r with
  | error f => rfl
  | ok b =>
    show (Eval.act (Exec.fromStore _)).run S = _
    rw [Eval.run_act_fromStore]
    show _ = Eval.settled (S.world.store.getMember b key) S
    cases S.world.store.getMember b key <;> rfl

theorem Settles.element (hbase : base.Settles S r)
    (hkeys : Forall₂ (Denotes S) indices keys) :
    (base.element indices).Settles S (r >>= fun a => S.world.store.follow a keys) := by
  induction hkeys generalizing base r with
  | nil =>
    rw [show (fun a => S.world.store.follow a []) = pure from rfl, bind_pure]
    exact hbase
  | @cons index key indices keys hindex _ ih =>
    have hrest := ih (hbase.member hindex)
    rw [bind_assoc] at hrest
    simp only [follow_cons]
    exact hrest

theorem Denotes.element (hbase : base.Denotes S a)
    (hkeys : Forall₂ (Denotes S) indices keys) :
    (base.element indices).Settles S (S.world.store.follow a keys) :=
  Settles.element hbase hkeys

theorem exists_member_of_element (base : Node) (h : indices ≠ []) :
    ∃ b i, base.element indices = .member b i := by
  rw [← dropLast_concat_getLast h, element, foldl_append]
  exact ⟨_, _, rfl⟩

end Node

/-! ### The path to an element -/

/-- A variable and indices lead to an array that is in the store, along a path of
keys, and a last index has a key.  The path does not go through the element that
the array has under that key. -/
structure Situation.Path (S : Situation) (name : String) (slot : Int) (indices : List Node)
    (index : Node) (a : Value) (keys : List Value) (inner key : Value) : Prop where
  base : (Node.variable name slot).Denotes S a
  indices : Forall₂ (Denotes S) indices keys
  index : index.Denotes S key
  isKey : key.isKey
  areKeys : ∀ k ∈ keys, k.isKey
  follow : S.world.store.follow a keys = .ok inner
  array : S.world.store.HasArray inner
  direct : ¬S.world.store.Passes inner key a keys

namespace Eval

variable {fuel : Nat} {name : String} {slot : Int} {indices : List Node} {index right : Node}
  {S T : Situation} {a inner key v w : Value} {keys : List Value}

theorem denotes_variable_iff : (Node.variable name slot).Denotes S v ↔
    (Exec.bareFrame S).getVariable S.world.store slot = .ok v ∧ v ≠ .unset := by
  constructor
  · intro h
    have hreads := h 0
    rw [eval] at hreads
    obtain ⟨-, hget⟩ := eq_of_requireVariable hreads
    refine ⟨hget, ?_⟩
    rintro rfl
    rw [run_requireVariable, hget] at hreads
    cases hreads
  · intro h fuel
    rw [eval]
    exact run_requireVariable_of_eq h.1 h.2 name

theorem denotes_withStore {t : Store} (hrefs : t.refs = S.world.store.refs)
    (h : (Node.variable name slot).Denotes S a) :
    (Node.variable name slot).Denotes (S.withStore t) a := by
  have hvalue : ∀ v, t.valueOf v = S.world.store.valueOf v := by
    intro v
    cases v with
    | ref id => rw [valueOf, valueOf, ref, ref, hrefs]
    | _ => rfl
  obtain ⟨hget, hset⟩ := denotes_variable_iff.1 h
  refine denotes_variable_iff.2 ⟨?_, hset⟩
  calc (Exec.bareFrame (S.withStore t)).getVariable t slot
      = (Exec.bareFrame S).getVariable t slot := Frame.getVariable_congr rfl t slot
    _ = (Exec.bareFrame S).getVariable S.world.store slot := by
      simp only [Frame.getVariable, hvalue]
    _ = .ok a := hget

theorem exists_of_memberAssignment {base : Node}
    (h : ((memberAssignment base index right "=" false).eval fuel).run S = .ok w T) :
    ∃ v S₁, (right.eval fuel).run S = .ok v S₁ ∧ ∀ key, index.Denotes S₁ key →
      (storeElement base (base.eval fuel) key v).run S₁ = .ok w T := by
  rw [eval, if_pos rfl] at h
  obtain ⟨v, S₁, hright, hrest⟩ := ok_of_run_bind h
  obtain ⟨key, S₂, hindex, hstore⟩ := ok_of_run_bind hrest
  refine ⟨v, S₁, hright, fun key' hkey => ?_⟩
  cases (hkey fuel).symm.trans hindex
  exact hstore

/-- With an index in front of the last one, the element is put into the array that
the path leads to, and that is all. -/
theorem exists_putMember (hpath : S.Path name slot indices index a keys inner key)
    (hne : indices ≠ [])
    (h : (storeElement ((Node.variable name slot).element indices)
      (((Node.variable name slot).element indices).eval fuel) key v).run S = .ok w T) :
    ∃ t, S.world.store.putMember inner key v = .ok (w, t) ∧ T = S.withStore t := by
  have hinner : ((Node.variable name slot).element indices).Denotes S inner := by
    rw [Denotes, ← hpath.follow]
    exact hpath.base.element hpath.indices
  obtain ⟨b, i, hmember⟩ := exists_member_of_element (.variable name slot) hne
  rw [hmember] at h hinner
  obtain ⟨array, S₁, harray, hput⟩ := ok_of_run_bind h
  cases (hinner fuel).symm.trans harray
  exact exists_of_onStore hput

theorem settles_of_storeElement (hpath : S.Path name slot indices index a keys inner key)
    (hindices : Forall₂ (Denotes T) indices keys) (hindex : index.Denotes T key)
    (h : (storeElement ((Node.variable name slot).element indices)
      (((Node.variable name slot).element indices).eval fuel) key v).run S = .ok w T) :
    ∃ r, ((Node.variable name slot).element (indices ++ [index])).Settles T r ∧
      ((keys = [] ∨ Stays inner key) → r = .ok v) ∧
      (¬(keys = [] ∨ Stays inner key) → ∃ f, r = .error f) := by
  have hall : Forall₂ (Denotes T) (indices ++ [index]) (keys ++ [key]) :=
    rel_append hindices (.cons hindex .nil)
  by_cases hne : indices = []
  · subst hne
    cases hpath.indices
    obtain rfl : a = inner := Except.ok.inj hpath.follow
    have hvariable : (Node.variable name slot).eval fuel = act (Exec.requireVariable slot name) := by
      rw [eval]
    have hput : (putElement name slot key v).run S = .ok w T := by
      rw [putElement, ← hvariable]
      exact h
    have hbefore : (act (Exec.requireVariable slot name)).run S = .ok a S := by
      rw [← hvariable]
      exact hpath.base fuel
    obtain ⟨hreads, hget⟩ := reads_of_putElement hput
    have hbase : (Node.variable name slot).Denotes T w := by
      intro fuel
      rw [eval]
      exact hreads
    have hfollow : T.world.store.follow w ([] ++ [key]) = .ok v := by
      rw [follow_concat]
      exact hget a hbefore hpath.array
    exact ⟨_, hbase.element hall, fun _ => hfollow, fun hno => absurd (.inl rfl) hno⟩
  · have hkeys : keys ≠ [] := by
      rintro rfl
      exact hne (forall₂_nil_right_iff.1 hpath.indices)
    obtain ⟨t, hput, rfl⟩ := exists_putMember hpath hne h
    have hbase := denotes_withStore (isRef_of_putMember hput).2.2 hpath.base
    refine ⟨_, hbase.element hall, fun hstays => ?_, fun hlost => ?_⟩
    · exact follow_of_putMember hput hpath.isKey hpath.areKeys hpath.direct hpath.follow
        hpath.array (hstays.resolve_left hkeys)
    · exact exists_follow_eq_error hput hpath.isKey hpath.areKeys hpath.direct hpath.follow
        hpath.array fun hstays => hlost (.inr hstays)

end Eval

namespace Machine.Before

variable {m : Machine} {node : Node} {finish : Nat}

theorem arrives_iff_of_settles {v : Value} (hm : m.Before node finish)
    (h : node.Settles m.situation (.ok v)) (stack : List Value) (T : Situation) :
    m.Arrives finish stack T ↔ stack = v :: m.current.frame.stack ∧ T = m.situation := by
  rw [hm.meaning.1]
  constructor
  · rintro ⟨w, fuel, rfl, hrun⟩
    cases (h fuel).symm.trans hrun
    exact ⟨rfl, rfl⟩
  · rintro ⟨rfl, rfl⟩
    exact ⟨v, 0, rfl, h 0⟩

theorem of_settles_error {f : Fault} (hm : m.Before node finish)
    (h : node.Settles m.situation (.error f)) :
    m.FailsBefore finish f m.situation.world m.situation.interpreter ∧
      ∀ stack T, ¬m.Arrives finish stack T := by
  refine ⟨(hm.meaning.2 _ _ _).2 ⟨0, _, h 0, rfl, rfl⟩, fun stack T harrives => ?_⟩
  obtain ⟨w, fuel, -, hrun⟩ := (hm.meaning.1 _ _).1 harrives
  cases (h fuel).symm.trans hrun

end Machine.Before

/-- What is read after a store into nested arrays.

Let the machine get through `$a[k1]...[kn] = v`, where all keys but the last lead
to an array when the right side has been evaluated, and then come before
`$a[k1]...[kn]` as things stand, with indices that have the same keys.  It reads
`v`, and changes nothing, if there is one key, if the array is a dictionary, or if
the last key is an integer.  Otherwise what was stored is lost, and it fails. -/
theorem nested_store {m : Machine} {name : String} {slot : Int} {indices : List Node}
    {index right : Node} {finish : Nat} {stack : List Value} {T : Situation}
    (hm : m.Before (.memberAssignment ((Node.variable name slot).element indices) index right "="
      false) finish)
    (harrives : m.Arrives finish stack T) :
    ∃ fuel v S, (right.eval fuel).run m.situation = .ok v S ∧
      ∀ a keys inner key, S.Path name slot indices index a keys inner key →
        List.Forall₂ (Node.Denotes T) indices keys → index.Denotes T key →
        ∀ (m' : Machine) (finish' : Nat), m'.situation = T →
          m'.Before ((Node.variable name slot).element (indices ++ [index])) finish' →
          ((keys = [] ∨ Store.Stays inner key) → ∀ stack' T', m'.Arrives finish' stack' T' ↔
            stack' = v :: m'.current.frame.stack ∧ T' = T) ∧
          (¬(keys = [] ∨ Store.Stays inner key) →
            (∃ f, m'.FailsBefore finish' f T.world T.interpreter) ∧
            ∀ stack' T', ¬m'.Arrives finish' stack' T') := by
  obtain ⟨w, fuel, -, hrun⟩ := (hm.meaning.1 _ _).1 harrives
  obtain ⟨v, S, hright, hstore⟩ := Eval.exists_of_memberAssignment hrun
  refine ⟨fuel, v, S, hright, fun a keys inner key hpath hindices hindex m' finish' hm' hreads => ?_⟩
  subst hm'
  obtain ⟨r, hr, hkept, hlost⟩ :=
    Eval.settles_of_storeElement hpath hindices hindex (hstore key hpath.index)
  constructor
  · intro hstays
    obtain rfl := hkept hstays
    exact hreads.arrives_iff_of_settles hr
  · intro hgone
    obtain ⟨f, rfl⟩ := hlost hgone
    obtain ⟨hfails, hno⟩ := hreads.of_settles_error hr
    exact ⟨⟨f, hfails⟩, hno⟩

/-- What `$a[0][1] = 7; $a[0][1]` is compiled to: a store and a read. -/
def nestedStoreItems : List Item :=
  [.instr (.loadConstant 2), .instr (.loadConstant 1), .instr (.loadConstant 0),
    .instr (.loadMemberVar 0 "$a"), .instr .storeMember]

def nestedReadItems : List Item :=
  [.instr (.loadConstant 1), .instr (.loadConstant 0), .instr (.loadMemberVar 0 "$a"),
    .instr .loadMember]

/-- A machine in this code, with a list in `$a` that has one element, the list of
these items. -/
def amongNested (items : Array Value) (pos : Nat) : Machine where
  world := { store := { lists := #[items, #[.list 0]] } }
  interpreter := {}
  current :=
    { frame :=
        { code := { (default : Bytecode) with
            constants := #[.int 0, .int 1, .int 7]
            code := #[.loadConstant 2, .loadConstant 1, .loadConstant 0, .loadMemberVar 0 "$a",
              .storeMember, .discardTop, .loadConstant 1, .loadConstant 0, .loadMemberVar 0 "$a",
              .loadMember] }
          capacity := 3
          slots := #[.list 1] }
      pos := pos }

/-- The inner list is longer by the element that is stored, and it is read. -/
theorem nested_store_appended :
    ∃ T, (amongNested #[.int 5] 0).Arrives 5 [.list 0] T ∧
      (amongNested #[.int 5, .int 7] 6).situation = T ∧
      (amongNested #[.int 5, .int 7] 6).Arrives 10 [.int 7] T := by
  have hm : (amongNested #[.int 5] 0).Before (.memberAssignment
      ((Node.variable "$a" 0).element [.constantInt 0 0]) (.constantInt 1 1) (.constantInt 7 2) "="
      false) 5 := by
    refine ⟨⟨.inner, .memberAssignment (by decide) (fun _ => rfl) .constantInt .constantInt
      (.member .constantInt .variable)⟩, fun _ => {}, {}, { items := nestedStoreItems.toArray },
      nestedStoreItems, [], by decide, rfl, rfl, ?_, rfl, ?_⟩
    · simp [nestedStoreItems, Instr.retarget, amongNested]
    · decide
  have hm' : (amongNested #[.int 5, .int 7] 6).Before
      ((Node.variable "$a" 0).element ([.constantInt 0 0] ++ [.constantInt 1 1])) 10 := by
    refine ⟨⟨.inner, .member .constantInt (.member .constantInt .variable)⟩, fun _ => {}, {},
      { items := nestedReadItems.toArray }, nestedReadItems, [], by decide, rfl, rfl, ?_, rfl, ?_⟩
    · simp [nestedReadItems, Instr.retarget, amongNested]
    · decide
  have harrives : (amongNested #[.int 5] 0).Arrives 5 [.list 0]
      (amongNested #[.int 5, .int 7] 6).situation :=
    (hm.meaning.1 _ _).2 ⟨.list 0, 0, rfl, rfl⟩
  obtain ⟨fuel, v, S, hright, hreads⟩ := nested_store hm harrives
  cases hright
  have hpath : (amongNested #[.int 5] 0).situation.Path "$a" 0 [.constantInt 0 0]
      (.constantInt 1 1) (.list 1) [.int 0] (.list 0) (.int 1) := by
    refine ⟨fun _ => rfl, .cons (fun _ => rfl) .nil, fun _ => rfl, rfl, by simp [Value.isKey], rfl,
      Nat.zero_lt_two, ?_⟩
    rintro (⟨h, -⟩ | ⟨b, hb, h⟩)
    · cases h
    · exact h
  obtain ⟨hstays, -⟩ := hreads _ _ _ _ hpath (.cons (fun _ => rfl) .nil) (fun _ => rfl) _ _ rfl hm'
  exact ⟨_, harrives, rfl, (hstays (.inr (.inr ⟨1, rfl⟩)) _ _).2 ⟨rfl, rfl⟩⟩

open Sample

/-- `$a[k1][k2]` -/
def nestedElementTree (key₁ key₂ : Tree) : Tree :=
  .branch "memberexpression" [variableTree "$a", token "[", key₁, token "[", key₂]

/-- `$a = [[5]]; $a[0]["x"] = 7; print $a[0]["x"];` -/
def lostElementTree : Tree := programTree [
  assignTree "$a" (.branch "arrayliteral" [token "[",
    .branch "arrayliteral" [token "[", numeral "5"]]),
  expressionTree (operatorTree "assignmentexpression" "="
    (nestedElementTree (numeral "0") (doubleText "x")) (numeral "7")),
  printTree (nestedElementTree (numeral "0") (doubleText "x"))]

/-- `$a = [5]; $a[0] = $a; $a[0][0] = 7; print $a[0][0];` -/
def cyclicElementTree : Tree := programTree [
  assignTree "$a" (.branch "arrayliteral" [token "[", numeral "5"]),
  expressionTree (operatorTree "assignmentexpression" "="
    (elementTree (variableTree "$a") (numeral "0")) (variableTree "$a")),
  expressionTree (operatorTree "assignmentexpression" "="
    (nestedElementTree (numeral "0") (numeral "0")) (numeral "7")),
  printTree (nestedElementTree (numeral "0") (numeral "0"))]

/-- In both programs the store is done and the element cannot be read.  In the
first one the inner list is as it was.  In the second one the list is its own
element, and 7 takes its place. -/
theorem nested_store_lost :
    (∃ s b start m f last, Script.ofTree lostElementTree = .ok s ∧ s.compile "main" = .ok b ∧
      Machine.launch {} {} b = .ok start ∧ Machine.Course (fun _ => True) 14 start m ∧
      m.world.store.list 0 = #[.int 5] ∧ m.world.store.list 1 = #[.list 0] ∧
      m.next? = some .loadMember ∧ Machine.step.run m = .error f last) ∧
    ∃ s b start m f last, Script.ofTree cyclicElementTree = .ok s ∧ s.compile "main" = .ok b ∧
      Machine.launch {} {} b = .ok start ∧ Machine.Course (fun _ => True) 17 start m ∧
      m.world.store.list 0 = #[.int 7] ∧ m.next? = some .loadMember ∧
      Machine.step.run m = .error f last := by
  obtain ⟨s, hread, b, hcompile, start, hlaunch, m, hcourse, hinner, houter, hnext, f, last, hfails, -⟩ :
      lostElementTree.ComesTo {} {} 14 fun _ _ m => m.world.store.list 0 = #[.int 5] ∧
      m.world.store.list 1 = #[.list 0] ∧ m.next? = some .loadMember ∧
      ∃ f last, Machine.step.run m = .error f last ∧ True := by decide +kernel
  obtain ⟨s', hread', b', hcompile', start', hlaunch', m', hcourse', hlist, hnext', f', last', hfails',
      -⟩ : cyclicElementTree.ComesTo {} {} 17 fun _ _ m => m.world.store.list 0 = #[.int 7] ∧
      m.next? = some .loadMember ∧ ∃ f last, Machine.step.run m = .error f last ∧ True := by
    decide +kernel
  exact ⟨⟨s, b, start, m, f, last, hread, hcompile, hlaunch, hcourse, hinner, houter, hnext, hfails⟩,
    s', b', start', m', f', last', hread', hcompile', hlaunch', hcourse', hlist, hnext', hfails'⟩

end PageScript
