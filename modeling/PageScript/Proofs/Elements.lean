/-
Assignments to elements.

An assignment to an element of a variable would work out a `Change`, store the new
element and yield it, or the old one for `++` and `--` behind their operand
(`Eval.assignElement`).  What is compiled differs from that in two ways
(`element_assigned`): the value is the array, unless it is the old element, and except
for `=` the index is evaluated once more before the store.
-/
import PageScript.Proofs.Foreach

open EStateM (Result)

namespace PageScript

open EStateM Store Frame Exec

variable {S T : Situation} {slot : Int} {v : Value} {α : Type}

/-! ### Elements that are stored -/

namespace Entries

variable {α : Type}

theorem get?_put_self (es : Entries α) (key : String) (v : α) : (es.put key v).get? key = some v := by
  induction es with
  | nil => simp [put, get?]
  | cons e es ih =>
    obtain ⟨k, old⟩ := e
    by_cases h : k = key
    · simp [put, get?, h]
    · have hne : (key == k) = false := beq_false_of_ne (Ne.symm h)
      rw [put, if_neg h, get?, List.lookup_cons, hne]
      exact ih

end Entries

namespace Store

variable {s t : Store} {array array' key v : Value}

theorem place?_putItem {items items' : Array Value} {i : Int} (h : putItem items i v = .ok items') :
    ((place? items'.size i).bind fun n => items'[n]?) = some v := by
  unfold putItem at h
  split at h
  · rename_i n hplace
    cases h
    have hlt : n < items.size := by
      unfold place? at hplace
      split at hplace
      · split at hplace <;> cases hplace
        assumption
      · split at hplace <;> cases hplace
        omega
    rw [Array.size_setIfInBounds, hplace]
    simp [hlt]
  · rename_i hplace
    split at h
    · cases h
    · rename_i hneg
      dsimp only at h
      split at h
      · cases h
      · cases h
        -- The gap is filled, so the new item comes at its index.
        obtain ⟨n, rfl⟩ := Int.eq_ofNat_of_zero_le (Int.not_lt.1 hneg)
        have hle : items.size ≤ n := by
          by_contra hlt
          simp [place?, Nat.lt_of_not_le hlt] at hplace
        generalize hgap : Array.replicate ((n : Int) - items.size).toNat Value.null = gap
        have hsize : (items ++ gap).size = n := by
          rw [← hgap, Array.size_append, Array.size_replicate]
          omega
        have hplace' : place? ((items ++ gap).push v).size (n : Int) = some n := by
          rw [Array.size_push, hsize]
          simp [place?]
        have hget : ((items ++ gap).push v)[(items ++ gap).size]? = some v :=
          Array.getElem?_push_size
        rw [hsize] at hget
        rw [hplace', Option.bind_some, hget]

theorem textOf_congr (h : t.builders = s.builders) (key : Value) : t.textOf key = s.textOf key := by
  cases key with
  | concat id n => rw [textOf, textOf, builder, builder, h]
  | _ => rfl

theorem missingKey_ne_ok : s.missingKey key array ≠ .ok v := by
  intro h
  obtain ⟨_, -, h⟩ := ok_of_bind h
  obtain ⟨_, -, h⟩ := ok_of_bind h
  cases h

theorem getMember_of_putMember (harray : s.HasArray array)
    (h : s.putMember array key v = .ok (array', t)) : t.getMember array' key = .ok v := by
  cases array with
  | list id =>
    have hturned : ∀ k, s.textOf key = .ok k →
        (s.newDict ((listEntries (s.list id)).put k v)).2.getMember
          (s.newDict ((listEntries (s.list id)).put k v)).1 key = .ok v := by
      intro k hk
      have htext : (s.newDict ((listEntries (s.list id)).put k v)).2.textOf key = .ok k :=
        (textOf_congr rfl key).trans hk
      have hdict : (s.newDict ((listEntries (s.list id)).put k v)).2.dict s.dicts.size
          = (listEntries (s.list id)).put k v := by
        simp [dict, newDict]
      simp only [newDict, getMember] at htext hdict ⊢
      rw [htext]
      simp only [bind, Except.bind, hdict, Entries.get?_put_self]
      rfl
    cases key with
    | int i =>
      obtain ⟨items, hitems, h⟩ := ok_of_bind h
      cases h
      have hlist : (s.setList id items).list id = items := by
        have hid : id < s.lists.size := harray
        simp [list, setList, Array.getD_eq_getD_getElem?, hid]
      simp only [getMember, hlist, place?_putItem hitems]
    | _ =>
      obtain ⟨k, hk, h⟩ := ok_of_bind h
      cases h
      exact hturned k hk
  | dict id =>
    obtain ⟨k, hk, h⟩ := ok_of_bind h
    cases h
    have htext : (s.setDict id ((s.dict id).put k v)).textOf key = .ok k :=
      (textOf_congr rfl key).trans hk
    have hdict : (s.setDict id ((s.dict id).put k v)).dict id = (s.dict id).put k v := by
      have hid : id < s.dicts.size := harray
      simp [dict, setDict, Array.getD_eq_getD_getElem?, hid]
    simp only [getMember, htext, bind, Except.bind, hdict, Entries.get?_put_self]
    rfl
  | _ => exact harray.elim

theorem getMember_congr (hlist : ∀ id, array = .list id → t.list id = s.list id)
    (hdict : ∀ id, array = .dict id → t.dict id = s.dict id)
    (hbuilders : t.builders = s.builders) (h : s.getMember array key = .ok v) :
    t.getMember array key = .ok v := by
  cases array with
  | text x => exact h
  | concat id n =>
    simp only [getMember, builder, hbuilders] at h ⊢
    exact h
  | list id =>
    cases key with
    | int i =>
      simp only [getMember, hlist id rfl] at h ⊢
      exact h
    | _ => exact absurd h missingKey_ne_ok
  | dict id =>
    obtain ⟨k, hk, h⟩ := ok_of_bind h
    simp only [getMember, textOf_congr hbuilders, hk, bind, Except.bind, hdict id rfl]
    split at h
    · exact h
    · exact absurd h missingKey_ne_ok
  | _ => cases h

theorem isRef_of_putMember (h : s.putMember array key v = .ok (array', t)) :
    array'.isRef = false ∧ array' ≠ .unset ∧ t.refs = s.refs := by
  cases puts_of_putMember h <;> refine ⟨rfl, ?_, rfl⟩ <;> intro hunset <;> cases hunset

end Store

/-! ### Variables -/

theorem Frame.getVariable_of_storeVariable {f g : Frame} {s t u : Store}
    {old : Value} (hold : f.getVariable s slot = .ok old) (hrefs : t.refs = s.refs)
    (h : f.storeVariable t slot v = .ok (g, u)) (hv : v.isRef = false) :
    g.getVariable u slot = .ok v := by
  obtain ⟨held, hload, hold⟩ := ok_of_bind hold
  cases puts_of_storeVariable h with
  | @cell id w hcell hw =>
    subst hw
    cases hload.symm.trans hcell
    -- The cell is there, or it could not have been read.
    have hlt : id < s.refs.size := by
      by_contra hge
      replace hold : s.valueOf (.ref id) = .ok old := hold
      rw [valueOf, ref, Array.getD_eq_getD_getElem?,
        Array.getElem?_eq_none (Nat.le_of_not_lt hge)] at hold
      cases hold
    rw [getVariable, hload]
    show (t.setRef id w).valueOf (.ref id) = .ok w
    simp [valueOf, ref, setRef, hrefs, hlt]
  | slot _ _ hstore =>
    rw [getVariable, load_of_store_self hstore]
    simp only [bind, Except.bind, hv]
    rfl

theorem Frame.pools_of_storeVariable {f g : Frame} {s t : Store}
    (h : f.storeVariable s slot v = .ok (g, t)) :
    t.lists = s.lists ∧ t.dicts = s.dicts ∧ t.builders = s.builders := by
  cases puts_of_storeVariable h <;> exact ⟨rfl, rfl, rfl⟩

namespace Eval

theorem run_requireVariable (slot : Int) (name : String) (S : Situation) :
    (act (requireVariable slot name)).run S
      = match (bareFrame S).getVariable S.world.store slot with
        | .ok .unset => .error (.fault (.complaint (.unsetVariable name))) S
        | .ok v => .ok v S
        | .error e => .error (.fault e) S := by
  have hframe : (S.under default).current.frame.getVariable S.world.store slot
      = (bareFrame S).getVariable S.world.store slot := getVariable_congr rfl _ _
  have hstore : (S.under default).world.store = S.world.store := rfl
  rw [run_act, seen]
  simp only [requireVariable, Exec.getVariable, run_bind, run_get,
    run_ofExcept, hstore, hframe]
  cases (bareFrame S).getVariable S.world.store slot with
  | error e => rfl
  | ok v => cases v <;> rfl

theorem eq_of_requireVariable {name : String}
    (h : (act (requireVariable slot name)).run S = .ok v T) :
    T = S ∧ (bareFrame S).getVariable S.world.store slot = .ok v := by
  rw [run_requireVariable] at h
  split at h
  · cases h
  · cases h
    exact ⟨rfl, ‹_›⟩
  · cases h

theorem run_requireVariable_of_eq
    (h : (bareFrame S).getVariable S.world.store slot = .ok v) (hv : v ≠ .unset)
    (name : String) : (act (requireVariable slot name)).run S = .ok v S := by
  rw [run_requireVariable, h]
  cases v with
  | unset => exact absurd rfl hv
  | _ => rfl

theorem run_storeVariable (slot : Int) (v : Value) (S : Situation) :
    (act (storeVariable slot v)).run S
      = match (bareFrame S).storeVariable S.world.store slot v with
        | .ok (frame, store) =>
          .ok () { S with world := { S.world with store := store }, slots := frame.slots }
        | .error e => .error (.fault e) S := by
  have hframe : (S.under default).current.frame.storeVariable S.world.store slot v
      = ((bareFrame S).storeVariable S.world.store slot v).map
          fun p => ((S.under default).current.frame.withSlots p.1, p.2) :=
    storeVariable_congr (f := (S.under default).current.frame) (g := bareFrame S) rfl _ _ _
  have hstore : (S.under default).world.store = S.world.store := rfl
  rw [run_act, seen, Exec.run_storeVariable, hstore, hframe]
  cases (bareFrame S).storeVariable S.world.store slot v <;> rfl

theorem exists_of_storeVariable (h : (act (storeVariable slot v)).run S = .ok () T) :
    ∃ frame store, (bareFrame S).storeVariable S.world.store slot v = .ok (frame, store) ∧
      T = { S with world := { S.world with store := store }, slots := frame.slots } := by
  rw [run_storeVariable] at h
  split at h <;> cases h
  exact ⟨_, _, ‹_›, rfl⟩

theorem exists_of_onStore {f : Store → Except Fault (α × Store)}
    {r : α} (h : (act (onStore f)).run S = .ok r T) :
    ∃ t, f S.world.store = .ok (r, t) ∧ T = S.withStore t := by
  have hstore : (S.under default).world.store = S.world.store := rfl
  rw [run_act, seen, run_onStore, hstore] at h
  cases hf : f S.world.store with
  | error e =>
    rw [hf] at h
    cases h
  | ok p =>
    rw [hf] at h
    cases h
    exact ⟨p.2, rfl, rfl⟩

end Eval

/-! ### Before the code of a node -/

instance (capacity : Nat) (line : Line) : Decidable (line.Fits capacity) :=
  inferInstanceAs (Decidable (_ ∧ _))

/-- The machine is before the code that a node is compiled to, which goes up to a
position, and there is room for the code on the stack. -/
structure Machine.Before (m : Machine) (node : Node) (finish : Nat) : Prop where
  tidy : ∃ p, node.Tidy {} p
  code : ∃ scopes a a' items table, 0 ≤ a.nextLabel ∧ (node.compile scopes).run a = .ok () a' ∧
    a'.items = a.items ++ items.toArray ∧
    Placed table m.current.frame.code.code m.current.pos items ∧
    finish = m.current.pos + Item.extent items ∧
    ∀ line ∈ node.layout scopes m.current.pos m.current.frame.stack.length {},
      line.Fits m.current.frame.capacity

namespace Machine.Before

variable {m : Machine} {node : Node} {finish : Nat}

theorem hosts (h : m.Before node finish) : ∃ scopes,
    Hosts m.control m.current.pos
      (node.layout scopes m.current.pos m.current.frame.stack.length {}) ∧
    finish = m.current.pos + node.width := by
  obtain ⟨p, htidy⟩ := h.tidy
  obtain ⟨scopes, a, a', items, table, ha, hrun, hitems, hplaced, hfinish, hroom⟩ := h.code
  obtain ⟨hextent, hosts⟩ := htidy.hosts (k := m.control) ha hrun hitems hplaced hroom
  exact ⟨scopes, hosts, by rw [hfinish, hextent]⟩

theorem meaning (h : m.Before node finish) :
    (∀ stack T, m.Arrives finish stack T ↔ ∃ v fuel, stack = v :: m.current.frame.stack ∧
      (node.eval fuel).run m.situation = .ok v T) ∧
    (∀ f w i, m.FailsBefore finish f w i ↔
      ∃ fuel T, (node.eval fuel).run m.situation = .error (.fault f) T ∧ T.world = w ∧
        T.interpreter = i) := by
  obtain ⟨p, htidy⟩ := h.tidy
  obtain ⟨scopes, hhosts, rfl⟩ := h.hosts
  exact meaning_of_does fun fuel => htidy.simulates hhosts (Nat.le_refl _)

end Machine.Before

/-! ### Assignments to elements of variables -/

theorem run_bind_eq_ok_iff {ε σ β : Type} {x : EStateM ε σ α} {f : α → EStateM ε σ β} {s t : σ}
    {b : β} : (x >>= f).run s = .ok b t ↔ ∃ a u, x.run s = .ok a u ∧ (f a).run u = .ok b t := by
  refine ⟨ok_of_run_bind, ?_⟩
  rintro ⟨a, u, hx, hf⟩
  rw [run_bind, hx]
  exact hf

theorem run_answer_eq_error_iff {ε σ β : Type} {x : EStateM ε σ α} {f : α → β} {s t : σ} {e : ε} :
    (do let a ← x; return f a).run s = .error e t ↔ x.run s = .error e t := by
  rw [run_bind]
  cases x.run s with
  | error e' t' =>
    constructor <;> intro h <;> cases h <;> rfl
  | ok a t' =>
    constructor <;> intro h <;> cases h

theorem Node.Tidy.post_eq {p : Place} {base index right : Node} {sign : String} {post : Bool}
    (h : Tidy {} p (.memberAssignment base index right sign post)) (hsign : sign = "=") :
    post = false := by
  cases h with
  | memberAssignment _ hpost => exact hpost hsign
  | memberStep hstep =>
    subst hsign
    exact absurd hstep (by decide)

/-- What an assignment to an element comes to: the key, the old element and the
new one. -/
structure Change where
  key : Value
  old : Value
  new : Value

namespace Eval

variable {fuel : Nat} {name sign : String} {slot : Int} {index right : Node} {post : Bool}
  {S T : Situation} {key v array : Value}

/-- Works a change out: the index and the right side are evaluated, each of them
once.  With `=` the element that was there is not looked at. -/
def change (fuel : Nat) (name : String) (slot : Int) (index right : Node) (sign : String) :
    Eval Change :=
  if sign = "=" then do
    let v ← right.eval fuel
    let key ← index.eval fuel
    return ⟨key, v, v⟩
  else do
    let key ← index.eval fuel
    let array ← act (requireVariable slot name)
    let old ← act (fromStore (·.getMember array key))
    let v ← update sign old (right.eval fuel)
    return ⟨key, old, v⟩

/-- Stores an element of a variable; the result is the array. -/
def putElement (name : String) (slot : Int) (key v : Value) : Eval Value :=
  storeElement (.variable name slot) (act (requireVariable slot name)) key v

/-- An assignment to an element as an expression: the new element is stored under
the key and is the value, or the old one is for `++` and `--` behind their
operand. -/
def assignElement (fuel : Nat) (name : String) (slot : Int) (index right : Node) (sign : String)
    (post : Bool) : Eval Value := do
  let c ← change fuel name slot index right sign
  let _ ← putElement name slot c.key c.new
  return if post then c.old else c.new

/-- The key that code stores under: except for `=` the index is evaluated once
more. -/
def storeKey (fuel : Nat) (index : Node) (sign : String) (key : Value) : Eval Value :=
  if sign = "=" then return key else index.eval fuel

theorem eval_memberAssignment (hpost : sign = "=" → post = false) :
    (Node.memberAssignment (.variable name slot) index right sign post).eval fuel = do
      let c ← change fuel name slot index right sign
      let key ← storeKey fuel index sign c.key
      let array ← putElement name slot key c.new
      return if post then c.old else array := by
  have hvariable : (Node.variable name slot).eval fuel = act (requireVariable slot name) := by
    rw [Node.eval]
  rw [Node.eval, hvariable]
  by_cases h : sign = "="
  · simp only [change, storeKey, if_pos h, hpost h, bind_assoc, pure_bind, Bool.false_eq_true,
      if_false, bind_pure]
    rfl
  · simp only [change, storeKey, if_neg h, bind_assoc, pure_bind]
    rfl

theorem run_memberAssignment (hpost : sign = "=" → post = false) {w : Value} :
    ((Node.memberAssignment (.variable name slot) index right sign post).eval fuel).run S = .ok w T ↔
      ∃ c S₁ key S₂ array, (change fuel name slot index right sign).run S = .ok c S₁ ∧
        (storeKey fuel index sign c.key).run S₁ = .ok key S₂ ∧
        (putElement name slot key c.new).run S₂ = .ok array T ∧
        w = if post then c.old else array := by
  simp only [eval_memberAssignment hpost, run_bind_eq_ok_iff]
  constructor
  · rintro ⟨c, S₁, hc, key, S₂, hkey, array, S₃, hput, hlast⟩
    cases hlast
    exact ⟨c, S₁, key, S₂, array, hc, hkey, hput, rfl⟩
  · rintro ⟨c, S₁, key, S₂, array, hc, hkey, hput, rfl⟩
    exact ⟨c, S₁, hc, key, S₂, hkey, array, T, hput, rfl⟩

def storeChange (fuel : Nat) (name : String) (slot : Int) (index right : Node) (sign : String) :
    Eval (Change × Value) := do
  let c ← change fuel name slot index right sign
  let array ← putElement name slot c.key c.new
  return (c, array)

theorem assignElement_eq : assignElement fuel name slot index right sign post = do
      let r ← storeChange fuel name slot index right sign
      return if post then r.1.old else r.1.new := by
  simp only [assignElement, storeChange, bind_assoc, pure_bind]

theorem run_memberAssignment_of_repeats (hpost : sign = "=" → post = false)
    (hrepeats : sign = "=" ∨ ∀ c S₁, (change fuel name slot index right sign).run S = .ok c S₁ →
      (index.eval fuel).run S₁ = .ok c.key S₁) :
    ((Node.memberAssignment (.variable name slot) index right sign post).eval fuel).run S
      = (do
          let r ← storeChange fuel name slot index right sign
          return if post then r.1.old else r.2).run S := by
  simp only [eval_memberAssignment hpost, storeChange, bind_assoc, pure_bind]
  rw [run_bind, run_bind]
  cases hc : (change fuel name slot index right sign).run S with
  | error e S₁ => rfl
  | ok c S₁ =>
    have hkey : (storeKey fuel index sign c.key).run S₁ = .ok c.key S₁ := by
      by_cases hsign : sign = "="
      · rw [storeKey, if_pos hsign]
        rfl
      · rw [storeKey, if_neg hsign]
        exact hrepeats.resolve_left hsign c S₁ hc
    simp only [run_bind, hkey]

/-- If an element of a variable was stored, the variable has the array that came
of it, and if it had an array in the store, the element is found there. -/
theorem reads_of_putElement (h : (putElement name slot key v).run S = .ok array T) :
    (act (requireVariable slot name)).run T = .ok array T ∧
      ∀ before, (act (requireVariable slot name)).run S = .ok before S →
        S.world.store.HasArray before → T.world.store.getMember array key = .ok v := by
  obtain ⟨before, S₁, hreads, hrest⟩ := ok_of_run_bind h
  obtain ⟨rfl, hbefore⟩ := eq_of_requireVariable hreads
  obtain ⟨array', S₂, hact, hrest⟩ := ok_of_run_bind hrest
  obtain ⟨t, hput, rfl⟩ := exists_of_onStore hact
  obtain ⟨_, S₃, hact', hrest⟩ := ok_of_run_bind hrest
  obtain ⟨frame, store, hstore, rfl⟩ := exists_of_storeVariable hact'
  cases hrest
  obtain ⟨href, hset, hrefs⟩ := isRef_of_putMember hput
  obtain ⟨hlists, hdicts, hbuilders⟩ := pools_of_storeVariable hstore
  refine ⟨?_, fun before' hreads' harray => ?_⟩
  · have hframe : frame.getVariable store slot = .ok array :=
      getVariable_of_storeVariable hbefore hrefs hstore href
    refine run_requireVariable_of_eq ?_ hset name
    rw [← hframe]
    exact getVariable_congr rfl store slot
  · cases hreads.symm.trans hreads'
    have hget := getMember_of_putMember harray hput
    exact getMember_congr (fun id _ => by rw [list, list, hlists])
      (fun id _ => by rw [dict, dict, hdicts]) hbuilders hget

theorem reads_of_storeChange {c : Change}
    (h : (storeChange fuel name slot index right sign).run S = .ok (c, array) T) :
    (act (requireVariable slot name)).run T = .ok array T := by
  obtain ⟨c', S₁, -, hrest⟩ := ok_of_run_bind h
  obtain ⟨array', S₂, hput, hrest⟩ := ok_of_run_bind hrest
  cases hrest
  exact (reads_of_putElement hput).1

end Eval

open Eval in
/-- What an assignment to an element of a variable does.

* The change is worked out, with the index and the right side evaluated once;
  except for `=` the index is evaluated again; the new element is stored under
  that key; and the value is the array, or the old element for `++` and `--`
  behind their operand.
* Then the variable has that array, and the element is found in it.
* So for `=`, and if the index has the same key again and does nothing more, the
  assignment does what it should as an expression, and fails as it should; but
  its value is the array where it should be the new element. -/
theorem element_assigned {m : Machine} {name sign : String} {slot : Int} {index right : Node}
    {post : Bool} {finish : Nat}
    (hm : m.Before (.memberAssignment (.variable name slot) index right sign post) finish) :
    (∀ stack T, m.Arrives finish stack T ↔ ∃ fuel c S key S' array,
      (change fuel name slot index right sign).run m.situation = .ok c S ∧
      (storeKey fuel index sign c.key).run S = .ok key S' ∧
      (putElement name slot key c.new).run S' = .ok array T ∧
      stack = (if post then c.old else array) :: m.current.frame.stack) ∧
    (∀ S T key v array, (putElement name slot key v).run S = .ok array T →
      (act (Exec.requireVariable slot name)).run T = .ok array T ∧
      ∀ before, (act (Exec.requireVariable slot name)).run S = .ok before S →
        S.world.store.HasArray before → T.world.store.getMember array key = .ok v) ∧
    ((sign = "=" ∨ ∀ fuel c S, (change fuel name slot index right sign).run m.situation = .ok c S →
        (index.eval fuel).run S = .ok c.key S) →
      (∀ stack T, m.Arrives finish stack T ↔ ∃ fuel v array,
        (assignElement fuel name slot index right sign post).run m.situation = .ok v T ∧
        (act (Exec.requireVariable slot name)).run T = .ok array T ∧
        stack = (if post then v else array) :: m.current.frame.stack) ∧
      ∀ f w i, m.FailsBefore finish f w i ↔ ∃ fuel T,
        (assignElement fuel name slot index right sign post).run m.situation
          = .error (.fault f) T ∧ T.world = w ∧ T.interpreter = i) := by
  obtain ⟨harrives, hfails⟩ := hm.meaning
  obtain ⟨p, htidy⟩ := hm.tidy
  have hpost : sign = "=" → post = false := htidy.post_eq
  refine ⟨fun stack T => ?_, fun S T key v array => reads_of_putElement, fun hrepeats => ?_⟩
  · rw [harrives]
    constructor
    · rintro ⟨w, fuel, rfl, hrun⟩
      obtain ⟨c, S, key, S', array, hc, hkey, hput, rfl⟩ := (run_memberAssignment hpost).1 hrun
      exact ⟨fuel, c, S, key, S', array, hc, hkey, hput, rfl⟩
    · rintro ⟨fuel, c, S, key, S', array, hc, hkey, hput, rfl⟩
      exact ⟨_, fuel, rfl, (run_memberAssignment hpost).2
        ⟨c, S, key, S', array, hc, hkey, hput, rfl⟩⟩
  · have heval := fun fuel => run_memberAssignment_of_repeats (S := m.situation) hpost
      (hrepeats.imp_right fun h => h fuel)
    constructor
    · intro stack T
      simp only [harrives, heval, assignElement_eq, run_bind_eq_ok_iff]
      constructor
      · rintro ⟨w, fuel, rfl, ⟨c, array⟩, S, hstore, hlast⟩
        cases hlast
        exact ⟨fuel, _, array, ⟨(c, array), _, hstore, rfl⟩, reads_of_storeChange hstore,
          by cases post <;> rfl⟩
      · rintro ⟨fuel, v, array, ⟨⟨c, array'⟩, S, hstore, hlast⟩, hreads, rfl⟩
        cases hlast
        cases hreads.symm.trans (reads_of_storeChange hstore)
        exact ⟨_, fuel, by cases post <;> rfl, (c, array), _, hstore, rfl⟩
    · intro f w i
      simp only [hfails, heval, assignElement_eq, run_answer_eq_error_iff]

/-- `$a[$i]++` -/
def stepElement : Node :=
  .memberAssignment (.variable "$a" 0) (.variable "$i" 1) .empty "++" true

def stepElementItems : List Item :=
  [.instr (.loadVar 1 "$i"), .instr (.loadMemberVar 0 "$a"), .instr .dup, .instr (.unary .incr),
    .instr (.loadVar 1 "$i"), .instr (.storeMemberVar 0 "$a"), .instr .discardTop]

/-- A machine before its code, with the list of 5 and 7 in `$a` and 1 in `$i`. -/
def beforeStepElement : Machine where
  world := { store := { lists := #[#[.int 5, .int 7]] } }
  interpreter := {}
  current :=
    { frame :=
        { code := { (default : Bytecode) with
            code := #[.loadVar 1 "$i", .loadMemberVar 0 "$a", .dup, .unary .incr, .loadVar 1 "$i",
              .storeMemberVar 0 "$a", .discardTop] }
          capacity := 3
          slots := #[.list 0, .int 1] } }

/-- The value is the old element, and the new one is stored. -/
theorem element_assigned_step :
    ∃ T, beforeStepElement.Arrives 7 [.int 7] T ∧ T.world.store.list 0 = #[.int 5, .int 8] := by
  have hm : beforeStepElement.Before stepElement 7 := by
    refine ⟨⟨.inner, .memberStep (by decide) .variable .variable⟩, fun _ => {}, {},
      { items := stepElementItems.toArray }, stepElementItems, [], by decide, rfl, rfl, ?_, rfl, ?_⟩
    · simp [stepElementItems, Instr.retarget, beforeStepElement]
    · decide
  have hrepeats : ∀ fuel c S, (Eval.change fuel "$a" 0 (.variable "$i" 1) .empty "++").run
      beforeStepElement.situation = .ok c S → ((Node.variable "$i" 1).eval fuel).run S = .ok c.key S := by
    intro fuel c S hc
    cases hc
    rfl
  obtain ⟨harrives, -⟩ := (element_assigned hm).2.2 (.inr hrepeats)
  exact ⟨_, (harrives _ _).2 ⟨1, .int 7, .list 0, rfl, rfl, rfl⟩, rfl⟩

open Sample

/-- `$a = [1]; print $a[0] = 2;` -/
def printedAssignmentTree : Tree := programTree [
  assignTree "$a" (.branch "arrayliteral" [token "[", numeral "1"]),
  printTree (operatorTree "assignmentexpression" "=" (elementTree (variableTree "$a") (numeral "0"))
    (numeral "2"))]

/-- `$a = [5, 7, 9]; $i = 0; $a[$i++] += 1;` -/
def twiceEvaluatedTree : Tree := programTree [
  assignTree "$a" (.branch "arrayliteral" [token "[", numeral "5", numeral "7", numeral "9"]),
  assignTree "$i" (numeral "0"),
  expressionTree (operatorTree "assignmentexpression" "+="
    (elementTree (variableTree "$a") (.branch "postfixexpression" [variableTree "$i", token "++"]))
    (numeral "1"))]

/-- The first program prints the array, where the element that is assigned is 2.
The second one evaluates the index twice: it stores 5 and 1 under the key 1, and
leaves 2 in `$i`. -/
theorem element_assigned_awry :
    (∃ s b start m, Script.ofTree printedAssignmentTree = .ok s ∧ s.compile "main" = .ok b ∧
      Machine.launch {} {} b = .ok start ∧ Machine.Course (fun _ => True) 8 start m ∧
      m.world.store.list 0 = #[.int 2] ∧ m.world.written = "Array") ∧
    ∃ s b start m, Script.ofTree twiceEvaluatedTree = .ok s ∧ s.compile "main" = .ok b ∧
      Machine.launch {} {} b = .ok start ∧ Machine.Course (fun _ => True) 23 start m ∧
      m.world.store.list 0 = #[.int 5, .int 6, .int 9] ∧
      m.current.frame.slots = #[.list 0, .int 2] := by
  exact ⟨Tree.ComesTo.exists_course (by decide +kernel), Tree.ComesTo.exists_course (by decide +kernel)⟩

end PageScript
