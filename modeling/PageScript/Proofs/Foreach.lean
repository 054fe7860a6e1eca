/-
Loops over arrays visit every entry once.

Nothing else in the machine stands for the iteration of a `foreach` loop, nor for the copy
that a loop over a list goes over, so the body cannot get at either (`Reserve.walk`).
`Foreach.Stage` is what holds after any number of rounds.  A round leads from one stage to
the next (`Stage.round`), and while there are entries left, the header visits the next
one (`Stage.visits`).  The main statement is `foreach_visits_every_entry`.
-/
import PageScript.Proofs.Arrays
import PageScript.Proofs.Custody
import PageScript.Proofs.Simulation

namespace PageScript

open Exec List Eval

def Situation.withStore (S : Situation) (t : Store) : Situation :=
  { S with world := { S.world with store := t } }

/-! ### What a loop sets aside -/

namespace Store

/-- The dictionary that a loop over an array goes over: the array itself, or a
copy of it that comes next. -/
def walked (s : Store) : Value → Nat
  | .dict id => id
  | _ => s.dicts.size

/-- The iteration of a loop over an array, as it is after some entries. -/
def walk (s : Store) (array : Value) (i : Nat) : Cursor where
  dict := s.walked array
  keys := (s.elements array).keys
  index := i
  stop := (s.elements array).keys.length

/-- The element for an entry: in a loop over a list that of the entry, in a loop
over a dictionary the one that is stored now. -/
def Presents (now : Store) (array : Value) (entry : String × Value) (element : Value) : Prop :=
  match array with
  | .dict id => (now.dict id).get? entry.1 = some element
  | _ => element = entry.2

end Store

namespace Reserve

variable {s t : Store} {array : Value} {i : Nat} {entry : String × Value}

/-- What a loop over an array sets aside, after some entries: its iteration, and
the copy of a list.  A dictionary is only to keep its keys. -/
def walk (s : Store) (array : Value) (i : Nat) : Reserve :=
  let base : Reserve := match array with
    | .dict id => Reserve.withKeys {} id (s.elements array).keys
    | _ => Reserve.withDict {} s.dicts.size (s.elements array)
  base.withCursor s.cursors.size (s.walk array i)

theorem Stores.cursor_walk (h : (walk s array i).Stores t) :
    t.cursor s.cursors.size = s.walk array i :=
  (h.cursor (if_pos rfl)).2

theorem Stores.exists_walk (h : ({} : Reserve).Stores s)
    (harray : (∃ id, array = .list id) ∨ ∃ id, array = .dict id) :
    ∃ t, s.iterate array = .ok (.cursor s.cursors.size, t) ∧ (walk s array 0).Stores t ∧
      ∀ v, ({} : Reserve).Free s v → (walk s array 0).Free t v := by
  rcases harray with ⟨id, rfl⟩ | ⟨id, rfl⟩
  · have hfree : ∀ e ∈ s.elements (.list id), ({} : Reserve).Free s e.2 := fun _ => h.listEntries
    refine ⟨((s.newDict (s.elements (.list id))).2.newCursor (s.walk (.list id) 0)).2, ?_,
      (h.withNewDict hfree).withNewCursor, fun v hv => hv.newDict.newCursor⟩
    -- The copy has the keys of the list.
    simp [Store.iterate, Store.iterateDict, Store.newDict, Store.newCursor, Store.dict, Store.walk,
      Store.walked, Store.elements]
  · exact ⟨(s.newCursor (s.walk (.dict id) 0)).2, rfl,
      (h.withKeys (prefix_refl _)).withNewCursor, fun v hv => hv.withKeys.newCursor⟩

theorem Stores.finished_walk (h : (walk s array i).Stores t) :
    t.finished (.cursor s.cursors.size) = .ok (decide (i = (s.elements array).length)) := by
  have hlength : (s.elements array).keys.length = (s.elements array).length := length_map _
  simp only [Store.finished, h.cursor_walk, Store.walk, hlength]

theorem Stores.exists_element (h : (walk s array i).Stores t)
    (hentry : (s.elements array)[i]? = some entry) :
    Store.currentKey (s.walk array i) = entry.1 ∧
      ∃ element, t.currentElement (s.walk array i) = .ok element ∧
        t.Presents array entry element := by
  have hkey : Store.currentKey (s.walk array i) = entry.1 := by
    simp [Store.currentKey, Store.walk, Entries.keys, hentry]
  refine ⟨hkey, ?_⟩
  simp only [Store.currentElement, hkey]
  cases array with
  | dict id =>
    have hmem : entry.1 ∈ (s.dict id).keys := mem_map_of_mem (mem_of_getElem? hentry)
    have hbegins : (s.dict id).keys <+: (t.dict id).keys := by
      have hkeys := h.keys id
      rwa [show (walk s (.dict id) i).keys id = (s.dict id).keys from if_pos rfl] at hkeys
    obtain ⟨element, helement⟩ : ∃ element, (t.dict id).get? entry.1 = some element :=
      Option.ne_none_iff_exists'.1 fun hnone =>
        Entries.get?_eq_none_iff.1 hnone (hbegins.subset hmem)
    refine ⟨element, ?_, helement⟩
    rw [show (s.walk (.dict id) i).dict = id from rfl, helement]
  | list id =>
    have hcopy : t.dict s.dicts.size = Store.listEntries (s.list id) := (h.dict (if_pos rfl)).2
    have hget : (t.dict s.dicts.size).get? entry.1 = some entry.2 := by
      rw [hcopy]
      exact lookup_of_nodup (Store.nodup_keys_listEntries _) (mem_of_getElem? hentry)
    refine ⟨entry.2, ?_, rfl⟩
    rw [show (s.walk (.list id) i).dict = s.dicts.size from rfl, hget]
  | _ => cases hentry

/-! ### Operands apart -/

variable {r r' : Reserve} {k : Control} {S T : Situation} {pos steps : Nat} {fault : Bool}
  {stack : List Value} {v : Value}

/-- Apart from the operands of the running activation, no value of a machine in
this situation gets at what is set aside. -/
def Spares (r : Reserve) (k : Control) (S : Situation) : Prop :=
  r.Guards (S.under (k.placed 0 [] 0 false))

theorem Guards.placed {k' : Control} (h : r.Guards (S.under k)) (hcallers : k'.callers = k.callers)
    (hstack : ∀ v ∈ k'.stack, r.Free S.world.store v) : r.Guards (S.under k') := by
  obtain ⟨hcurrent, hwaiting⟩ := forall_mem_cons.1 h.activations
  refine ⟨h.store, h.named, h.functions, h.superglobals, h.literals,
    forall_mem_cons.2 ⟨fun v hv => ?_, ?_⟩⟩
  · rcases mem_append.1 hv with hv | hv
    · exact hcurrent v (mem_append_left _ hv)
    · exact hstack v hv
  · rw [show (S.under k').callers = (S.under k).callers from hcallers]
    exact hwaiting

theorem Spares.guards (h : r.Spares k S) (hstack : ∀ v ∈ stack, r.Free S.world.store v) :
    r.Guards (S.under (k.placed pos stack steps fault)) :=
  Guards.placed h rfl hstack

theorem Guards.spares (h : r.Guards (S.under (k.placed pos stack steps fault))) : r.Spares k S :=
  h.placed rfl nofun

theorem Spares.withStore (h : r.Spares k S) {t : Store} (ht : r'.Stores t)
    (hfree : ∀ v, r.Free S.world.store v → r'.Free t v) : r'.Spares k (S.withStore t) where
  store := ht
  named e he := hfree _ (h.named e he)
  functions e he := hfree _ (h.functions e he)
  superglobals v hv := hfree _ (h.superglobals v hv)
  literals v hv := hfree _ (h.literals v hv)
  activations a ha v hv := hfree _ (h.activations a ha v hv)

theorem Spares.bindTarget {target : Node} (h : r.Spares k S)
    (hcodes : ∀ code ∈ S.world.store.codes, code.IsResolved) (hv : r.Free S.world.store v)
    (hrun : (bindTarget target v).run S = .ok () T) :
    r.Spares k T ∧ S.world.store.Grows T.world.store := by
  cases target with
  | «variable» name slot =>
    have hblind := (Quiet.storeVariable slot v).blind S (k.placed 0 [] 0 false)
    rw [Eval.bindTarget, Eval.run_act] at hrun
    cases hseen : (storeVariable slot v).seen S with
    | error f T' =>
      rw [hseen] at hrun
      cases hrun
    | ok _ T' =>
      rw [hseen] at hrun hblind
      cases hrun
      have hkeeps : Keeps (r.regime T.world.store) (r.regime T.world.store).Holds
          (r.Free T.world.store v) (fun _ => True) (storeVariable slot v) :=
        .storeVariable (r.complete_regime _).toLawful (fun hv => hv) slot
      obtain ⟨hgrows, hkept⟩ := hkeeps _ _ _ hblind (.refl _)
      have hmeets : (r.regime T.world.store).Meets []
          (T.under (k.placed 0 [] 0 false)) :=
        ⟨(hkept (Guards.meets h hcodes hgrows).holds (hv.grows hgrows)).1, .nil⟩
      refine ⟨.of_meets hmeets fun a ha w hw => ?_, hgrows⟩
      exact (h.activations a (mem_cons_of_mem _ ha) w hw).grows hgrows
  | _ =>
    cases hrun
    exact ⟨h, .refl _⟩

end Reserve

theorem Machine.RunsOnly.placed {P : Bytecode → Prop} {k : Control} {S : Situation}
    {pos pos' steps steps' : Nat} {stack stack' : List Value} {fault fault' : Bool}
    (h : (S.under (k.placed pos stack steps fault)).RunsOnly P) :
    (S.under (k.placed pos' stack' steps' fault')).RunsOnly P := by
  obtain ⟨hcurrent, hcallers⟩ := forall_mem_cons.1 h.activations
  exact ⟨h.codes, forall_mem_cons.2 ⟨⟨hcurrent.code, hcurrent.size⟩, hcallers⟩⟩

theorem Frame.exists_storeVariable {f : Frame} {slot : Int} (s : Store) (v : Value)
    (hlow : 0 ≤ slot) (hhigh : slot < f.slots.size) :
    ∃ g t, f.storeVariable s slot v = .ok (g, t) := by
  have hlt : slot.toNat < f.slots.size := by omega
  obtain ⟨old, hold⟩ : ∃ old, f.slots[slot.toNat]? = some old :=
    ⟨_, Array.getElem?_eq_getElem hlt⟩
  have hload : f.load slot = .ok old := by
    rw [Frame.load, if_neg (by omega), hold]
  have hstore : f.store slot v = .ok { f with slots := f.slots.setIfInBounds slot.toNat v } := by
    rw [Frame.store, if_neg (by omega), if_pos hlt]
  simp only [Frame.storeVariable, hload, hstore, bind, Except.bind]
  cases old with
  | ref id => exact ⟨_, _, rfl⟩
  | _ => exact ⟨_, _, rfl⟩

/-! ### The code of a loop -/

open Machine Node

/-- A `foreach` loop in code: where it begins, and its parts. -/
structure Foreach where
  pos : Nat
  subject : Node
  key : Node
  value : Node
  body : Node

namespace Foreach

def node (l : Foreach) : Node := .foreachLoop l.subject l.key l.value l.body

/-- Where the iteration is made, with the array on the stack. -/
def entry (l : Foreach) : Nat := l.pos + l.subject.width

/-- Where every round starts, by looking whether the iteration is over. -/
def start (l : Foreach) : Nat := l.entry + 2

def bodyAt (l : Foreach) : Nat := l.start + l.key.keyWidth + 4

def back (l : Foreach) : Nat := l.bodyAt + l.body.width

def finish (l : Foreach) : Nat := l.back + 1

/-- The header of a round has been gone through: there was an element left, the
variables have got their values, and the body is about to begin. -/
def Begins (l : Foreach) (m b : Machine) : Prop :=
  ∃ m₁, step.run m = .ok .running m₁ ∧ m₁.At m.callers (l.start + 1) ∧ m₁.Reaches l.bodyAt b

/-- A round, from the start back to it: the body is executed from its beginning to
its end. -/
def Round (l : Foreach) (m m' : Machine) : Prop :=
  ∃ b e, l.Begins m b ∧ b.Reaches l.back e ∧ step.run e = .ok .running m'

inductive Rounds (l : Foreach) (m : Machine) : Nat → Machine → Prop where
  | none : l.Rounds m 0 m
  | next {i : Nat} {m' m'' : Machine} : l.Rounds m i m' → l.Round m' m'' → l.Rounds m (i + 1) m''

/-- The header of a round visits an entry: the instruction for the next element
does not fail, and what it gives is assigned, the key of the entry to the variable
for keys, if there is one, and then the element to the variable for elements. -/
def Visits (l : Foreach) (array : Value) (entry : String × Value) (m b : Machine) : Prop :=
  ∃ m₁ m₂ element S, step.run m = .ok .running m₁ ∧ m₁.next? = some .nextIterator ∧
    step.run m₁ = .ok .running m₂ ∧ m.world.store.Presents array entry element ∧
    (Eval.bindTarget l.key (.text entry.1)).run m₂.situation = .ok () S ∧
    (Eval.bindTarget l.value element).run S = .ok () b.situation ∧ m₂.Reaches l.bodyAt b

/-- The code of the loop is in the code of the machine, from a depth of the
stack, and there is room for it.  Nothing in it leaves the loop. -/
structure Hosted (l : Foreach) (scopes : Nat → Scope) (k : Control) (d : Nat) : Prop where
  keyForm : l.key.isAbsent ∨ l.key.isVariable
  valueForm : l.value.isVariable
  tidy : l.body.Tidy {} (.statement (some .foreachLoop))
  iterate : ∃ mark, Has k l.entry ⟨.loadIterator, d + 1, mark⟩
  null : Has k (l.entry + 1) ⟨.loadNull, d + 1, .plain⟩
  test : Has k l.start ⟨.jump .ifIteratorEmpty l.finish, d + 2, .plain⟩
  next : Has k (l.start + 1) ⟨.nextIterator, d + 1, .plain⟩
  key : Hosts k (l.start + 2) (keyLines l.key (d + 3))
  value : Hosts k (l.start + 2 + l.key.keyWidth) (targetLines l.value (d + 2))
  body : ∃ x, Hosts k l.bodyAt (layout scopes l.bodyAt (d + 1) x l.body)
  back : Has k l.back ⟨.jump .always l.start, d + 2, .plain⟩

theorem hosted_of_hosts {l : Foreach} {scopes : Nat → Scope} {k : Control} {d : Nat} {x : Exits}
    {p : Place} (htidy : l.node.Tidy {} p) (h : Hosts k l.pos (l.node.layout scopes l.pos d x)) :
    l.Hosted scopes k d := by
  simp only [node, layout, foreachAt, hosts_append, hosts_cons, length_append, length_cons,
    length_layout, length_keyLines, length_targetLines, ← Nat.add_assoc] at h
  obtain ⟨⟨⟨⟨-, hiterate, hnull, htest, hnext, hkey⟩, hvalue⟩, hbody⟩, hback, -⟩ := h
  have hfinish : l.pos + l.subject.width + l.key.keyWidth + l.body.width + 7 = l.finish := by
    simp only [finish, back, bodyAt, start, entry]
    omega
  rw [hfinish] at htest
  cases htidy with
  | foreachLoop _ keyForm valueForm tidy =>
    exact {
      keyForm, valueForm, tidy
      iterate := ⟨_, hiterate⟩
      null := hnull
      test := htest
      next := hnext
      key := hkey
      value := hvalue.move (by simp only [start, entry]; omega)
      body := ⟨_, hbody.move (by simp only [bodyAt, start, entry]; omega)⟩
      back := hback.move (by simp only [back, bodyAt, start, entry]; omega) }

/-! ### The instructions of a round -/

section

variable {l : Foreach} {scopes : Nat → Scope} {k : Control} {s : List Value} {S T : Situation}
  {m : Machine} {r : Reserve} {iteration array v : Value}

theorem exists_bindTarget {pos d : Nat} {stack : List Value} (hm : m.Stands k S pos stack)
    (hruns : m.RunsOnly Bytecode.IsResolved) {target : Node}
    (hlines : Hosts k pos (keyLines target d) ∨ Hosts k pos (targetLines target d)) (v : Value) :
    ∃ T, (bindTarget target v).run S = .ok () T := by
  cases target with
  | «variable» name slot =>
    have hrange := (hruns.activations m.current mem_cons_self).inRange
    obtain ⟨steps, fault, rfl⟩ := hm
    have hcode : k.code.code[pos]? = some (.assign slot name) :=
      hlines.elim (fun h => (hosts_cons.1 h).1.1) fun h => (hosts_cons.1 h).1.1
    obtain ⟨hlow, hhigh⟩ := (hrange _ hcode).1 slot name rfl
    obtain ⟨frame, store, hstore⟩ := Frame.exists_storeVariable (f := (S.under default).current.frame)
      (S.under default).world.store v hlow hhigh
    apply Exists.intro
    rw [bindTarget, run_act, seen, run_storeVariable, hstore]
    rfl
  | _ => exact ⟨S, rfl⟩

variable (h : l.Hosted scopes k s.length)

include h

theorem Hosted.enter (hm : m.Stands k S l.entry (array :: s))
    (hiterate : (act (onStore (·.iterate array))).run S = .ok iteration T) :
    ∃ m', m.Reaches l.start m' ∧ m'.Stands k T l.start (.null :: iteration :: s) := by
  obtain ⟨mark, hentry⟩ := h.iterate
  have hdoes : Does k l.start 0 (act (onStore (·.iterate array))) (l.entry, array :: s)
      fun v => (l.start, .null :: v :: s) := by
    refine Does.followed (.operation (by simp only [start]; omega) hentry rfl [array] rfl rfl) ?_
    intro v
    exact does_afterNull (s := v :: s) h.null (by simp only [start]; omega) (.pure rfl)
  exact hdoes.reaches hm hiterate

theorem Hosted.depth_le : s.length + 2 ≤ k.capacity := h.test.2.1

theorem Hosted.look (hm : m.Stands k S l.start (v :: iteration :: s)) {ended : Bool}
    (hended : S.world.store.finished iteration = .ok ended) :
    ∃ m', step.run m = .ok .running m' ∧ m'.Stands k S (cond ended l.finish (l.start + 1))
      (cond ended (v :: s) (iteration :: s)) := by
  refine hm.step (cond ended (.jump l.finish) .next) h.test.1 (by cases ended <;> rfl)
    fun k' hstack hcapacity => ?_
  have hroom : k'.stack.length ≤ k'.capacity := by
    rw [hstack, hcapacity]
    exact h.depth_le
  rw [Instr.exec_jump_ifIteratorEmpty hstack hroom, hended]
  cases ended <;> rfl

theorem Hosted.fetch {element key : Value}
    (hm : m.Stands k S (l.start + 1) (iteration :: s))
    (hfetch : (fetch iteration).seen S = .ok (element, key) T) :
    ∃ m', step.run m = .ok .running m' ∧
      m'.Stands k T (l.start + 2) (key :: element :: iteration :: s) := by
  refine hm.step .next h.next.1 rfl fun k' hstack hcapacity => ?_
  have hroom : s.length + 3 ≤ k'.capacity := by
    have hfits : s.length + 1 + 3 ≤ k.capacity + 1 := h.next.2.2
    omega
  have hexec := Instr.exec_nextIterator (L := Nat) (S := S) hstack hroom
  rw [hfetch] at hexec
  exact hexec

theorem Hosted.goBack (hm : m.Stands k S l.back (v :: iteration :: s)) :
    ∃ m', step.run m = .ok .running m' ∧ m'.Stands k S l.start (v :: iteration :: s) := by
  refine hm.step (.jump l.start) h.back.1 rfl fun k' hstack _ => ?_
  rw [← hstack]
  exact Instr.exec_jump

theorem Hosted.assign {word element : Value}
    (hm : m.Stands k S (l.start + 2) (word :: element :: iteration :: s))
    (hruns : m.RunsOnly Bytecode.IsResolved) (hspares : r.Spares k S)
    (hword : r.Free S.world.store word) (helement : r.Free S.world.store element) :
    ∃ T U b, (bindTarget l.key word).run S = .ok () T ∧
      (bindTarget l.value element).run T = .ok () U ∧ m.Reaches l.bodyAt b ∧
      b.Stands k U l.bodyAt (iteration :: s) ∧ r.Spares k U := by
  have hkey : Does k l.bodyAt 0 (bindTarget l.key word)
      (l.start + 2, word :: element :: iteration :: s)
      fun _ => (l.start + 2 + l.key.keyWidth, element :: iteration :: s) :=
    does_key h.keyForm h.key (by simp only [bodyAt]; omega)
  have hvalue : Does k l.bodyAt 0 (bindTarget l.value element)
      (l.start + 2 + l.key.keyWidth, element :: iteration :: s)
      fun _ => (l.bodyAt, iteration :: s) := by
    have hbodyAt : l.bodyAt = l.start + 2 + l.key.keyWidth + 2 := by
      simp only [bodyAt]
      omega
    rw [hbodyAt]
    exact does_target h.valueForm h.value (Nat.le_refl _)
  obtain ⟨T, hT⟩ := exists_bindTarget hm hruns (.inl h.key) word
  -- The slot of the second variable is there when the first one has been assigned.
  have hcarries := hkey S m hm
  rw [hT] at hcarries
  obtain ⟨n, m₁, hcourse, hm₁⟩ := hcarries
  have hruns₁ := hruns.course Bytecode.hereditary_isResolved hcourse
  obtain ⟨U, hU⟩ := exists_bindTarget hm₁ hruns₁ (.inr h.value) element
  have hboth : (bindTarget l.key word >>= fun _ => bindTarget l.value element).run S
      = .ok () U := by
    rw [EStateM.run_bind, hT]
    exact hU
  have hdoes := hkey.bind fun _ _ => hvalue
  obtain ⟨b, hreaches, hb⟩ := hdoes.reaches hm hboth
  have hcodes : ∀ {S : Situation} {m : Machine} {pos : Nat} {stack : List Value},
      m.Stands k S pos stack → m.RunsOnly Bytecode.IsResolved →
      ∀ code ∈ S.world.store.codes, code.IsResolved := by
    rintro S _ pos stack ⟨_, _, rfl⟩ hruns
    exact hruns.codes
  obtain ⟨hspares₁, hgrows⟩ := hspares.bindTarget (hcodes hm hruns) hword hT
  obtain ⟨hspares₂, -⟩ :=
    hspares₁.bindTarget (hcodes hm₁ hruns₁) (helement.grows hgrows) hU
  exact ⟨T, U, b, hT, hU, hreaches, hb, hspares₂⟩

/-- The body leaves one value on the stack, and does not get at what is set aside:
it would do the same with nulls for all the operands below. -/
theorem Hosted.body_spares {b e : Machine}
    (hb : b.Stands k S l.bodyAt (iteration :: s)) (hruns : b.RunsOnly Bytecode.IsResolved)
    (hspares : r.Spares k S) (hreaches : b.Reaches l.back e) :
    ∃ v T, e.Stands k T l.back (v :: iteration :: s) ∧ r.Spares k T := by
  obtain ⟨x, hbody⟩ := h.body
  have hdoes : ∀ stack : List Value, stack.length = s.length + 1 → ∀ fuel,
      Does k l.back fuel (l.body.eval fuel) (l.bodyAt, stack) fun v => (l.back, v :: stack) := by
    intro stack hlength fuel
    rw [← hlength] at hbody
    exact h.tidy.simulates hbody (Nat.le_refl _)
  -- The evaluation of the body does not see the stack, so it can be run on another one.
  obtain ⟨v, fuel, T, heval, he⟩ := Does.ok_of_reaches (hdoes (iteration :: s) rfl) hb hreaches
  refine ⟨v, T, he, ?_⟩
  have hnulls : ∀ v ∈ replicate (s.length + 1) Value.null, r.Free S.world.store v := by
    intro v hv
    rw [eq_of_mem_replicate hv]
    trivial
  have hcarries := hdoes (replicate (s.length + 1) .null) length_replicate fuel S
    (S.under (k.placed l.bodyAt (replicate (s.length + 1) .null) 0 false)) ⟨0, false, rfl⟩
  rw [heval] at hcarries
  obtain ⟨n, m', hcourse, steps, fault, rfl⟩ := hcarries
  obtain ⟨_, _, rfl⟩ := hb
  exact ((hspares.guards hnulls).course hruns.placed hcourse).spares

end

/-! ### Stages of a loop -/

/-- Where a loop over an array is after some rounds, if it was entered in this
store: at its start, with the iteration and the value of the last round on the
stack.  The iteration has gone past one entry a round. -/
structure Stage (l : Foreach) (k : Control) (entered : Store) (array : Value) (s : List Value)
    (i : Nat) (m : Machine) : Prop where
  le : i ≤ (entered.elements array).length
  stands : ∃ S last, m.Stands k S l.start (last :: .cursor entered.cursors.size :: s) ∧
    (Reserve.walk entered array i).Spares k S
  runs : m.RunsOnly Bytecode.IsResolved

section

variable {l : Foreach} {scopes : Nat → Scope} {k : Control} {entered : Store} {array : Value}
  {s : List Value} {i : Nat} {m m' : Machine}

theorem Begins.unique {b b' : Machine} (h : l.Begins m b) (h' : l.Begins m b') : b = b' := by
  obtain ⟨m₁, hstep, -, n, hcourse, hb⟩ := h
  obtain ⟨m₁', hstep', -, n', hcourse', hb'⟩ := h'
  cases hstep.symm.trans hstep'
  exact hcourse.unique hcourse' (not_not_intro hb) (not_not_intro hb')

theorem fetch_walk {S : Situation} {element : Value} {entry : String × Value}
    (hstores : (Reserve.walk entered array i).Stores S.world.store)
    (hkey : Store.currentKey (entered.walk array i) = entry.1)
    (helement : S.world.store.currentElement (entered.walk array i) = .ok element) :
    (fetch (.cursor entered.cursors.size)).seen S = .ok (element, .text entry.1)
      (S.withStore (S.world.store.setCursor entered.cursors.size (entered.walk array (i + 1)))) := by
  have hcursor : S.world.store.cursor entered.cursors.size = entered.walk array i :=
    hstores.cursor_walk
  have hnext : S.world.store.nextElement entered.cursors.size = .ok (element,
      S.world.store.setCursor entered.cursors.size (entered.walk array (i + 1))) := by
    simp only [Store.nextElement, hstores.cursor_walk, helement]
    rfl
  have hstore : ∀ k, (S.under k).world.store = S.world.store := fun _ => rfl
  simp only [fetch, seen, EStateM.run_bind, EStateM.run_get, run_fromStore,
    run_onStore, hstore, hcursor, helement, hnext, hkey]
  rfl

variable (hosted : l.Hosted scopes k s.length)

include hosted

theorem Stage.leave (h : l.Stage k entered array s i m)
    (hi : i = (entered.elements array).length) :
    ∃ S last m', step.run m = .ok .running m' ∧ m'.Stands k S l.finish (last :: s) := by
  obtain ⟨S, last, hm, hspares⟩ := h.stands
  have hover : S.world.store.finished (.cursor entered.cursors.size) = .ok true :=
    hspares.store.finished_walk.trans (congrArg _ (decide_eq_true hi))
  obtain ⟨m', hstep, hm'⟩ := hosted.look hm hover
  exact ⟨S, last, m', hstep, hm'⟩

theorem Stage.visits (h : l.Stage k entered array s i m)
    {entry : String × Value} (hentry : (entered.elements array)[i]? = some entry) :
    ∃ b S, l.Begins m b ∧ l.Visits array entry m b ∧
      b.Stands k S l.bodyAt (.cursor entered.cursors.size :: s) ∧
      (Reserve.walk entered array (i + 1)).Spares k S ∧ b.RunsOnly Bytecode.IsResolved := by
  obtain ⟨S, last, hm, hspares⟩ := h.stands
  have hlt : i < (entered.elements array).length := (List.getElem?_eq_some_iff.1 hentry).1
  have hover : S.world.store.finished (.cursor entered.cursors.size) = .ok false :=
    hspares.store.finished_walk.trans (congrArg _ (decide_eq_false (Nat.ne_of_lt hlt)))
  obtain ⟨m₁, hstep₁, hm₁⟩ := hosted.look hm hover
  replace hm₁ : m₁.Stands k S (l.start + 1) (.cursor entered.cursors.size :: s) := hm₁
  obtain ⟨hkey, element, helement, hpresents⟩ := hspares.store.exists_element hentry
  obtain ⟨m₂, hstep₂, hm₂⟩ := hosted.fetch hm₁ (fetch_walk hspares.store hkey helement)
  have hruns₁ := h.runs.step Bytecode.hereditary_isResolved hstep₁
  have hruns₂ := hruns₁.step Bytecode.hereditary_isResolved hstep₂
  -- The iteration has gone on, and is still set aside.
  have hspares₂ : (Reserve.walk entered array (i + 1)).Spares k (S.withStore _) :=
    hspares.withStore hspares.store.moveCursor fun v hv => hv.setCursor
  have hfree : (Reserve.walk entered array (i + 1)).Free _ element :=
    (hspares.store.entries (Store.mem_of_currentElement helement).choose_spec).setCursor
  obtain ⟨T, U, b, hT, hU, hreaches, hb, hspares'⟩ :=
    hosted.assign hm₂ hruns₂ hspares₂ trivial hfree
  obtain ⟨n, hcourse, hat⟩ := hreaches
  have hbegins : m₁.Reaches l.bodyAt b := by
    have hcallers : m₂.callers = m₁.callers := hm₂.at.1.trans hm₁.at.1.symm
    rw [hcallers] at hcourse hat
    refine ⟨n + 1, .next ?_ hstep₂ hcourse, hat⟩
    rintro ⟨-, hpos⟩
    have hstart := hm₁.at.2
    simp only [bodyAt] at hpos
    omega
  refine ⟨b, U, ⟨m₁, hstep₁, ?_, hbegins⟩, ⟨m₁, m₂, element, T, hstep₁, ?_, hstep₂, ?_, ?_, ?_, n,
    hcourse, hat⟩, hb, hspares', hruns₂.course Bytecode.hereditary_isResolved hcourse⟩
  · rw [hm.at.1]
    exact hm₁.at
  · obtain ⟨_, _, rfl⟩ := hm₁
    exact hosted.next.1
  · obtain ⟨_, _, rfl⟩ := hm
    exact hpresents
  · obtain ⟨_, _, rfl⟩ := hm₂
    exact hT
  · obtain ⟨_, _, rfl⟩ := hb
    exact hU

theorem Stage.round (h : l.Stage k entered array s i m)
    (hround : l.Round m m') : l.Stage k entered array s (i + 1) m' := by
  obtain ⟨b, e, hbegins, hreaches, hback⟩ := hround
  have hlt : i < (entered.elements array).length := by
    refine Nat.lt_of_le_of_ne h.le fun hi => ?_
    -- With all entries visited the first step would leave the loop.
    obtain ⟨S, last, m₁, hstep, hm₁⟩ := h.leave hosted hi
    obtain ⟨m₁', hstep', hat, -⟩ := hbegins
    cases hstep.symm.trans hstep'
    have hpos := hm₁.at.2.symm.trans hat.2
    simp only [finish, back, bodyAt] at hpos
    omega
  have hentry := getElem?_eq_getElem hlt
  obtain ⟨b', S, hbegins', -, hb, hspares, hruns⟩ := h.visits hosted hentry
  obtain rfl := hbegins.unique hbegins'
  obtain ⟨v, T, he, hspares'⟩ := hosted.body_spares hb hruns hspares hreaches
  obtain ⟨m'', hstep, hm''⟩ := hosted.goBack he
  cases hback.symm.trans hstep
  obtain ⟨n, hcourse, -⟩ := hreaches
  have hruns' := hruns.course Bytecode.hereditary_isResolved hcourse
  exact ⟨hlt, ⟨T, v, hm'', hspares'⟩, hruns'.step Bytecode.hereditary_isResolved hstep⟩

theorem Stage.rounds (h : l.Stage k entered array s 0 m)
    (hrounds : l.Rounds m i m') : l.Stage k entered array s i m' := by
  induction hrounds with
  | none => exact h
  | next _ hround ih => exact ih.round hosted hround

theorem Stage.exists_rounds (h : l.Stage k entered array s 0 m)
    (hends : ∀ i m' b, l.Rounds m i m' → l.Begins m' b → ∃ e, b.Reaches l.back e)
    (hi : i ≤ (entered.elements array).length) : ∃ m', l.Rounds m i m' := by
  induction i with
  | zero => exact ⟨m, .none⟩
  | succ i ih =>
    obtain ⟨m', hrounds⟩ := ih (Nat.le_of_succ_le hi)
    have hstage := h.rounds hosted hrounds
    -- There is an entry left, so a body begins, and by assumption comes to its end.
    obtain ⟨b, S, hbegins, -, hb, hspares, hruns⟩ :=
      hstage.visits hosted (getElem?_eq_getElem hi)
    obtain ⟨e, hreaches⟩ := hends i m' b hrounds hbegins
    obtain ⟨v, T, he, -⟩ := hosted.body_spares hb hruns hspares hreaches
    obtain ⟨m'', hstep, -⟩ := hosted.goBack he
    exact ⟨m'', hrounds.next ⟨b, e, hbegins, hreaches, hstep⟩⟩

end

end Foreach

theorem Eval.run_act_onStore {α : Type} {f : Store → Except Fault (α × Store)} {S : Situation}
    {r : α} {t : Store} (h : f S.world.store = .ok (r, t)) :
    (act (onStore f)).run S = .ok r (S.withStore t) := by
  have hstore : f (S.under default).world.store = .ok (r, t) := h
  rw [run_act, seen, run_onStore, hstore]
  rfl

/-- A `foreach` loop visits every entry of its array once.  In a run of a program
that is read from a tree, in a world where nothing is missing, let the machine have
an array on the stack where the code of a loop makes its iteration.  Nothing in the
loop is to leave it, and there is to be room for its code.  Then it reaches the start
of the loop, and after any number of rounds

* there were at most as many rounds as the array had entries, and the machine is at
  the start again, with one value more than the iteration on the stack;
* if there is an entry left, it is visited: fetching its element cannot fail, its
  key and its element are assigned, and the body begins;
* if none is left, the next step leaves the loop, with one value in place of the
  array;
* and there are as many rounds as entries, if the body always comes to its end. -/
theorem foreach_visits_every_entry {tree : Tree} (hmain : tree.MainAtRoot) {script : Script}
    (hread : Script.ofTree tree = .ok script) {name : String} {code : Bytecode}
    (hcompile : script.compile name = .ok code) {world : World} {interpreter : Interpreter}
    (hcodes : ∀ code ∈ world.store.codes, code.IsResolved) (hworld : world.Intact interpreter)
    {first m : Machine} (hlaunch : Machine.launch world interpreter code = .ok first) {n : Nat}
    (hcourse : Course (fun _ => True) n first m) {l : Foreach} {p : Place}
    (htidy : l.node.Tidy {} p) {scopes : Nat → Scope} {a a' : Assembler} {items : List Item}
    (ha : 0 ≤ a.nextLabel) (hrun : (l.node.compile scopes).run a = .ok () a')
    (hitems : a'.items = a.items ++ items.toArray) {table : List (Int × Nat)}
    (hplaced : Placed table m.current.frame.code.code l.pos items)
    (hpos : m.current.pos = l.entry) {array : Value} {s : List Value}
    (harray : (∃ id, array = .list id) ∨ ∃ id, array = .dict id)
    (hstack : m.current.frame.stack = array :: s)
    (hroom : ∀ line ∈ l.node.layout scopes l.pos s.length {},
      line.Fits m.current.frame.capacity) :
    ∃ iteration m₀, m.Reaches l.start m₀ ∧
      (∀ i m', l.Rounds m₀ i m' → i ≤ (m.world.store.elements array).length ∧
        m'.At m.callers l.start ∧ ∃ last, m'.current.frame.stack = last :: iteration :: s) ∧
      (∀ i m' entry, l.Rounds m₀ i m' → (m.world.store.elements array)[i]? = some entry →
        ∃ b, l.Begins m' b ∧ l.Visits array entry m' b ∧
          b.current.frame.stack = iteration :: s) ∧
      (∀ m', l.Rounds m₀ (m.world.store.elements array).length m' →
        ∃ last done, step.run m' = .ok .running done ∧ done.At m.callers l.finish ∧
          done.current.frame.stack = last :: s) ∧
      ((∀ i m' b, l.Rounds m₀ i m' → l.Begins m' b → ∃ e, b.Reaches l.back e) →
        ∃ m', l.Rounds m₀ (m.world.store.elements array).length m') := by
  obtain ⟨hresolved, hliteral⟩ := Script.resolved hmain hread
  have hcode := Script.isResolved_of_compile hresolved hliteral hcompile
  have hruns₀ := RunsOnly.launch hcodes hcode hlaunch
  have hruns := hruns₀.course Bytecode.hereditary_isResolved hcourse
  have hguards := (Reserve.Guards.launch hworld hcode hlaunch).course hruns₀ hcourse
  have hosted : l.Hosted scopes m.control s.length :=
    Foreach.hosted_of_hosts htidy (htidy.hosts ha hrun hitems hplaced hroom).2
  have hplace : m = m.situation.under
      (m.control.placed l.entry (array :: s) m.steps m.stackFault) := by
    rw [← hpos, ← hstack]
    exact m.situation_under_control.symm
  have hspares : ({} : Reserve).Spares m.control m.situation :=
    Reserve.Guards.spares ((congrArg (Reserve.Guards {}) hplace).mp hguards)
  -- The iteration is made, and is set aside with what it goes over.
  obtain ⟨t, hiterate, hstores, hfree⟩ := hspares.store.exists_walk harray
  have hact : (Eval.act (Exec.onStore (·.iterate array))).run m.situation
      = .ok (.cursor m.world.store.cursors.size) (m.situation.withStore t) :=
    Eval.run_act_onStore hiterate
  obtain ⟨m₀, hreaches, hm₀⟩ := hosted.enter ⟨_, _, hplace⟩ hact
  have hstage : l.Stage m.control m.world.store array s 0 m₀ := by
    obtain ⟨k, hway, -⟩ := hreaches
    exact ⟨Nat.zero_le _, ⟨_, _, hm₀, hspares.withStore hstores hfree⟩,
      hruns.course Bytecode.hereditary_isResolved hway⟩
  refine ⟨.cursor m.world.store.cursors.size, m₀, hreaches, ?_, ?_, ?_, ?_⟩
  · intro i m' hrounds
    have hstage' := hstage.rounds hosted hrounds
    obtain ⟨S, last, hm', -⟩ := hstage'.stands
    exact ⟨hstage'.le, hm'.at, last, hm'.stack⟩
  · intro i m' entry hrounds hentry
    obtain ⟨b, S, hbegins, hvisits, hb, -⟩ := (hstage.rounds hosted hrounds).visits hosted hentry
    exact ⟨b, hbegins, hvisits, hb.stack⟩
  · intro m' hrounds
    obtain ⟨S, last, done, hstep, hdone⟩ := (hstage.rounds hosted hrounds).leave hosted rfl
    exact ⟨last, done, hstep, hdone.at, hdone.stack⟩
  · intro hends
    exact hstage.exists_rounds hosted hends (Nat.le_refl _)

open Sample

/-- `$a = [5, 6]; foreach ($a as $k => $v) { $a[2] = $v; print $k; }` -/
def growingTree : Tree := programTree [
  assignTree "$a" (.branch "arrayliteral" [token "[", numeral "5", numeral "6"]),
  .branch "iterationstatement" [.branch "keyforeach" [token "foreach", variableTree "$a",
    variableTree "$k", variableTree "$v", blockTree [
      expressionTree (operatorTree "assignmentexpression" "="
        (elementTree (variableTree "$a") (numeral "2")) (variableTree "$v")),
      printTree (variableTree "$k")]]]]

def growingLoop : Foreach where
  pos := 5
  subject := .variable "$a" 0
  key := .variable "$k" 1
  value := .variable "$v" 2
  body := .block [
    .exprStatement (.memberAssignment (.variable "$a" 0) (.constantInt 2 2) (.variable "$v" 2) "="
      false),
    .print (.variable "$k" 1)]

def growingItems : List Item :=
  [.instr (.loadVar 0 "$a"), .instr .loadIterator, .instr .loadNull, .label 100000,
    .instr (.jump .ifIteratorEmpty 100001), .instr .nextIterator, .instr (.assign 1 "$k"),
    .instr .discardTop, .instr (.assign 2 "$v"), .instr .discardTop, .instr (.loadVar 2 "$v"),
    .instr (.loadConstant 2), .instr (.storeMemberVar 0 "$a"), .instr .discardTop,
    .instr (.loadVar 1 "$k"), .instr .print, .instr (.jump .always 100000), .label 100001]

/-- The loop makes its list longer, and begins with the first of its two entries. -/
theorem foreach_visits_every_entry_growing :
    ∃ script code first m iteration m₀ b, Script.ofTree growingTree = .ok script ∧
      script.compile "main" = .ok code ∧ Machine.launch {} {} code = .ok first ∧
      Course (fun _ => True) 6 first m ∧ m.current.frame.stack = [.list 0] ∧
      m.world.store.elements (.list 0) = [("0", .int 5), ("1", .int 6)] ∧
      m.Reaches growingLoop.start m₀ ∧ growingLoop.Visits (.list 0) ("0", .int 5) m₀ b ∧
      b.current.frame.stack = [iteration] := by
  obtain ⟨script, hread, code, hcompile, first, hlaunch, m, hcourse, hpos, hcapacity, hlines, hstack,
      helements⟩ : growingTree.ComesTo {} {} 6 fun _ _ m => m.current.pos = 6 ∧
      m.current.frame.capacity = 4 ∧
      m.current.frame.code.code.toList.drop 5 = [.loadVar 0 "$a", .loadIterator, .loadNull,
        .jump .ifIteratorEmpty 21, .nextIterator, .assign 1 "$k", .discardTop, .assign 2 "$v",
        .discardTop, .loadVar 2 "$v", .loadConstant 2, .storeMemberVar 0 "$a", .discardTop,
        .loadVar 1 "$k", .print, .jump .always 8, .returnTop] ∧
      m.current.frame.stack = [.list 0] ∧
      m.world.store.elements (.list 0) = [("0", .int 5), ("1", .int 6)] := by decide +kernel
  have hmain : growingTree.MainAtRoot := by decide
  have htidy : growingLoop.node.Tidy {} .inner := by
    refine .foreachLoop .variable (.inr rfl) rfl (.block fun n hn => ?_)
    rcases List.mem_cons.1 hn with rfl | hn
    · exact .exprStatement (.memberAssignment (by decide) (fun _ => rfl) .variable .constantInt
        .variable)
    · obtain rfl := List.mem_singleton.1 hn
      exact .print .variable
  have hrun : (growingLoop.node.compile fun _ => {}).run {} = .ok ()
      { ({} : Assembler) with items := growingItems.toArray, nextLabel := 100002 } := rfl
  have hcode : ∀ i, 5 ≤ i → m.current.frame.code.code[i]?
      = (m.current.frame.code.code.toList.drop 5)[i - 5]? := by
    intro i hi
    rw [List.getElem?_drop, Array.getElem?_toList, Nat.add_sub_cancel' hi]
  rw [hlines] at hcode
  have hplaced : Placed [(100001, 21), (100000, 8)] m.current.frame.code.code 5 growingItems := by
    have hstart : Item.position [(100001, 21), (100000, 8)] 100000 = .ok 8 := rfl
    have hfinish : Item.position [(100001, 21), (100000, 8)] 100001 = .ok 21 := rfl
    simp [growingItems, Instr.retarget, hstart, hfinish, hcode, Except.map]
  have hroom : ∀ line ∈ growingLoop.node.layout (fun _ => {}) 5 0 {},
      line.Fits m.current.frame.capacity := by
    rw [hcapacity]
    simp [growingLoop, Foreach.node, Node.layout, Node.layoutBlock, Node.lineIf, Line.Fits,
      Instr.leaves, Instr.needs, Instr.operation?, Jump.leaves, Jump.needs, Node.foreachAt,
      Node.width, Node.keyLines, Node.targetLines, Node.storeLines]
  obtain ⟨iteration, m₀, hreaches, -, hvisits, -⟩ := foreach_visits_every_entry hmain hread hcompile
    (fun code h => absurd h (Array.not_mem_empty code)) World.intact_empty hlaunch hcourse htidy
    (by decide) hrun rfl hplaced hpos (.inl ⟨0, rfl⟩) hstack hroom
  obtain ⟨b, -, hvisits, hb⟩ := hvisits 0 m₀ ("0", .int 5) .none (by rw [helements]; rfl)
  exact ⟨script, code, first, m, iteration, m₀, b, hread, hcompile, hlaunch, hcourse, hstack,
    helements, hreaches, hvisits, hb⟩

/-- `$a = [5, 6]; foreach ($a as $k => $v) { global $x; print $v; }` -/
def strayGlobalTree : Tree := programTree [
  assignTree "$a" (.branch "arrayliteral" [token "[", numeral "5", numeral "6"]),
  .branch "iterationstatement" [.branch "foreach" [token "foreach", variableTree "$a",
    variableTree "$v", blockTree [globalTree "$x", printTree (variableTree "$v")]]]]

/-- A declaration in the body leaves no value, but a value is discarded after it: the
iteration.  The loop prints one of two elements, and then it fails. -/
theorem global_discards_iteration :
    ∃ script code first m last, Script.ofTree strayGlobalTree = .ok script ∧
      script.compile "main" = .ok code ∧ Machine.launch {} {} code = .ok first ∧
      Course (fun _ => True) 17 first m ∧
      m.world.store.elements (.list 0) = [("0", .int 5), ("1", .int 6)] ∧
      m.world.written = "5" ∧ m.next? = some (.jump .ifIteratorEmpty 17) ∧
      step.run m = .error .checkFailed last := by
  obtain ⟨script, hread, code, hcompile, first, hlaunch, m, hcourse, helements, hwritten, hnext, _,
      last, hfails, rfl⟩ : strayGlobalTree.ComesTo {} {} 17 fun _ _ m =>
      m.world.store.elements (.list 0) = [("0", .int 5), ("1", .int 6)] ∧ m.world.written = "5" ∧
      m.next? = some (.jump .ifIteratorEmpty 17) ∧
      ∃ fault last, step.run m = .error fault last ∧ fault = .checkFailed := by decide +kernel
  exact ⟨script, code, first, m, last, hread, hcompile, hlaunch, hcourse, helements, hwritten, hnext,
    hfails⟩

end PageScript
