/-
Instructions keep to a regime.

A function is entered with nothing in its slots but what its caller may hand over
(`enterFunction_spec`).  `Instr.after` says of which kinds the operands of an
instruction and those it leaves are, and `Instr.obeys` that every instruction does so
and keeps to the regime.
-/
import PageScript.Proofs.Regime

open EStateM (Result)

namespace PageScript

open List Instr Exec

variable {m m' : Machine} {ks' : List Kind} {args : List Value} {frame : Frame} {v : Value}
  {name : String} {count : Int}

/-! ### Entering functions -/

/-- An argument that may be passed: by value what is in any cell, by reference
a cell that may be reached. -/
def Regime.Passable (g : Regime) (byValue : Bool) (v : Value) : Prop :=
  g.storable v ∨ ∃ id, v = .ref id ∧ (byValue ∨ g.reachable id)

namespace Frame

variable {f g : Frame} {s t : Store} {slot other : Int} {v : Value}

theorem load_of_store (h : f.store slot v = .ok g) (hne : other ≠ slot) :
    g.load other = f.load other := by
  unfold store at h
  split at h
  · cases h
  · split at h <;> cases h
    unfold load
    split
    · rfl
    · dsimp only
      rw [Array.getElem?_setIfInBounds_ne (by omega)]

theorem load_of_store_self (h : f.store slot v = .ok g) : g.load slot = .ok v := by
  unfold store at h
  split at h
  · cases h
  · split at h <;> cases h
    rename_i hneg hlt
    simp [load, hneg, hlt]

theorem Puts.load {content : Value → Prop} (h : f.Puts s slot v content g t)
    (hne : other ≠ slot) : g.load other = f.load other := by
  cases h with
  | cell => rfl
  | slot _ _ hstore => exact load_of_store hstore hne

theorem load_of_storeVariable (h : f.storeVariable s slot v = .ok (g, t)) (hne : other ≠ slot) :
    g.load other = f.load other :=
  (puts_of_storeVariable h).load hne

theorem fillSuperglobals_spec {values : List Value} {slots slots' : Array Value} {places : List Int}
    (h : fillSuperglobals values slots places = .ok slots') :
    (∀ {v}, v ∈ slots' → v ∈ slots ∨ v ∈ values) ∧
      ∀ {n : Nat}, (n : Int) ∉ places → slots'[n]? = slots[n]? := by
  induction places generalizing values slots with
  | nil =>
    cases h
    exact ⟨.inl, fun _ => rfl⟩
  | cons place places ih =>
    unfold fillSuperglobals at h
    split at h
    · obtain ⟨hmem, hsame⟩ := ih h
      exact ⟨fun hv => (hmem hv).imp_right mem_of_mem_drop,
        fun hn => hsame fun hmem => hn (mem_cons_of_mem _ hmem)⟩
    · cases values with
      | nil => cases h
      | cons w values =>
        obtain ⟨hmem, hsame⟩ := ih h
        refine ⟨fun hv => ?_, fun hn => ?_⟩
        · rcases hmem hv with hv | hv
          · rcases Array.mem_or_eq_of_mem_setIfInBounds hv with hv | rfl
            · exact .inl hv
            · exact .inr mem_cons_self
          · exact .inr (mem_cons_of_mem _ hv)
        · rw [hsame fun hmem => hn (mem_cons_of_mem _ hmem),
            Array.getElem?_setIfInBounds_ne]
          rintro rfl
          exact hn (mem_cons.2 (.inl (by omega)))

theorem new_spec {values : List Value} {code : Bytecode} (h : new values code = .ok f) :
    f.code = code ∧ (∀ {v}, v ∈ f.slots → v = .unset ∨ v ∈ values) ∧
      ∀ {n : Nat} {v}, (n : Int) ∉ code.superglobals → f.load n = .ok v → v = .unset := by
  obtain ⟨slots, hfill, h⟩ := ok_of_bind h
  cases h
  obtain ⟨hmem, hsame⟩ := fillSuperglobals_spec hfill
  refine ⟨rfl, fun hv => (hmem hv).imp_left fun hv => (Array.eq_of_mem_replicate hv), ?_⟩
  intro n v hn hload
  unfold load at hload
  rw [if_neg (by omega), Int.toNat_natCast, hsame hn] at hload
  split at hload <;> cases hload
  exact Array.eq_of_mem_replicate (Array.mem_of_getElem? ‹_›)

end Frame

/-- Slots after the variables of some names were bound to references. -/
structure Regime.Rebound (g : Regime) (code : Bytecode) (globals : List (String × Int))
    (slots slots' : Array Value) : Prop where
  size : slots'.size = slots.size
  value : ∀ (n : Nat) v, slots'[n]? = some v →
    slots[n]? = some v ∨ g.Bindable v ∧ ∃ e ∈ globals, code.slotOf e.1 = n

namespace Regime.Rebound

variable {g : Regime} {code : Bytecode} {globals : List (String × Int)}
  {slots slots₁ slots₂ : Array Value}

theorem refl : g.Rebound code globals slots slots := ⟨rfl, fun _ _ => .inl⟩

theorem trans (h₁ : g.Rebound code globals slots slots₁)
    (h₂ : g.Rebound code globals slots₁ slots₂) : g.Rebound code globals slots slots₂ where
  size := h₂.size.trans h₁.size
  value n v hv := (h₂.value n v hv).elim (h₁.value n v) .inr

theorem mono {more : List (String × Int)} (h : g.Rebound code globals slots slots₁)
    (hmore : globals ⊆ more) : g.Rebound code more slots slots₁ where
  size := h.size
  value n v hv := (h.value n v hv).imp_right fun ⟨hv, e, he, hslot⟩ => ⟨hv, e, hmore he, hslot⟩

theorem binds (h : g.Rebound code globals slots slots₁) (hslots : g.Binds slots) :
    g.Binds slots₁ := by
  intro v hv
  obtain ⟨n, hn⟩ := Array.mem_iff_getElem?.1 hv
  rcases h.value n v hn with hn | ⟨hv, -⟩
  · exact hslots v (Array.mem_of_getElem? hn)
  · exact hv

theorem of_store {f f' : Frame} {r : Value} {slot : Int}
    (h : f.store (code.slotOf name) r = .ok f') (hr : g.Bindable r) :
    g.Rebound code [(name, slot)] f.slots f'.slots := by
  unfold Frame.store at h
  split at h
  · cases h
  · split at h <;> cases h
    rename_i hneg _
    refine ⟨Array.size_setIfInBounds, fun n v hn => ?_⟩
    rw [Array.getElem?_setIfInBounds] at hn
    split at hn
    · rename_i heq
      cases hn
      exact .inr ⟨hr, _, mem_singleton.2 rfl, by dsimp only; omega⟩
    · exact .inl hn

end Regime.Rebound

namespace Exec

variable {g : Regime} {A : Prop} {J : Machine → Prop}

theorem Keeps.bindArgument (hg : g.Complete) (hJ : g.Covers J) {byValue : Bool}
    (hv : A → g.Passable byValue v) :
    Keeps g J A (fun w => g.Bindable w ∧ (byValue → g.storable w))
      (bindArgument byValue v) := by
  cases byValue with
  | true =>
    have hcopy : ∀ {A : Prop} w, (A → g.storable w) →
        Keeps g J A (fun w => g.Bindable w ∧ (True → g.storable w)) (Exec.onStore (·.copy w)) :=
      fun w hw => .onStore hJ fun s r t hr =>
        (hg.copy hr).imp (fun _ => hw) fun _ hr => ⟨.inl hr, fun _ => hr⟩
    unfold Exec.bindArgument
    simp only [if_true]
    split
    · refine .bind (P := g.storable) (.fromStore hJ fun s w hw hs _ => ?_) fun w =>
        hcopy w And.right
      rcases Store.valueOf_cases hw with ⟨-, hplain⟩ | ⟨id, -, hcell⟩
      · exact absurd ‹_› (Bool.eq_false_iff.1 hplain)
      · exact hg.cells hs hcell
    · refine hcopy v fun hA => (hv hA).elim id ?_
      rintro ⟨id, rfl, -⟩
      exact absurd rfl ‹_›
  | false =>
    unfold Exec.bindArgument
    simp only [Bool.false_eq_true, if_false]
    split
    · refine .pure fun hA => ⟨?_, nofun⟩
      rcases hv hA with hv | ⟨id, rfl, hid⟩
      · exact .inl hv
      · exact .inr ⟨id, rfl, hid.resolve_left nofun⟩
    · exact .throw _

theorem Keeps.bindParameters (hg : g.Complete) (hJ : g.Covers J) {i : Nat}
    {parameters : List (String × Bool)} (hframe : A → g.Binds frame.slots)
    (hargs : A → ∀ (n : Nat) name byValue v, parameters[n]? = some (name, byValue) →
      args[n]? = some v → g.Passable byValue v)
    (hfree : A → (∀ {id}, g.reachable id → g.storable (.ref id)) ∨ ∀ (n : Nat) name old,
      parameters[n]? = some (name, false) → frame.load (i + n : Nat) = .ok old →
      old.isRef = false) :
    Keeps g J A (fun f => g.Binds f.slots) (bindParameters frame i args parameters) := by
  induction parameters generalizing A frame i args with
  | nil =>
    rw [bindParameters]
    exact .pure (P := fun f : Frame => g.Binds f.slots) hframe
  | cons parameter rest ih =>
    obtain ⟨name, byValue⟩ := parameter
    cases args with
    | nil => exact .throw _
    | cons v args =>
      refine .bind (.bindArgument hg hJ fun hA => hargs hA 0 name byValue v rfl rfl) fun w => ?_
      refine .bind (P := fun f => g.Binds f.slots ∧
        ∀ other, other ≠ (i : Int) → f.load other = frame.load other) (.onStore hJ ?_) fun f => ?_
      · intro s f t hf
        refine (hg.storeVariable hf (fun h => hframe h.1) (fun h => h.2.1) fun h => ?_).imp
          (fun _ h => h) fun _ hslots => ⟨hslots, fun other hne => Frame.load_of_storeVariable hf hne⟩
        cases byValue with
        | true => exact .inl (h.2.2 rfl)
        | false =>
          rcases hfree h.1 with hstored | hplain
          · rcases h.2.1 with hw | ⟨_, rfl, hid⟩
            · exact .inl hw
            · exact .inl (hstored hid)
          · exact .inr fun hload => hplain 0 name _ rfl hload
      · refine ih (fun h => h.2.1) (fun h n => hargs h.1.1 (n + 1)) fun h =>
          (hfree h.1.1).imp_right fun hplain n name old hparameter hload => ?_
        refine hplain (n + 1) name old hparameter ?_
        rw [← hload, h.2.2 _ (by omega), Nat.add_right_comm]
        rfl

theorem bindGlobals_spec (hg : g.Complete) {frame' : Frame} {globals : List (String × Int)}
    (hrun : (bindGlobals frame globals).run m = .ok frame' m')
    (hm' : g.within m'.world.store) :
    g.within m.world.store ∧ (g.Binds frame.slots → g.Guards m.world m.interpreter →
      (∀ e ∈ globals, ∀ old,
        m.current.frame.load (m.current.frame.code.slotOf e.1) = .ok old → g.Bindable old) →
      g.Guards m'.world m'.interpreter ∧ g.Binds frame'.slots ∧
        m'.current.frame.code = m.current.frame.code ∧
        g.Rebound m.current.frame.code globals m.current.frame.slots m'.current.frame.slots) := by
  induction globals generalizing frame m with
  | nil =>
    cases hrun
    exact ⟨hm', fun hframe hm _ => ⟨hm, hframe, rfl, .refl⟩⟩
  | cons entry rest ih =>
    obtain ⟨name, slot⟩ := entry
    obtain ⟨r, m₁, hget, hrest⟩ := ok_of_run_bind hrun
    obtain ⟨frame₁, m₂, hset, hlast⟩ := ok_of_run_bind hrest
    replace hget : (getReference (m.current.frame.code.slotOf name)).run m = .ok r m₁ := hget
    obtain ⟨own, t, hresult, rfl⟩ := ok_of_run_getReference hget
    obtain ⟨hm₂, ih⟩ := ih hlast
    have hkeeps : Keeps g (fun m' => g.Guards m'.world m'.interpreter ∧
        m'.current = { m.current with frame := own }) (g.Binds frame.slots ∧ ∃ id, r = .ref id ∧
          g.reachable id) (fun f => g.Binds f.slots) (onStore fun s => frame.setReference s slot r) := by
      refine .onStore (g.covers_guards _) fun s f t hf => ?_
      obtain ⟨id, rfl, -⟩ := Frame.puts_of_setReference hf
      refine (hg.setReference hf).imp (fun _ h => ⟨h.1, ?_⟩) fun _ h => h
      obtain ⟨_, heq, hid⟩ := h.2
      cases heq
      exact hid
    obtain ⟨hm₁, hkept⟩ := hkeeps _ _ _ hset hm₂
    obtain ⟨hback, hturns⟩ := hg.getReference hresult hm₁
    refine ⟨hback, fun hframe hm hold => ?_⟩
    obtain ⟨ht, hown, id, rfl, hid⟩ :=
      hturns hm.store fun hload => hold _ mem_cons_self _ hload
    have hcode : own.code = m.current.frame.code := by
      rcases hown with rfl | hown
      · rfl
      · exact (Frame.store_alike hown).code
    have hslots : g.Rebound m.current.frame.code [(name, slot)] m.current.frame.slots
        own.slots := by
      rcases hown with rfl | hown
      · exact .refl
      · exact .of_store hown (.inr ⟨id, rfl, hid⟩)
    obtain ⟨⟨hguards, hcurrent⟩, hframe₁⟩ :=
      hkept ⟨{ hm with store := ht }, rfl⟩ ⟨hframe, id, rfl, hid⟩
    have hsame : m₂.current.frame = own := congrArg Activation.frame hcurrent
    have hold₂ : ∀ e ∈ rest, ∀ old,
        m₂.current.frame.load (m₂.current.frame.code.slotOf e.1) = .ok old → g.Bindable old := by
      intro e he old hload
      rw [hsame, hcode] at hload
      rcases hown with rfl | hown
      · exact hold e (mem_cons_of_mem _ he) old hload
      · by_cases hslot : m.current.frame.code.slotOf e.1 = m.current.frame.code.slotOf name
        · rw [hslot, Frame.load_of_store_self hown] at hload
          cases hload
          exact .inr ⟨id, rfl, hid⟩
        · rw [Frame.load_of_store hown hslot] at hload
          exact hold e (mem_cons_of_mem _ he) old hload
    obtain ⟨hm', hframe', hcode', hslots'⟩ := ih hframe₁ hguards hold₂
    rw [hsame, hcode] at hcode' hslots'
    exact ⟨hm', hframe', hcode', (hslots.mono (by simp)).trans (hslots'.mono (by simp))⟩

theorem enterFunction_spec (hg : g.Complete) {code : Bytecode}
    (hrun : (enterFunction code args).run m = .ok frame m')
    (hm' : g.within m'.world.store) :
    g.within m.world.store ∧ (g.Guards m.world m.interpreter →
      (∀ {id}, g.reachable id → g.storable (.ref id)) ∨ code.Separate →
      (∀ (n : Nat) name byValue v, code.parameters[n]? = some (name, byValue) →
        args[n]? = some v → g.Passable byValue v) →
      (∀ e ∈ code.globals, ∀ old,
        m.current.frame.load (m.current.frame.code.slotOf e.1) = .ok old → g.Bindable old) →
      g.Guards m'.world m'.interpreter ∧ g.Binds frame.slots ∧
        m'.current.frame.code = m.current.frame.code ∧
        g.Rebound m.current.frame.code code.globals m.current.frame.slots
          m'.current.frame.slots) := by
  obtain ⟨first, second, m₁, hnew, hparameters, hglobals, -⟩ := ok_of_run_enterFunction hrun
  obtain ⟨rfl, hslots, hunset⟩ := Frame.new_spec hnew
  obtain ⟨hm₁, hbind⟩ := bindGlobals_spec hg hglobals hm'
  have hkeeps := Keeps.bindParameters hg (g.covers_guards m.current) (i := 0)
    (A := g.Binds first.slots ∧ ((∀ {id}, g.reachable id → g.storable (.ref id)) ∨
      first.code.Separate) ∧ ∀ (n : Nat) name byValue v,
        first.code.parameters[n]? = some (name, byValue) → args[n]? = some v →
        g.Passable byValue v) (fun h => h.1) (fun h => h.2.2) fun h => by
    refine h.2.1.imp_right fun hseparate n name old hparameter hload => ?_
    rw [Nat.zero_add] at hload
    rw [hunset (hseparate hparameter) hload]
    rfl
  obtain ⟨hm, hkept⟩ := hkeeps _ _ _ hparameters hm₁
  refine ⟨hm, fun hguards hcode hargs hold => ?_⟩
  have hfirst : g.Binds first.slots := by
    intro v hv
    rcases hslots hv with rfl | hv
    · exact .inl (hg.inert rfl)
    · exact hguards.superglobals hg.tables hv
  obtain ⟨⟨hguards₁, hcurrent⟩, hsecond⟩ := hkept ⟨hguards, rfl⟩ ⟨hfirst, hcode, hargs⟩
  rw [← hcurrent] at hold ⊢
  exact hbind hsecond hguards₁ hold

end Exec

/-! ### Operands -/

namespace Regime

variable {g : Regime} {ks : List Kind} {s : List Value} {k : Kind} {v : Value}

theorem Fits.nil : g.Fits ks [] := fun n v h => by cases h

theorem Fits.cons (h : g.Fits ks s) (hv : g.Allows k v) : g.Fits (k :: ks) (v :: s) := by
  intro n w hw
  cases n with
  | zero =>
    cases hw
    exact hv
  | succ n => exact h n w hw

theorem Fits.head (h : g.Fits ks (v :: s)) : g.Allows (ks.getD 0 .plain) v := h 0 v rfl

theorem Fits.drop (h : g.Fits ks s) (n : Nat) : g.Fits (ks.drop n) (s.drop n) := by
  intro j w hw
  rw [getElem?_drop] at hw
  rw [getD_eq_getElem?_getD, getElem?_drop, ← getD_eq_getElem?_getD]
  exact h (n + j) w hw

theorem Lawful.allows (hg : g.Lawful) (hv : g.storable v) : g.Allows k v := by
  cases k with
  | plain => exact hv
  | reference => exact .inl hv
  | iteration => exact hg.iterable hv

theorem Lawful.iterable_of_allows (hg : g.Lawful) {id : Nat} (h : g.Allows k (.cursor id)) :
    g.iterable (.cursor id) := by
  cases k with
  | plain => exact hg.iterable h
  | reference => exact hg.iterable (h.storable rfl)
  | iteration => exact h

end Regime

namespace Exec

variable {α β : Type} {g : Regime} {ks : List Kind} {A B : Prop} {P : α → Prop} {Q : β → Prop}

/-- With something given, the action keeps to the regime; from operands of some
kinds it leads to operands of other kinds, and its answer is as it should be. -/
def Obeys (g : Regime) (ks : List Kind) (A : Prop) (ks' : α → List Kind) (P : α → Prop)
    (a : Exec α) : Prop :=
  ∀ m r m', a.run m = .ok r m' → g.within m'.world.store →
    g.within m.world.store ∧ (g.Meets ks m → A → g.Meets (ks' r) m' ∧ P r)

theorem Obeys.pure {ks' : α → List Kind} {r : α} (h : A → P r) (hks : ks = ks' r) :
    Obeys g ks A ks' P (Pure.pure r) := by
  intro m r' m' hrun hm'
  cases hrun
  exact ⟨hm', fun hm hA => ⟨hks ▸ hm, h hA⟩⟩

theorem Obeys.throw {ks' : α → List Kind} (fault : Fault) :
    Obeys g ks A ks' P (throw fault : Exec α) := by
  intro m r m' hrun
  cases hrun

theorem Obeys.bind {ks₁ : α → List Kind} {ks₂ : β → List Kind} {x : Exec α} {f : α → Exec β}
    (hx : Obeys g ks A ks₁ P x) (hf : ∀ r, Obeys g (ks₁ r) (A ∧ P r) ks₂ Q (f r)) :
    Obeys g ks A ks₂ Q (x >>= f) := by
  intro m r m' hrun hm'
  obtain ⟨r₁, m₁, hfirst, hrun⟩ := ok_of_run_bind hrun
  obtain ⟨hm₁, hnext⟩ := hf r₁ _ _ _ hrun hm'
  obtain ⟨hm, hkeeps⟩ := hx _ _ _ hfirst hm₁
  refine ⟨hm, fun hmeets hA => ?_⟩
  obtain ⟨hmeets₁, hr₁⟩ := hkeeps hmeets hA
  exact hnext hmeets₁ ⟨hA, hr₁⟩

theorem Obeys.given {ks' : α → List Kind} {a : Exec α} (h : Obeys g ks B ks' P a) (hA : A → B) :
    Obeys g ks A ks' P a :=
  fun m r m' hrun hm' => ⟨(h m r m' hrun hm').1, fun hm ha => (h m r m' hrun hm').2 hm (hA ha)⟩

theorem Obeys.andThen {ks₁ : α → List Kind} {ks₂ : β → List Kind} {x : Exec α} {f : α → Exec β}
    (hx : Obeys g ks A ks₁ P x) (hf : ∀ r, Obeys g (ks₁ r) A ks₂ Q (f r)) :
    Obeys g ks A ks₂ Q (x >>= f) :=
  hx.bind fun r => (hf r).given And.left

theorem Obeys.congr {ks₁ : List Kind} {ks' : α → List Kind} {a : Exec α}
    (hks : ∀ n, ks₁.getD n .plain = ks.getD n .plain) (h : Obeys g ks A ks' P a) :
    Obeys g ks₁ A ks' P a := fun m r m' hrun hm' =>
  ⟨(h m r m' hrun hm').1, fun hm =>
    (h m r m' hrun hm').2 ⟨hm.holds, fun n v hv => hks n ▸ hm.fits n v hv⟩⟩

theorem Blind.stack_eq {a : Exec α} (ha : Blind a) {r : α}
    (h : a.run m = .ok r m') : m'.current.frame.stack = m.current.frame.stack := by
  rw [← m.situation_under_control, ha] at h
  cases hseen : a.seen m.situation with
  | error e T =>
    rw [hseen] at h
    cases h
  | ok r T =>
    rw [hseen] at h
    cases h
    rfl

theorem Obeys.of_keeps {a : Exec α} (ha : Blind a) (h : Keeps g g.Holds A P a) :
    Obeys g ks A (fun _ => ks) P a := by
  intro m r m' hrun hm'
  obtain ⟨hback, hkeeps⟩ := h m r m' hrun hm'
  refine ⟨hback, fun hm hA => ?_⟩
  obtain ⟨hholds, hr⟩ := hkeeps hm.holds hA
  refine ⟨⟨hholds, ?_⟩, hr⟩
  rw [ha.stack_eq hrun]
  exact hm.fits

theorem Obeys.pop : Obeys g ks A (fun _ => ks.drop 1) (g.Allows (ks.getD 0 .plain)) pop := by
  rintro ⟨world, interpreter, ⟨⟨code, capacity, stack, slots⟩, pos⟩, callers, steps, fault⟩ r m'
    hrun hm'
  cases stack <;> cases hrun
  exact ⟨hm', fun hm _ =>
    ⟨⟨⟨hm.holds.guards, hm.holds.constants, hm.holds.slots⟩, hm.fits.drop 1⟩, hm.fits.head⟩⟩

theorem Obeys.top : Obeys g ks A (fun _ => ks) (g.Allows (ks.getD 0 .plain)) top := by
  rintro ⟨world, interpreter, ⟨⟨code, capacity, stack, slots⟩, pos⟩, callers, steps, fault⟩ r m'
    hrun hm'
  cases stack <;> cases hrun
  exact ⟨hm', fun hm _ => ⟨hm, hm.fits.head⟩⟩

theorem Obeys.push {k : Kind} (hv : A → g.Allows k v) :
    Obeys g ks A (fun _ => k :: ks) (fun _ => True) (push v) := by
  intro m r m' hrun hm'
  rw [← m.situation_under_control, run_push] at hrun
  split at hrun <;> cases hrun
  exact ⟨hm', fun hm hA => ⟨⟨⟨hm.holds.guards, hm.holds.constants, hm.holds.slots⟩,
    hm.fits.cons (hv hA)⟩, trivial⟩⟩

theorem Obeys.popN (n : Int) :
    Obeys g ks A (fun _ => ks.drop n.toNat)
      (fun vs => ∀ v ∈ vs, ∃ j < n.toNat, g.Allows (ks.getD j .plain) v) (popN n) := by
  intro m r m' hrun hm'
  rw [← m.situation_under_control, run_popN] at hrun
  split at hrun <;> cases hrun
  refine ⟨hm', fun hm _ => ⟨⟨⟨hm.holds.guards, hm.holds.constants, hm.holds.slots⟩,
    hm.fits.drop _⟩, fun v hv => ?_⟩⟩
  obtain ⟨j, hj⟩ := mem_iff_getElem?.1 (mem_reverse.1 hv)
  rw [getElem?_take] at hj
  split at hj
  · exact ⟨j, ‹_›, hm.fits j v hj⟩
  · cases hj

end Exec

/-! ### Instructions -/

def Jump.after (taken : Bool) (ks : List Kind) : Jump → List Kind
  | .always => ks
  | .ifFalse => ks.drop 1
  | .ifFalseKeep => if taken then ks else ks.drop 1
  | .ifTrueKeep => if taken then ks else ks.drop 1
  | .ifIteratorEmpty => if taken then ks.getD 0 .plain :: ks.drop 2 else ks.drop 1

variable {L : Type}

def Instr.result : Instr L Bytecode → Kind
  | .loadRef _ _ => .reference
  | .loadIterator => .iteration
  | _ => .plain

/-- What an instruction leaves on the stack that goes on with the next one.
Of operands that it does not take like this nothing is said. -/
def Instr.after (ks : List Kind) (i : Instr L Bytecode) : Option (List Kind) :=
  match i.operation? with
  | some o => if (ks.take o.takes).all (· = .plain) then some (i.result :: ks.drop o.takes) else none
  | none =>
    match i with
    | .discardTop => some (ks.drop 1)
    | .dup => some (ks.getD 0 .plain :: ks)
    | .jump kind _ => some (kind.after false ks)
    | .nextIterator => some (.plain :: .plain :: ks)
    | .call count =>
      if ks.getD 0 .plain = .plain ∧ .iteration ∉ ks.take (count.toNat + 1) then
        some (.plain :: ks.drop (count.toNat + 1))
      else none
    | .returnTop => if ks.getD 0 .plain = .plain then some (ks.drop 1) else none
    | _ => some ks

/-- What an instruction leaves on the stack, depending on how the machine goes
on. -/
def Instr.leaving (ks : List Kind) (i : Instr L Bytecode) : Flow L → List Kind
  | .next => (i.after ks).getD []
  | .jump _ =>
    match i with
    | .jump kind _ => kind.after true ks
    | _ => []
  | .enter _ => ((i.after ks).getD []).drop 1
  | .leave _ => ks.drop 1

/-- The instruction takes operands, variables and constants, and works on these
only. -/
def Instr.isLocal {L B : Type} : Instr L B → Bool
  | .loadVar _ _ | .loadNull | .loadBoolean _ | .loadConstant _ | .loadArray _
  | .stringSubstitution _ | .loadMember | .loadMemberVar _ _ | .storeMember | .storeMemberVar _ _
  | .assign _ _ | .discardTop | .dup | .jump _ _ | .print | .binary _ | .unary _ => true
  | _ => false

/-- How the machine may go on after an instruction. -/
def Regime.Flows (g : Regime) (i : Instr L Bytecode) : Flow L → Prop
  | .next => True
  | .jump target => ∃ kind, i = .jump kind target
  | .enter frame => (∃ count, i = .call count) ∧ g.codes frame.code ∧ g.Binds frame.slots ∧
      frame.stack = []
  | .leave v => i = .returnTop ∧ g.storable v

namespace Exec

variable {g : Regime} {ks : List Kind} {A : Prop} {i : Instr L Bytecode}

theorem Obeys.any {α : Type} {x : Except Fault α} :
    Obeys g ks A (fun _ => ks) (fun _ => True) (ofExcept x) :=
  .of_keeps (.ofExcept x) .any

theorem Obeys.read {α : Type} {f : Store → Except Fault α} :
    Obeys g ks A (fun _ => ks) (fun _ => True) (fromStore f) :=
  .of_keeps (Quiet.fromStore f).blind .read

theorem Obeys.taken (kind : Jump) :
    Obeys g ks A (fun taken => kind.after taken ks) (fun _ => True) kind.taken := by
  cases kind with
  | always => exact .pure (fun _ => trivial) rfl
  | ifFalse => exact .andThen .pop fun v => .andThen .any fun _ => .pure (fun _ => trivial) rfl
  | ifFalseKeep =>
    refine .andThen .top fun v => .andThen .any fun holds => ?_
    cases holds with
    | false => exact .pure (fun _ => trivial) rfl
    | true => exact .andThen .pop fun _ => .pure (fun _ => trivial) rfl
  | ifTrueKeep =>
    refine .andThen .top fun v => .andThen .any fun holds => ?_
    cases holds with
    | false => exact .andThen .pop fun _ => .pure (fun _ => trivial) rfl
    | true => exact .pure (fun _ => trivial) rfl
  | ifIteratorEmpty =>
    refine .bind .pop fun last => .andThen .top fun w => ?_
    split
    · intro m r m' hrun hm'
      obtain ⟨_, _, hget, hrun⟩ := ok_of_run_bind hrun
      cases hget
      dsimp only at hrun
      split at hrun
      · have hobeys : Obeys g (ks.drop 1) (A ∧ g.Allows (ks.getD 0 .plain) last)
            (fun taken => Jump.ifIteratorEmpty.after taken ks) (fun _ => True)
            (do let _ ← Exec.pop; Exec.push last; return true) := by
          refine .andThen .pop fun _ => ?_
          rw [drop_drop]
          exact .andThen (.push And.right) fun _ => .pure (fun _ => trivial) rfl
        exact hobeys m r m' hrun hm'
      · cases hrun
        exact ⟨hm', fun hm _ => ⟨hm, trivial⟩⟩
    · exact .throw _

theorem Obeys.deliver {ks' : List Kind} {k : Kind} {v : Value} (hv : A → g.Allows k v)
    (hafter : i.after ks' = some (k :: ks)) :
    Obeys g ks A (i.leaving ks') (g.Flows i) (deliver v) :=
  .andThen (.push hv) fun _ => .pure (fun _ => trivial) (by rw [leaving, hafter]; rfl)

theorem Obeys.popStorable (h : ks.getD 0 .plain = .plain) :
    Obeys g ks A (fun _ => ks.drop 1) g.storable Exec.pop := by
  have hpop : Obeys g ks A (fun _ => ks.drop 1) (g.Allows (ks.getD 0 .plain)) Exec.pop := .pop
  rwa [h] at hpop

end Exec

section

variable {g : Regime} {ks : List Kind} {A : Prop}

theorem getD_drop (ks : List Kind) (m n : Nat) :
    (ks.drop m).getD n .plain = ks.getD (m + n) .plain := by
  rw [getD_eq_getElem?_getD, getElem?_drop, getD_eq_getElem?_getD]

theorem getD_of_all {n j : Nat} (h : (ks.take n).all (· = .plain)) (hj : j < n) :
    ks.getD j .plain = .plain := by
  rw [getD_eq_getElem?_getD]
  cases hk : ks[j]? with
  | none => rfl
  | some k =>
    refine of_decide_eq_true (all_eq_true.1 h k ?_)
    exact mem_of_getElem? (by rw [getElem?_take, if_pos hj, hk])

theorem Instr.after_operation {i : Instr L Bytecode} (n : Nat)
    (hn : i.operation?.map Operation.takes = some n) (h : i.after ks = some ks') :
    (∀ j < n, ks.getD j .plain = .plain) ∧ ks' = i.result :: ks.drop n := by
  obtain ⟨o, ho, rfl⟩ := Option.map_eq_some_iff.1 hn
  simp only [after, ho] at h
  split at h
  · cases h
    exact ⟨fun j hj => getD_of_all ‹_› hj, rfl⟩
  · cases h

theorem Exec.Obeys.getMember (hg : g.Lawful) {array key : Value} (harray : A → g.storable array) :
    Obeys g ks A (fun _ => ks) g.storable (fromStore (·.getMember array key)) :=
  .of_keeps (Quiet.fromStore _).blind
    (.fromStore g.covers_holds fun _ _ hv hs h => hg.getMember hs (harray h) hv)

theorem Exec.Obeys.putMember (hg : g.Lawful) {array key : Value} (harray : A → g.storable array)
    (hv : A → g.storable v) :
    Obeys g ks A (fun _ => ks) g.storable (onStore (·.putMember array key v)) :=
  .of_keeps (Quiet.onStore fun _ _ _ => Store.putMember_codes).blind
    (.onStore g.covers_holds fun _ _ _ hw =>
      (hg.putMember hw).imp (fun _ h => ⟨harray h, hv h⟩) fun _ h => h)

theorem Exec.Obeys.requireVariable (hg : g.Lawful) (slot : Int) (name : String) :
    Obeys g ks A (fun _ => ks) g.storable (requireVariable slot name) :=
  .of_keeps (Quiet.requireVariable slot name).blind (.requireVariable hg slot name)

theorem Exec.Obeys.storeVariable (hg : g.Lawful) {v : Value} (hv : A → g.storable v)
    (slot : Int) : Obeys g ks A (fun _ => ks) (fun _ => True) (storeVariable slot v) :=
  .of_keeps (Quiet.storeVariable slot v).blind (.storeVariable hg hv slot)

theorem Instr.obeys_local (hg : g.Lawful) {i : Instr L Bytecode} (hi : i.isLocal)
    (hafter : i.after ks = some ks') (hjoins : i = .binary .concat → g.Joins) :
    Obeys g ks A (i.leaving ks) (g.Flows i) i.exec := by
  cases i with
  | loadVar slot name =>
    obtain ⟨-, rfl⟩ := after_operation 0 rfl hafter
    exact .bind (.requireVariable hg slot name) fun v => .deliver (k := .plain) And.right hafter
  | loadNull | loadBoolean =>
    obtain ⟨-, rfl⟩ := after_operation 0 rfl hafter
    exact .deliver (k := .plain) (fun _ => hg.inert rfl) hafter
  | stringSubstitution count =>
    obtain ⟨hplain, rfl⟩ := after_operation (count.toNat + 1) rfl hafter
    refine .andThen .pop fun template => .andThen (.popN count) fun fillers => ?_
    rw [drop_drop, Nat.add_comm]
    refine .bind (.of_keeps (Quiet.fromStore _).blind (.fromStore g.covers_holds
      fun s v hv _ _ => ?_)) fun v => .deliver (k := .plain) And.right hafter
    unfold Store.substitute at hv
    split at hv
    · obtain ⟨ts, -, hv⟩ := ok_of_bind hv
      cases hv
      exact hg.inert rfl
    · cases hv
  | loadArray count =>
    obtain ⟨hplain, rfl⟩ := after_operation count.toNat rfl hafter
    refine .bind (.popN count) fun items => ?_
    refine .bind (.of_keeps (Quiet.newList items).blind (.newList hg fun h v hv => ?_)) fun v =>
      .deliver (k := .plain) And.right hafter
    obtain ⟨j, hj, hv⟩ := h.2 v hv
    rwa [hplain j hj] at hv
  | loadConstant place =>
    obtain ⟨-, rfl⟩ := after_operation 0 rfl hafter
    exact .bind (.of_keeps (Quiet.constantAt place).blind (.constantAt place))
      fun v => .deliver (k := .plain) And.right hafter
  | loadMember =>
    obtain ⟨hplain, rfl⟩ := after_operation 2 rfl hafter
    refine .bind (.popStorable (hplain 0 (by decide))) fun array => .andThen .pop fun key => ?_
    rw [drop_drop]
    exact .bind (.getMember hg And.right) fun v => .deliver (k := .plain) And.right hafter
  | loadMemberVar slot name =>
    obtain ⟨hplain, rfl⟩ := after_operation 1 rfl hafter
    exact .bind (.requireVariable hg slot name) fun array => .andThen .pop fun key =>
      .bind (.getMember hg And.right) fun v => .deliver (k := .plain) And.right hafter
  | storeMember =>
    obtain ⟨hplain, rfl⟩ := after_operation 3 rfl hafter
    refine .bind (.popStorable (hplain 0 (by decide))) fun array => .andThen .pop fun key => ?_
    rw [drop_drop]
    refine .bind (.popStorable (by rw [getD_drop]; exact hplain 2 (by decide))) fun v => ?_
    rw [drop_drop]
    exact .bind (.putMember hg (fun h => h.1.2) And.right) fun w =>
      .deliver (k := .plain) And.right hafter
  | storeMemberVar slot name =>
    obtain ⟨hplain, rfl⟩ := after_operation 2 rfl hafter
    refine .bind (.requireVariable hg slot name) fun array => .andThen .pop fun key => ?_
    refine .bind (.popStorable (by rw [getD_drop]; exact hplain 1 (by decide))) fun v => ?_
    rw [drop_drop]
    exact .bind (.putMember hg (fun h => h.1.2) And.right) fun w =>
      .andThen (.push (k := .plain) And.right) fun _ => .andThen (.storeVariable hg And.right slot)
      fun _ => .pure (fun _ => trivial) (by rw [leaving, hafter]; rfl)
  | assign slot name =>
    obtain ⟨hplain, rfl⟩ := after_operation 1 rfl hafter
    exact .bind (.popStorable (hplain 0 (by decide))) fun v =>
      .andThen (.storeVariable hg And.right slot) fun _ => .deliver (k := .plain) And.right hafter
  | discardTop => exact .andThen .pop fun _ => .pure (fun _ => trivial) rfl
  | dup => exact .bind .top fun v => .deliver And.right rfl
  | jump kind target =>
    refine .andThen (.taken kind) fun taken => ?_
    cases taken with
    | false => exact .pure (fun _ => trivial) rfl
    | true => exact .pure (fun _ => ⟨kind, rfl⟩) rfl
  | print =>
    obtain ⟨hplain, rfl⟩ := after_operation 1 rfl hafter
    have hsame : ∀ n, ks.getD n .plain = (Kind.plain :: ks.drop 1).getD n .plain := by
      intro n
      cases n with
      | zero => exact hplain 0 (by decide)
      | succ n => rw [getD_cons_succ, getD_drop, Nat.add_comm]
    exact .andThen .top fun v => .andThen .read fun t =>
      .andThen (.of_keeps (Quiet.output t).blind (.output t)) fun _ =>
      .congr hsame (.pure (fun _ => trivial) (by rw [leaving, hafter]; rfl))
  | binary op =>
    obtain ⟨hplain, rfl⟩ := after_operation 2 rfl hafter
    refine .bind (.popStorable (hplain 0 (by decide))) fun right =>
      .bind (.popStorable (by rw [getD_drop]; exact hplain 1 (by decide))) fun left => ?_
    rw [drop_drop]
    exact .bind (.of_keeps (Quiet.operator op left right).blind
      (hg.operator (fun hop => hjoins (by rw [hop])) And.right fun h => h.1.2)) fun v =>
      .deliver (k := .plain) And.right hafter
  | unary op =>
    obtain ⟨hplain, rfl⟩ := after_operation 1 rfl hafter
    exact .andThen .pop fun v => .bind (.of_keeps (Quiet.ofExcept _).blind
      (.ofExcept fun w hw _ => hg.unary hw)) fun w => .deliver (k := .plain) And.right hafter
  | _ => cases hi

theorem Exec.Obeys.lookup (f : Machine → Entries Value) {fault : Fault}
    {i : Instr L Bytecode} (hf : ∀ {m : Machine} {e}, g.Holds m → e ∈ f m → g.storable e.2)
    (hafter : i.after ks = some (.plain :: ks)) :
    Obeys g ks A (i.leaving ks) (g.Flows i) (do
      match (f (← get)).get? name with
      | some v => do
        Exec.push v
        return .next
      | none => MonadExcept.throw fault) := by
  intro m r m' hrun hm'
  obtain ⟨_, _, hget, hrun⟩ := ok_of_run_bind hrun
  cases hget
  split at hrun
  · rename_i v hv
    have hdeliver : Obeys g ks (g.storable v) (i.leaving ks) (g.Flows i) (PageScript.deliver v) :=
      .deliver (k := .plain) (fun h => h) hafter
    obtain ⟨hm, hkeeps⟩ := hdeliver m r m' hrun hm'
    exact ⟨hm, fun hmeets _ => hkeeps hmeets (hf hmeets.holds (Entries.mem_of_get? hv))⟩
  · cases hrun

theorem Exec.Keeps.declareFunction {code : Bytecode} (hg : g.Complete) (hcode : A → g.codes code) :
    Keeps g g.Holds A (fun _ => True) (declareFunction name code) := by
  refine .bind (P := g.storable) (.onStore g.covers_holds fun s f t hf => ?_) fun f => ?_
  · cases hf
    exact hg.newCode.imp (fun _ => hcode) fun _ _ => hg.inert rfl
  · intro m r m' hrun hm'
    obtain ⟨_, _, hget, hrun⟩ := ok_of_run_bind hrun
    cases hget
    split at hrun
    · cases hrun
    · cases hrun
      refine ⟨hm', fun hm h => ⟨⟨{ hm.guards with functions := fun htables _ he => ?_ },
        hm.constants, hm.slots⟩, trivial⟩⟩
      rcases mem_cons.1 he with rfl | he
      · exact h.2
      · exact hm.guards.functions htables he

theorem Exec.Obeys.advance (hg : g.Complete) :
    Obeys g ks A (fun _ => .plain :: .plain :: ks) (fun _ => True) advance := by
  refine .bind .top fun w => ?_
  split
  · rename_i id
    intro m r m' hrun hm'
    obtain ⟨_, _, hget, hrun⟩ := ok_of_run_bind hrun
    cases hget
    have hobeys : Obeys g ks (A ∧ g.Allows (ks.getD 0 .plain) (.cursor id))
        (fun _ => .plain :: .plain :: ks) (fun _ => True) (do
        let element ← fromStore (·.currentElement (m.world.store.cursor id))
        Exec.push element
        Exec.push (.text (Store.currentKey (m.world.store.cursor id)))
        let _ ← onStore (·.nextElement id)) :=
      .bind (P := g.storable) (.of_keeps (Quiet.fromStore _).blind (.fromStore g.covers_holds
        fun s v hv hs _ => hg.entries hs (Store.mem_of_currentElement hv).choose_spec))
        fun element =>
      .andThen (.push (k := .plain) And.right) fun _ =>
      .andThen (.push (k := .plain) fun _ => hg.inert rfl) fun _ =>
      .andThen (.of_keeps (Quiet.onStore fun _ _ _ => Store.nextElement_codes).blind
        (.onStore g.covers_holds fun s w t hw =>
          (hg.nextElement hw).imp (fun _ h => hg.iterable_of_allows h.1.2) fun _ h => h))
        fun _ => .pure (fun _ => trivial) rfl
    exact hobeys m r m' hrun hm'
  · exact .throw _
  · exact .throw _

theorem Instr.after_call (h : (call count : Instr L Bytecode).after ks = some ks') :
    ks.getD 0 .plain = .plain ∧
      (∀ j < count.toNat, ks.getD (1 + j) .plain ≠ .iteration) ∧
      ks' = .plain :: ks.drop (count.toNat + 1) := by
  simp only [after, operation?] at h
  split at h
  · rename_i hks
    cases h
    refine ⟨hks.1, fun j hj hiteration => hks.2 ?_, rfl⟩
    rw [getD_eq_getElem?_getD] at hiteration
    cases hk : ks[1 + j]? with
    | none =>
      rw [hk] at hiteration
      cases hiteration
    | some k =>
      rw [hk] at hiteration
      cases hiteration
      refine mem_of_getElem? (i := 1 + j) ?_
      rw [getElem?_take, if_pos (by omega), hk]
  · cases h

theorem Regime.Complete.code (hg : g.Complete) {s : Store} (h : g.Stores s) (id : Nat) :
    g.codes (s.code id) ∨ s.code id = default := by
  rw [Store.code, Array.getD_eq_getD_getElem?]
  cases hid : s.codes[id]? with
  | none => exact .inr rfl
  | some code => exact .inl (hg.known h (Array.mem_of_getElem? hid))

theorem Bytecode.separate_default : (default : Bytecode).Separate := fun h => by cases h

theorem Exec.Obeys.enterFunction (hg : g.Complete) {id : Nat}
    (hafter : (call count : Instr L Bytecode).after ks' = some (.plain :: ks))
    (hargs : A → ∀ v ∈ args, g.Bindable v) :
    Obeys g ks A (leaving ks' (.call count)) (g.Flows (.call count : Instr L Bytecode)) (do
      let code := (← get).world.store.code id
      return .enter (← enterFunction code args)) := by
  intro m r m' hrun hm'
  obtain ⟨_, _, hget, hrun⟩ := ok_of_run_bind hrun
  cases hget
  obtain ⟨frame, m₁, henter, hrun⟩ := ok_of_run_bind hrun
  cases hrun
  obtain ⟨hcode, -, hstack, hempty⟩ := enterFunction_frame henter
  obtain ⟨hback, hspec⟩ := enterFunction_spec hg henter hm'
  refine ⟨hback, fun hm hA => ?_⟩
  have hcodes : g.codes (m.world.store.code id) := by
    rcases hg.code hm.holds.guards.store id with h | h
    · exact h
    · rw [h] at hempty
      cases hempty
  obtain ⟨hguards, hslots, hsame, hrebound⟩ := hspec hm.holds.guards (hg.separate hcodes)
    (fun n name byValue v _ hv => (hargs hA v (mem_of_getElem? hv)).imp_right
      fun ⟨id, heq, hid⟩ => ⟨id, heq, .inr hid⟩)
    (fun e _ old hload => hm.holds.slots old (Frame.mem_of_load hload))
  refine ⟨⟨⟨hguards, fun hv => hm.holds.constants (hsame ▸ hv), hrebound.binds hm.holds.slots⟩, ?_⟩,
    ⟨count, rfl⟩, hcode ▸ hcodes, hslots, hstack⟩
  rw [leaving, hafter, (Quiet.enterFunction _ _).blind.stack_eq henter]
  exact hm.fits

theorem Instr.obeys_call (hg : g.Complete)
    (hafter : (call count : Instr L Bytecode).after ks = some ks') :
    Obeys g ks A (leaving ks (.call count)) (g.Flows (.call count : Instr L Bytecode))
      (call count : Instr L Bytecode).exec := by
  obtain ⟨htop, harguments, rfl⟩ := after_call hafter
  refine .andThen (.popStorable htop) fun f =>
    .andThen (.of_keeps (Quiet.check _).blind (.check _)) fun _ => .bind (.popN count) fun args => ?_
  have hbindable : (A ∧ ∀ v ∈ args, ∃ j < count.toNat,
      g.Allows ((ks.drop 1).getD j .plain) v) → ∀ v ∈ args, g.Bindable v := by
    rintro ⟨-, hargs⟩ v hv
    obtain ⟨j, hj, hallows⟩ := hargs v hv
    rw [getD_drop] at hallows
    have hkind := harguments j hj
    cases hk : ks.getD (1 + j) .plain with
    | plain =>
      rw [hk] at hallows
      exact .inl hallows
    | reference =>
      rw [hk] at hallows
      exact hallows
    | iteration => exact absurd hk hkind
  rw [drop_drop, Nat.add_comm 1]
  unfold callFunction
  split
  · exact .bind (.of_keeps (Quiet.native _ args).blind (.native hg.toLawful _ hbindable)) fun v =>
      .deliver (k := .plain) And.right hafter
  · exact .enterFunction hg hafter hbindable
  · exact .throw _

/-- Every instruction keeps to the regime.  That a text under construction grows
is left out where the regime minds it. -/
theorem Instr.obeys (hg : g.Complete) {i : Instr L Bytecode}
    (hafter : i.after ks = some ks') (hjoins : i = .binary .concat → g.Joins)
    (hdeclares : ∀ name code, i = .declareFunction name code → g.codes code) :
    Obeys g ks A (i.leaving ks) (g.Flows i) i.exec := by
  by_cases hi : i.isLocal
  · exact obeys_local hg.toLawful hi hafter hjoins
  cases i with
  | loadNamedConstant name =>
    obtain ⟨-, rfl⟩ := after_operation 0 rfl hafter
    exact Obeys.lookup (·.world.constants) (fun hm he => hm.guards.named hg.tables he) hafter
  | loadFunction name =>
    obtain ⟨-, rfl⟩ := after_operation 0 rfl hafter
    exact Obeys.lookup (·.interpreter.functions) (fun hm he => hm.guards.functions hg.tables he)
      hafter
  | loadRef slot name =>
    obtain ⟨-, rfl⟩ := after_operation 0 rfl hafter
    exact .bind (.of_keeps (Quiet.getReference slot).blind (.getReference hg slot))
      fun v => .deliver (k := .reference) And.right hafter
  | declareFunction name code =>
    exact .andThen (.of_keeps (Blind.declareFunction name code)
      (.declareFunction hg fun _ => hdeclares name code rfl)) fun _ => .pure (fun _ => trivial) rfl
  | loadIterator =>
    obtain ⟨hplain, rfl⟩ := after_operation 1 rfl hafter
    exact .bind (.popStorable (hplain 0 (by decide))) fun array =>
      .bind (.of_keeps (Quiet.onStore fun _ _ _ => Store.iterate_codes).blind
        (.onStore g.covers_holds fun s w t hw => (hg.iterate hw).imp (fun _ => And.right)
          fun _ h => h)) fun w => .deliver (k := .iteration) And.right hafter
  | nextIterator => exact .andThen (.advance hg) fun _ => .pure (fun _ => trivial) rfl
  | returnTop =>
    have htop : ks.getD 0 .plain = .plain := by
      simp only [after, operation?] at hafter
      split at hafter
      · assumption
      · cases hafter
    exact .bind (.popStorable htop) fun v => .pure (fun h => ⟨rfl, h.2⟩) rfl
  | call count => exact obeys_call hg hafter
  | _ => exact absurd rfl hi

end

end PageScript
