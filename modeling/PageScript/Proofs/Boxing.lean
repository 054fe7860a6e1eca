/-
When a slot becomes a cell.

A slot holds its value itself until a reference to it is asked for; then the value moves
into a cell, and the slot holds the reference.  `Boxes` are frames that work so, with the
references that were obtained from them.  In `Cells` every slot is bound to a cell from the
start, and to bind a reference is to share its cell.  No sequence of accesses tells the two
apart (`boxing_unobservable`), also where slots hold references before.  What carries the
proof is a numbering of the cells that there are references to: boxes show cells under it
(`Cells.ShownBy`).
-/
import Mathlib
import PageScript.Proofs.Actions

namespace PageScript

open Function (update update_self update_of_ne update_eq_self)

/-- Of which frame, and which of its slots. -/
abbrev Slot := Nat × Nat

/-- What is written and read through: a slot, or one of the references obtained. -/
inductive Way where
  | slot (p : Slot)
  | ref (i : Nat)

/-- What is done to slots and references. -/
inductive Access where
  | write (way : Way) (v : Value)
  | read (way : Way)
  | refer (p : Slot)
  /-- Stores a reference that was obtained into a slot. -/
  | bind (p : Slot) (i : Nat)

/-- All that is read, and the state at the end. -/
def performAll {m : Type → Type} [Monad m] {σ : Type} (perform : σ → Access → m (List Value × σ)) :
    σ → List Access → m (List Value × σ)
  | s, [] => return ([], s)
  | s, a :: rest => do
    let (seen, s) ← perform s a
    let (more, s) ← performAll perform s rest
    return (seen ++ more, s)

/-- Where a value is. -/
inductive Cell where
  /-- The cell of a slot that held no reference. -/
  | own (p : Slot)
  /-- The cell of a reference that there was before. -/
  | old (r : Nat)
  deriving DecidableEq

/-- The number that a reference of before has. -/
def Cell.oldNumber : Cell → Nat
  | .own _ => 0
  | .old r => r

/-- Slots that are bound to cells. -/
structure Cells where
  cell : Slot → Option Cell
  content : Cell → Value
  /-- The cells of the references obtained. -/
  handles : List Cell

namespace Cells

/-- The cells that frames and a store amount to. -/
def start (frames : Nat → Frame) (store : Store) (given : List Nat) : Cells where
  cell p := (frames p.1).slots[p.2]?.map fun
    | .ref r => .old r
    | _ => .own p
  content
    | .own p => (frames p.1).slots.getD p.2 .unset
    | .old r => (store.ref r).getD .unset
  handles := given.map .old

/-- The cell that a way leads to. -/
def reach (c : Cells) : Way → Option Cell
  | .slot p => c.cell p
  | .ref i => c.handles[i]?

/-- A reference is written only into a cell that there is a reference to, and it is bound only
to a slot with any other cell. -/
def perform (c : Cells) : Access → Option (List Value × Cells)
  | .write way v => do
    let k ← c.reach way
    if v.isRef ∧ k ∉ c.handles then none
    else return ([], { c with content := update c.content k v })
  | .read way => do
    let k ← c.reach way
    return ([c.content k], c)
  | .refer p => do
    let k ← c.cell p
    return ([], { c with handles := c.handles ++ [k] })
  | .bind p i => do
    let old ← c.cell p
    let k ← c.handles[i]?
    if old ∈ c.handles then none else return ([], { c with cell := update c.cell p k })

end Cells

/-- Frames that move a value into a cell when asked for a reference. -/
structure Boxes where
  frames : Nat → Frame
  store : Store
  handles : List Value

namespace Boxes

/-- A reference that was obtained. -/
def handle (b : Boxes) (i : Nat) : Except Fault Value :=
  match b.handles[i]? with
  | some r => .ok r
  | none => .error .outOfRange

/-- Stores into a slot, as the machine does. -/
def assign (b : Boxes) (p : Slot) (v : Value) : Except Fault (List Value × Boxes) := do
  let (f, s) ← (b.frames p.1).storeVariable b.store p.2 v
  return ([], { b with frames := update b.frames p.1 f, store := s })

def perform (b : Boxes) : Access → Except Fault (List Value × Boxes)
  | .write (.slot p) v => b.assign p v
  | .write (.ref i) v => do
    let s ← Frame.putThrough b.store (← b.handle i) v
    return ([], { b with store := s })
  | .read (.slot p) => do
    return ([← (b.frames p.1).getVariable b.store p.2], b)
  | .read (.ref i) => do
    return ([← b.store.valueOf (← b.handle i)], b)
  | .refer p => do
    let (r, f, s) ← (b.frames p.1).getReference b.store p.2
    return ([], { frames := update b.frames p.1 f, store := s, handles := b.handles ++ [r] })
  | .bind p i => do
    b.assign p (← b.handle i)

variable (b : Boxes) {p : Slot} {old : Value}

theorem assign_of_ref {n : Nat} (h : (b.frames p.1).load p.2 = .ok (.ref n)) (v : Value) :
    b.assign p v = .ok ([], { b with store := b.store.setRef n v }) := by
  rw [assign, Frame.storeVariable, h]
  show Except.ok (_, { b with frames := update _ _ _, store := _ }) = _
  rw [update_eq_self]

theorem assign_of_plain {v : Value} {g : Frame} (h : (b.frames p.1).load p.2 = .ok old)
    (hold : old.isRef = false) (hstore : (b.frames p.1).store p.2 v = .ok g) :
    b.assign p v = .ok ([], { b with frames := update b.frames p.1 g }) := by
  rw [assign, Frame.storeVariable, h]
  simp [hold, hstore, bind, Except.bind, pure, Except.pure]

theorem exists_store (h : (b.frames p.1).load p.2 = .ok old) (v : Value) :
    ∃ g, (b.frames p.1).store p.2 v = .ok g ∧ ∀ q : Slot,
      (update b.frames p.1 g q.1).load q.2 = if q = p then .ok v else (b.frames q.1).load q.2 := by
  obtain ⟨n, i⟩ := p
  have hi : i < (b.frames n).slots.size := by
    by_contra hi
    rw [Frame.load, if_neg (by omega)] at h
    simp [hi] at h
  refine ⟨_, if_pos hi, fun q => ?_⟩
  obtain ⟨n', j⟩ := q
  by_cases hn : n' = n
  · subst hn
    by_cases hij : j = i
    · subst hij
      simp [Frame.load, hi]
    · simp [Frame.load, hij, Ne.symm hij]
  · simp [hn]

end Boxes

namespace Cells

variable {number : Cell → Nat} {c c' : Cells} {b : Boxes} {p : Slot} {k : Cell} {v : Value}

/-- Boxes hold what cells do, cells with references under their numbers. -/
structure ShownBy (number : Cell → Nat) (c : Cells) (b : Boxes) : Prop where
  injective : ∀ k ∈ c.handles, ∀ j ∈ c.handles, number k = number j → k = j
  /-- Another slot shares the cell only by a reference. -/
  own : ∀ p k, c.cell p = some k → k ∉ c.handles → k = .own p ∧ (c.content k).isRef = false
  slots : ∀ p k, c.cell p = some k → (b.frames p.1).load p.2
    = .ok (if k ∈ c.handles then .ref (number k) else c.content k)
  cells : ∀ k ∈ c.handles, b.store.refs[number k]? = some (some (c.content k))
  handles : b.handles = c.handles.map (.ref ∘ number)

namespace ShownBy

theorem start {frames : Nat → Frame} {store : Store} {given : List Nat}
    (hslots : ∀ n, ∀ v ∈ (frames n).slots, v.isRef → ∃ r ∈ given, v = .ref r)
    (hgiven : ∀ r ∈ given, ∃ v, store.refs[r]? = some (some v)) :
    (start frames store given).ShownBy Cell.oldNumber
      { frames, store, handles := given.map .ref } where
  injective := by simp [Cells.start, Cell.oldNumber]
  own p k hk hfree := by
    obtain ⟨v, hv, rfl⟩ := Option.map_eq_some_iff.1 hk
    have hslot := hslots p.1 v (Array.mem_of_getElem? hv)
    have hplain : v.isRef = false := by
      by_contra hne
      obtain ⟨r, hr, rfl⟩ := hslot (by simpa using hne)
      exact hfree (List.mem_map_of_mem hr)
    cases v with
    | ref r => cases hplain
    | _ => exact ⟨rfl, by simpa [Cells.start, hv] using hplain⟩
  slots p k hk := by
    obtain ⟨v, hv, rfl⟩ := Option.map_eq_some_iff.1 hk
    have hslot := hslots p.1 v (Array.mem_of_getElem? hv)
    cases v with
    | ref r =>
      have hr : r ∈ given := by simpa [Value.isRef] using hslot
      simp [Frame.load, Cells.start, hv, hr, Cell.oldNumber]
    | _ => simp [Frame.load, Cells.start, hv]
  cells := by
    simp only [Cells.start, List.forall_mem_map]
    intro r hr
    obtain ⟨v, hv⟩ := hgiven r hr
    simp [Store.ref, hv, Cell.oldNumber]
  handles := by simp [Cells.start, Cell.oldNumber]

section

variable (h : c.ShownBy number b)

include h

theorem write_shared (hk : k ∈ c.handles) (v : Value) :
    ({ c with content := update c.content k v } : Cells).ShownBy number
      { b with store := b.store.setRef (number k) v } where
  injective := h.injective
  own q j hq hfree := by
    have hne : j ≠ k := fun hjk => hfree (hjk ▸ hk)
    simpa [hne] using h.own q j hq hfree
  slots q j hq := by
    refine (h.slots q j hq).trans ?_
    by_cases hj : j ∈ c.handles
    · simp [hj]
    · have hne : j ≠ k := fun hjk => hj (hjk ▸ hk)
      simp [hj, hne]
  cells j hj := by
    by_cases hjk : j = k
    · obtain ⟨hlt, -⟩ := Array.getElem?_eq_some_iff.1 (h.cells k hk)
      simp [hjk, Store.setRef, hlt]
    · -- Two cells that there are references to have two numbers.
      have hne : number k ≠ number j := fun heq => hjk (h.injective k hk j hj heq).symm
      simp [hjk, Store.setRef, hne, h.cells j hj]
  handles := h.handles

theorem write_own (hp : c.cell p = some (.own p)) (hown : .own p ∉ c.handles)
    (hv : v.isRef = false) :
    ∃ g, (b.frames p.1).store p.2 v = .ok g ∧
      ({ c with content := update c.content (.own p) v } : Cells).ShownBy number
        { b with frames := update b.frames p.1 g } := by
  obtain ⟨g, hstore, hload⟩ := b.exists_store (h.slots p _ hp) v
  refine ⟨g, hstore, h.injective, fun q j hq hfree => ?_, fun q j hq => (hload q).trans ?_,
    fun j hj => ?_, h.handles⟩
  · obtain ⟨rfl, hplain⟩ := h.own q j hq hfree
    by_cases hqp : q = p
    · simp [hqp, hv]
    · simp [hqp, hplain]
  · by_cases hqp : q = p
    · obtain rfl : .own p = j := Option.some.inj (hp.symm.trans (hqp ▸ hq))
      simp [hqp, hown]
    · have hslot := h.slots q j hq
      by_cases hj : j ∈ c.handles
      · simpa [hqp, hj] using hslot
      · obtain ⟨rfl, -⟩ := h.own q j hq hj
        simpa [hqp, hj] using hslot
  · have hne : j ≠ .own p := fun hjp => hown (hjp ▸ hj)
    simpa [hne] using h.cells j hj

theorem bind_ref (hp : c.cell p = some (.own p)) (hk : k ∈ c.handles) :
    ∃ g, (b.frames p.1).store p.2 (.ref (number k)) = .ok g ∧
      ({ c with cell := update c.cell p k } : Cells).ShownBy number
        { b with frames := update b.frames p.1 g } := by
  obtain ⟨g, hstore, hload⟩ := b.exists_store (h.slots p _ hp) (.ref (number k))
  refine ⟨g, hstore, h.injective, fun q j hq hfree => ?_, fun q j hq => (hload q).trans ?_,
    h.cells, h.handles⟩
  · by_cases hqp : q = p
    · obtain rfl : k = j := by simpa [hqp] using hq
      exact absurd hk hfree
    · exact h.own q j (by simpa [hqp] using hq) hfree
  · by_cases hqp : q = p
    · obtain rfl : k = j := by simpa [hqp] using hq
      simp [hqp, hk]
    · simpa [hqp] using h.slots q j (by simpa [hqp] using hq)

theorem refer_shared (hk : k ∈ c.handles) :
    ({ c with handles := c.handles ++ [k] } : Cells).ShownBy number
      { b with handles := b.handles ++ [.ref (number k)] } := by
  have hmem (j : Cell) : j ∈ c.handles ++ [k] ↔ j ∈ c.handles := by
    constructor
    · intro hj
      rcases List.mem_append.1 hj with hj | hj
      · exact hj
      · exact List.mem_singleton.1 hj ▸ hk
    · exact List.mem_append_left _
  refine ⟨fun i hi j hj => ?_, fun q j hq hfree => ?_, fun q j hq => ?_, fun j hj => ?_, ?_⟩
  · exact h.injective i ((hmem i).1 hi) j ((hmem j).1 hj)
  · exact h.own q j hq (mt (hmem j).2 hfree)
  · simpa only [hmem j] using h.slots q j hq
  · exact h.cells j ((hmem j).1 hj)
  · simp [h.handles]

/-- The first reference to a slot: its cell gets a number. -/
theorem refer_own (hp : c.cell p = some (.own p)) (hown : .own p ∉ c.handles) :
    ∃ g, (b.frames p.1).store p.2 (.ref b.store.refs.size) = .ok g ∧
      ({ c with handles := c.handles ++ [.own p] } : Cells).ShownBy
        (update number (.own p) b.store.refs.size)
        { frames := update b.frames p.1 g
          store := (b.store.newRef (c.content (.own p))).2
          handles := b.handles ++ [.ref b.store.refs.size] } := by
  obtain ⟨g, hstore, hload⟩ := b.exists_store (h.slots p _ hp) (.ref b.store.refs.size)
  have hne {j : Cell} (hj : j ∈ c.handles) : j ≠ .own p := fun hjp => hown (hjp ▸ hj)
  have hlt {j : Cell} (hj : j ∈ c.handles) : number j < b.store.refs.size :=
    (Array.getElem?_eq_some_iff.1 (h.cells j hj)).1
  refine ⟨g, hstore, ?_, fun q j hq hfree => ?_, fun q j hq => (hload q).trans ?_, ?_, ?_⟩
  · -- The new number is that of no cell before.
    simp only [List.mem_append, List.mem_singleton]
    rintro i (hi | rfl) j (hj | rfl) heq
    · simp only [update_of_ne (hne hi), update_of_ne (hne hj)] at heq
      exact h.injective i hi j hj heq
    · simp only [update_of_ne (hne hi), update_self] at heq
      exact absurd heq (hlt hi).ne
    · simp only [update_of_ne (hne hj), update_self] at heq
      exact absurd heq.symm (hlt hj).ne
    · rfl
  · exact h.own q j hq fun hj => hfree (List.mem_append_left _ hj)
  · by_cases hqp : q = p
    · obtain rfl : .own p = j := Option.some.inj (hp.symm.trans (hqp ▸ hq))
      simp [hqp]
    · have hslot := h.slots q j hq
      by_cases hj : j ∈ c.handles
      · simpa [hqp, hj, hne hj] using hslot
      · obtain ⟨rfl, -⟩ := h.own q j hq hj
        simpa [hqp, hj] using hslot
  · simp only [List.mem_append, List.mem_singleton]
    rintro j (hj | rfl)
    · simpa [hne hj, Store.newRef, Array.getElem?_push, (hlt hj).ne] using h.cells j hj
    · simp [Store.newRef]
  · have hsame : c.handles.map (Value.ref ∘ update number (.own p) b.store.refs.size)
        = c.handles.map (.ref ∘ number) :=
      List.map_congr_left fun j hj => by simp [hne hj]
    simp [h.handles, hsame]

/-! ### Accesses -/

theorem slot (hp : c.cell p = some k) :
    k ∈ c.handles ∧ (b.frames p.1).load p.2 = .ok (.ref (number k)) ∨
      k ∉ c.handles ∧ k = .own p ∧ (c.content k).isRef = false ∧
        (b.frames p.1).load p.2 = .ok (c.content k) := by
  have hload := h.slots p k hp
  by_cases hk : k ∈ c.handles
  · rw [if_pos hk] at hload
    exact .inl ⟨hk, hload⟩
  · rw [if_neg hk] at hload
    exact .inr ⟨hk, (h.own p k hp hk).1, (h.own p k hp hk).2, hload⟩

theorem handle {i : Nat} (hi : c.handles[i]? = some k) :
    k ∈ c.handles ∧ b.handle i = .ok (.ref (number k)) := by
  refine ⟨List.mem_of_getElem? hi, ?_⟩
  rw [Boxes.handle, h.handles, List.getElem?_map, hi]
  rfl

theorem valueOf (hk : k ∈ c.handles) : b.store.valueOf (.ref (number k)) = .ok (c.content k) := by
  simp [Store.valueOf, Store.ref, h.cells k hk]

theorem read {way : Way} (hk : c.reach way = some k) :
    b.perform (.read way) = .ok ([c.content k], b) := by
  cases way with
  | slot p =>
    rw [Boxes.perform, Frame.getVariable]
    rcases h.slot hk with ⟨hmem, hload⟩ | ⟨-, -, hplain, hload⟩
    · rw [hload]
      show b.store.valueOf (.ref (number k)) >>= _ = _
      rw [h.valueOf hmem]
      rfl
    · simp [hload, hplain, Bind.bind, Except.bind, Pure.pure, Except.pure]
  | ref i =>
    obtain ⟨hmem, hr⟩ := h.handle hk
    rw [Boxes.perform, hr]
    show b.store.valueOf (.ref (number k)) >>= _ = _
    rw [h.valueOf hmem]
    rfl

theorem perform {a : Access} {seen : List Value}
    (ha : c.perform a = some (seen, c')) :
    ∃ number' b', b.perform a = .ok (seen, b') ∧ c'.ShownBy number' b' ∧
      ∀ p q, c.cell p = c.cell q → c'.cell p = c'.cell q := by
  cases a with
  | write way v =>
    obtain ⟨k, hk, ha⟩ := Option.bind_eq_some_iff.1 ha
    split at ha <;> cases ha
    cases way with
    | slot p =>
      rcases h.slot hk with ⟨hmem, hload⟩ | ⟨hmem, rfl, hplain, hload⟩
      · exact ⟨number, _, b.assign_of_ref hload v, h.write_shared hmem v, fun _ _ => id⟩
      · have hv : v.isRef = false := by
          rcases not_and_or.1 ‹¬(_ ∧ _)› with hv | hnot
          · simpa using hv
          · exact absurd hmem hnot
        obtain ⟨g, hstore, hshown⟩ := h.write_own hk hmem hv
        exact ⟨number, _, b.assign_of_plain hload hplain hstore, hshown, fun _ _ => id⟩
    | ref i =>
      obtain ⟨hmem, hr⟩ := h.handle hk
      refine ⟨number, _, ?_, h.write_shared hmem v, fun _ _ => id⟩
      rw [Boxes.perform, hr]
      rfl
  | read way =>
    obtain ⟨k, hk, ha⟩ := Option.bind_eq_some_iff.1 ha
    cases ha
    exact ⟨number, b, h.read hk, h, fun _ _ => id⟩
  | refer p =>
    obtain ⟨k, hk, ha⟩ := Option.bind_eq_some_iff.1 ha
    cases ha
    rcases h.slot hk with ⟨hmem, hload⟩ | ⟨hmem, rfl, hplain, hload⟩
    · refine ⟨number, _, ?_, h.refer_shared hmem, fun _ _ => id⟩
      rw [Boxes.perform, Frame.getReference, hload]
      show Except.ok (_, { b with frames := update _ _ _, handles := _ }) = _
      rw [update_eq_self]
    · obtain ⟨g, hstore, hshown⟩ := h.refer_own hk hmem
      refine ⟨_, _, ?_, hshown, fun _ _ => id⟩
      rw [Boxes.perform, Frame.getReference, hload]
      simp [hplain, Store.newRef, hstore, Bind.bind, Except.bind, Pure.pure, Except.pure]
  | bind p i =>
    obtain ⟨old, hold, ha⟩ := Option.bind_eq_some_iff.1 ha
    obtain ⟨k, hk, ha⟩ := Option.bind_eq_some_iff.1 ha
    split at ha <;> cases ha
    obtain ⟨hmem, hr⟩ := h.handle hk
    rcases h.slot hold with ⟨hold, -⟩ | ⟨hfree, rfl, hplain, hload⟩
    · exact absurd hold ‹_›
    · obtain ⟨g, hstore, hshown⟩ := h.bind_ref hold hmem
      refine ⟨number, _, ?_, hshown, ?_⟩
      · rw [Boxes.perform, hr]
        exact b.assign_of_plain hload hplain hstore
      · -- No other slot has the cell that the bound slot had.
        have halone {q : Slot} (hq : c.cell q = some (.own p)) : q = p := by
          obtain ⟨heq, -⟩ := h.own q _ hq hfree
          exact (Cell.own.inj heq).symm
        intro q r hqr
        by_cases hqp : q = p
        · have hrp : r = p := halone (hqr.symm.trans (hqp ▸ hold))
          rw [hqp, hrp]
        · have hrp : r ≠ p := fun hrp => hqp (halone (hqr.trans (hrp ▸ hold)))
          simpa [hqp, hrp] using hqr

/-- What holds of one access holds of many. -/
theorem performAll {accesses : List Access} {seen : List Value}
    (ha : performAll Cells.perform c accesses = some (seen, c')) :
    ∃ number' b', performAll Boxes.perform b accesses = .ok (seen, b') ∧ c'.ShownBy number' b' ∧
      ∀ p q, c.cell p = c.cell q → c'.cell p = c'.cell q := by
  induction accesses generalizing number c b seen with
  | nil =>
    cases ha
    exact ⟨number, b, rfl, h, fun _ _ => id⟩
  | cons a rest ih =>
    obtain ⟨⟨first, c₁⟩, hfirst, ha⟩ := Option.bind_eq_some_iff.1 ha
    obtain ⟨⟨more, c₂⟩, hmore, ha⟩ := Option.bind_eq_some_iff.1 ha
    cases ha
    obtain ⟨number₁, b₁, hb₁, hshown₁, hshared₁⟩ := h.perform hfirst
    obtain ⟨number₂, b₂, hb₂, hshown₂, hshared₂⟩ := ih hshown₁ hmore
    refine ⟨number₂, b₂, ?_, hshown₂, fun p q hpq => hshared₂ p q (hshared₁ p q hpq)⟩
    rw [PageScript.performAll, hb₁]
    show PageScript.performAll Boxes.perform b₁ rest >>= _ = _
    rw [hb₂]
    rfl

end

end ShownBy

end Cells

/-- Frames behave, under every sequence of accesses, as if each slot had been a cell from the
start.  What shares a cell shares it for ever, and what is written is seen through the slots
and the references that share its cell and no others. -/
theorem boxing_unobservable {frames : Nat → Frame} {store : Store} {given : List Nat}
    (hslots : ∀ n, ∀ v ∈ (frames n).slots, v.isRef → ∃ r ∈ given, v = .ref r)
    (hgiven : ∀ r ∈ given, ∃ v, store.refs[r]? = some (some v)) {accesses : List Access}
    {seen : List Value} {c : Cells}
    (hrun : performAll Cells.perform (.start frames store given) accesses = some (seen, c)) :
    ∃ b, performAll Boxes.perform { frames, store, handles := given.map .ref } accesses
        = .ok (seen, b) ∧
      (∀ later more c', performAll Cells.perform c later = some (more, c') →
        ∀ p q, c.cell p = c.cell q → c'.cell p = c'.cell q) ∧
      ∀ way v c' other k j, c.perform (.write way v) = some ([], c') → c.reach way = some k →
        c.reach other = some j → ∃ b', b.perform (.write way v) = .ok ([], b') ∧
          (b'.perform (.read other)).map Prod.fst
            = if j = k then .ok [v] else (b.perform (.read other)).map Prod.fst := by
  obtain ⟨number, b, hb, hshown, -⟩ := (Cells.ShownBy.start hslots hgiven).performAll hrun
  refine ⟨b, hb, fun later more c' hlater => ?_, ?_⟩
  · obtain ⟨_, _, -, -, hshared⟩ := hshown.performAll hlater
    exact hshared
  · intro way v c' other k j hwrite hk hj
    obtain ⟨_, b', hb', hshown', -⟩ := hshown.perform hwrite
    obtain ⟨_, hk', hwrite⟩ := Option.bind_eq_some_iff.1 hwrite
    cases hk.symm.trans hk'
    split at hwrite <;> cases hwrite
    have hj' : ({ c with content := update c.content k v } : Cells).reach other = some j := by
      cases other <;> exact hj
    refine ⟨b', hb', ?_⟩
    rw [hshown'.read hj', hshown.read hj]
    by_cases hjk : j = k
    · simp [Except.map, hjk]
    · simp [Except.map, hjk]

/-- Frames with a variable and a superglobal, which is a reference from the start. -/
def twoSlots (_ : Nat) : Frame := { code := default, capacity := 0, slots := #[.unset, .ref 0] }

/-- A variable is passed by reference, and the function assigns to its parameter and to the
superglobal. -/
def byReference : List Access :=
  [.write (.slot (0, 0)) (.int 1), .refer (0, 0), .bind (1, 0) 1, .write (.slot (1, 0)) (.int 2),
    .write (.slot (1, 1)) (.int 3), .read (.slot (0, 0)), .read (.ref 1), .read (.slot (0, 1))]

theorem boxing_unobservable_byReference :
    ∃ b, performAll Boxes.perform
      { frames := twoSlots, store := { refs := #[some .null] }, handles := [.ref 0] } byReference
      = .ok ([.int 2, .int 2, .int 3], b) := by
  have hslots : ∀ n, ∀ v ∈ (twoSlots n).slots, v.isRef → ∃ r ∈ [0], v = .ref r := by
    simp [twoSlots, Value.isRef]
  obtain ⟨c, hc⟩ : ∃ c, performAll Cells.perform
      (.start twoSlots { refs := #[some .null] } [0]) byReference
    = some ([.int 2, .int 2, .int 3], c) := ⟨_, rfl⟩
  obtain ⟨b, hb, -⟩ := boxing_unobservable hslots (by simp) hc
  exact ⟨b, hb⟩

end PageScript
