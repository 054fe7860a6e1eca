/-
What is emitted is the layout.

`Placed table code pos items` says that emitted items stand in resolved code at a
position, every label where the table has it.  Whatever `Node.compile` emits, placed
anywhere, is the layout of the node there (`compile_emits`), so the code of a program or
function is one layout from position 0 (`IsCodeOf.listing_eq`).
-/
import Mathlib.Data.List.Nodup
import PageScript.Proofs.Actions
import PageScript.Proofs.Layout
import PageScript.Proofs.Plan

open EStateM (Result)

namespace PageScript

open List EStateM Item

variable {n : Int} {i : Instr Int Bytecode} {items : List Item} {α β : Type}
  {table : List (Int × Nat)} {code : Array (Instr Nat Bytecode)} {pos : Nat}
  {j : Instr Nat Bytecode} {lines : List Line} {updates : List Int}
  {is : List (Instr Nat Bytecode)}

/-! ### Lines in code -/

def Laid (code : Array (Instr Nat Bytecode)) (pos : Nat) : List Line → Prop
  | [] => True
  | line :: lines => code[pos]? = some line.instr ∧ Laid code (pos + 1) lines

@[simp] theorem laid_nil : Laid code pos [] :=
  trivial

@[simp] theorem laid_cons {line : Line} :
    Laid code pos (line :: lines) ↔ code[pos]? = some line.instr ∧ Laid code (pos + 1) lines :=
  Iff.rfl

@[simp] theorem laid_append {xs ys : List Line} :
    Laid code pos (xs ++ ys) ↔ Laid code pos xs ∧ Laid code (pos + xs.length) ys := by
  induction xs generalizing pos with
  | nil => simp
  | cons x xs ih => simp [ih, and_assoc, Nat.add_assoc, Nat.add_comm 1]

theorem Laid.getElem? {i : Nat} {line : Line} (h : Laid code pos lines)
    (hi : lines[i]? = some line) :
    code[pos + i]? = some line.instr := by
  induction lines generalizing pos i with
  | nil => simp at hi
  | cons first lines ih =>
    cases i with
    | zero =>
      cases hi
      exact h.1
    | succ i =>
      rw [show pos + (i + 1) = pos + 1 + i by omega]
      exact ih h.2 hi

/-! ### Items in code -/

namespace Item

def label? : Item → Option Int
  | .label n => some n
  | .instr _ => none

def labelsOf (items : List Item) : List Int := items.filterMap label?

def target? : Item → Option Int
  | .instr (.jump _ n) => some n
  | _ => none

/-- The labels that items jump to, in order. -/
def targetsOf (items : List Item) : List Int := items.filterMap target?

def extent : List Item → Nat
  | [] => 0
  | .label _ :: items => extent items
  | .instr _ :: items => extent items + 1

@[simp] theorem labelsOf_nil : labelsOf [] = [] := rfl

@[simp] theorem labelsOf_label (n : Int) (items : List Item) :
    labelsOf (.label n :: items) = n :: labelsOf items := rfl

@[simp] theorem labelsOf_instr (i : Instr Int Bytecode) (items : List Item) :
    labelsOf (.instr i :: items) = labelsOf items := rfl

@[simp] theorem labelsOf_append (xs ys : List Item) :
    labelsOf (xs ++ ys) = labelsOf xs ++ labelsOf ys := filterMap_append

@[simp] theorem targetsOf_nil : targetsOf [] = [] := rfl

theorem targetsOf_cons (item : Item) (items : List Item) :
    targetsOf (item :: items) = item.target?.toList ++ targetsOf items := by
  rw [targetsOf, filterMap_cons]
  cases item.target? <;> rfl

theorem targetsOf_instr (h : ∀ f, i.retarget f = .ok j) (items : List Item) :
    targetsOf (.instr i :: items) = targetsOf items := by
  cases i with
  | jump kind n => cases h fun _ => .error .missingEntry
  | _ => rfl

@[simp] theorem targetsOf_append (xs ys : List Item) :
    targetsOf (xs ++ ys) = targetsOf xs ++ targetsOf ys := filterMap_append

@[simp] theorem extent_append (xs ys : List Item) : extent (xs ++ ys) = extent xs + extent ys := by
  induction xs with
  | nil => simp [extent]
  | cons x xs ih => cases x <;> simp +arith [extent, ih]

end Item

/-- Items stand in resolved code from a position on: each label where the
table has it, each instruction with its jump resolved. -/
def Placed (table : List (Int × Nat)) (code : Array (Instr Nat Bytecode)) (pos : Nat) :
    List Item → Prop
  | [] => True
  | .label n :: items => position table n = .ok pos ∧ Placed table code pos items
  | .instr i :: items =>
    (∃ j, i.retarget (position table) = .ok j ∧ code[pos]? = some j) ∧
      Placed table code (pos + 1) items

section

variable {table : List (Int × Nat)} {code : Array (Instr Nat Bytecode)} {pos : Nat}

@[simp] theorem placed_nil : Placed table code pos [] := trivial

@[simp] theorem placed_label :
    Placed table code pos (.label n :: items)
      ↔ position table n = .ok pos ∧ Placed table code pos items := Iff.rfl

@[simp] theorem placed_instr :
    Placed table code pos (.instr i :: items)
      ↔ (∃ j, i.retarget (position table) = .ok j ∧ code[pos]? = some j) ∧
        Placed table code (pos + 1) items := Iff.rfl

@[simp] theorem exists_map_eq_ok {ε : Type} {f : α → β} {x : Except ε α} {P : β → Prop} :
    (∃ b, x.map f = .ok b ∧ P b) ↔ ∃ a, x = .ok a ∧ P (f a) := by
  cases x <;> simp [Except.map]

@[simp] theorem placed_append {xs ys : List Item} :
    Placed table code pos (xs ++ ys)
      ↔ Placed table code pos xs ∧ Placed table code (pos + extent xs) ys := by
  induction xs generalizing pos with
  | nil => simp [extent]
  | cons x xs ih => cases x <;> simp [extent, ih, and_assoc, Nat.add_assoc, Nat.add_comm 1]

end

/-- A label, if there is one, is at a position. -/
def Leads (table : List (Int × Nat)) (label : Option Int) (target : Nat) : Prop :=
  ∀ n ∈ label, position table n = .ok target

theorem leads_some {target : Nat} (h : position table n = .ok target) :
    Leads table (some n) target := by
  intro m hm
  cases hm
  exact h

theorem leads_none {target : Nat} : Leads table none target :=
  fun _ hn => by cases hn

/-- Items that use the labels from `low` up to `high` and become these lines,
of this number, wherever they are placed. -/
structure Emitted (finish next : Option Int) (low high : Int) (width : Nat)
    (lines : Nat → Exits → List Line) (items : List Item) : Prop where
  low_le : low ≤ high
  labels : ∀ n, (labelsOf items).count n ≤ (if low ≤ n ∧ n < high then 1 else 0) ∧
    (n ∈ targetsOf items → n ∈ labelsOf items ∨ finish = some n ∨ next = some n)
  extent : extent items = width
  length : ∀ pos x, (lines pos x).length = width
  laid : ∀ {table code pos} {x : Exits}, Placed table code pos items →
    Leads table finish x.breakTo → Leads table next x.continueTo → Laid code pos (lines pos x)

/-- The action emits these lines.  Apart from the items and the labels used up
it leaves the assembler as it was. -/
def Emits (action : Emit Unit) (width : Nat) (lines : Nat → Exits → List Line) : Prop :=
  ∀ a a' : Assembler, 0 ≤ a.nextLabel → action.run a = .ok () a' →
    ∃ items high, a' = { a with items := a.items ++ items.toArray, nextLabel := high } ∧
      Emitted a.ends.head? a.updates.head? a.nextLabel high width lines items

namespace Emitted

variable {finish next : Option Int} {low middle high : Int} {w₁ w₂ : Nat}
  {f g : Nat → Exits → List Line} {xs ys : List Item}

theorem nil (n : Int) : Emitted finish next n n 0 (fun _ _ => []) [] where
  low_le := Int.le_refl n
  labels := by simp
  extent := rfl
  length _ _ := rfl
  laid _ _ _ := trivial

theorem append (hx : Emitted finish next low middle w₁ f xs)
    (hy : Emitted finish next middle high w₂ g ys) :
    Emitted finish next low high (w₁ + w₂) (fun pos x => f pos x ++ g (pos + w₁) x)
      (xs ++ ys) where
  low_le := Int.le_trans hx.low_le hy.low_le
  labels n := by
    have := hx.low_le
    have := hy.low_le
    have := hx.labels n
    have := hy.labels n
    simp only [labelsOf_append, targetsOf_append, count_append, mem_append]
    grind
  extent := by rw [extent_append, hx.extent, hy.extent]
  length pos x := by rw [length_append, hx.length, hy.length]
  laid hplaced hfinish hnext := by
    rw [placed_append, hx.extent] at hplaced
    rw [laid_append, hx.length]
    exact ⟨hx.laid hplaced.1 hfinish hnext, hy.laid hplaced.2 hfinish hnext⟩

theorem instr (h : ∀ f, i.retarget f = .ok j) (d : Nat) (mark : Mark) (n : Int) :
    Emitted finish next n n 1 (fun _ _ => [⟨j, d, mark⟩]) [.instr i] where
  low_le := Int.le_refl n
  labels := by simp [targetsOf_instr h]
  extent := rfl
  length _ _ := rfl
  laid hplaced _ _ := by
    obtain ⟨⟨k, hk, hcode⟩, -⟩ := hplaced
    obtain rfl : j = k := Except.ok.inj ((h _).symm.trans hk)
    exact ⟨hcode, trivial⟩

theorem exit {label : Int} {target : Exits → Nat} {mark : Exits → Mark} (d : Nat)
    (hlabel : finish = some label ∨ next = some label)
    (h : ∀ {table} {x : Exits}, Leads table finish x.breakTo → Leads table next x.continueTo →
      position table label = .ok (target x)) :
    Emitted finish next n n 1 (fun _ x => [⟨.jump .always (target x), d, mark x⟩])
      [.instr (.jump .always label)] where
  low_le := Int.le_refl n
  labels l := by
    simp [targetsOf_cons, target?]
    grind
  extent := rfl
  length _ _ := rfl
  laid hplaced hfinish hnext := by
    obtain ⟨⟨j, hj, hcode⟩, -⟩ := hplaced
    rw [Instr.retarget, h hfinish hnext] at hj
    cases hj
    exact ⟨hcode, trivial⟩

theorem nodup (hx : Emitted finish next low high w₁ f xs) : (labelsOf xs).Nodup :=
  nodup_iff_count_le_one.2 fun n => Nat.le_trans (hx.labels n).1 (by split <;> omega)

end Emitted

/-! ### Plans and their lines -/

namespace Plan

variable {p q : Plan} {low high : Int} {f : Int → Plan}

/-- If `low` is the next free label the plan gives these items, and then `high` is. -/
def Yields (p : Plan) (low high : Int) (items : List Item) : Prop :=
  emitted (p low).1 = .ok items ∧ (p low).2 = high

@[simp] theorem yields_append : (p ++ q).Yields low high items ↔
    ∃ xs middle, p.Yields low middle xs ∧ ∃ ys, q.Yields middle high ys ∧ xs ++ ys = items := by
  unfold Yields
  show emitted ((p low).1 ++ (q (p low).2).1) = .ok items ∧ (q (p low).2).2 = high ↔ _
  rw [emitted_append]
  cases emitted (p low).1 with
  | error e => simp [bind, Except.bind]
  | ok xs => cases hq : emitted (q (p low).2).1 <;>
      simp [bind, Except.bind, Except.map, hq, and_comm]

@[simp] theorem yields_fresh :
    (fresh f).Yields low high items ↔ (f low).Yields (low + 1) high items := Iff.rfl

theorem yields_stop {s : Stop} :
    (stop s).Yields low high items ↔ s.outcome = .ok items ∧ low = high := by
  rw [Yields, stop, emitted]
  cases s.outcome <;> simp [emitted, bind, Except.bind, pure, Except.pure]

@[simp] theorem yields_emit : (emit i).Yields low high items ↔ [.instr i] = items ∧ low = high := by
  simp [emit, yields_stop, Stop.outcome]

@[simp] theorem yields_mark : (mark n).Yields low high items ↔ [.label n] = items ∧ low = high := by
  simp [mark, yields_stop, Stop.outcome]

theorem yields_label (h : 0 ≤ n) :
    (label n).Yields low high items ↔ [.label n] = items ∧ low = high := by
  rw [label, if_neg (by omega), yields_mark]

/-- What the plan gives becomes these lines. -/
def Lays (p : Plan) (x : Aims) (width : Nat) (lines : Nat → Exits → List Line) : Prop :=
  ∀ low high items, 0 ≤ low → p.Yields low high items →
    Emitted x.finish x.next low high width lines items

namespace Lays

variable {x : Aims} {w₁ w₂ : Nat} {f g : Nat → Exits → List Line}

theorem nothing : Plan.nothing.Lays x 0 fun _ _ => [] := by
  rintro low _ _ - ⟨⟨⟩, rfl⟩
  exact .nil low

theorem refuse (fault : Fault) : (Plan.refuse fault).Lays x w₁ f := by
  rintro low _ _ - ⟨⟨⟩, -⟩

theorem append (hp : p.Lays x w₁ f) (hq : q.Lays x w₂ g) :
    (p ++ q).Lays x (w₁ + w₂) fun pos x => f pos x ++ g (pos + w₁) x := by
  intro low high items hlow h
  obtain ⟨xs, middle, hxs, ys, hys, rfl⟩ := yields_append.1 h
  have hxs := hp _ _ _ hlow hxs
  exact hxs.append (hq _ _ _ (Int.le_trans hlow hxs.low_le) hys)

theorem of_eq (hp : p.Lays x w₁ f) (hw : w₁ = w₂) (hlines : ∀ pos x, f pos x = g pos x) :
    p.Lays x w₂ g := by
  obtain rfl : f = g := funext fun pos => funext fun x => hlines pos x
  exact hw ▸ hp

theorem emit (h : ∀ f, i.retarget f = .ok j) (d : Nat) (mark : Mark) :
    (Plan.emit i).Lays x 1 fun _ _ => [⟨j, d, mark⟩] := by
  intro low high items _ hitems
  obtain ⟨rfl, rfl⟩ := yields_emit.1 hitems
  exact .instr h d mark low

end Lays

end Plan

namespace Node

open Plan (Lays yields_label yields_stop)

/-! ### Branches and loops -/

section

variable {scopes : Nat → Scope} {d : Nat} {s c t e u b k v : Node}

/-- What is planned for a node is its layout. -/
def LaysOut (scopes : Nat → Scope) (d : Nat) (node : Node) : Prop :=
  ∀ x, (plan scopes x node).Lays x (width node) fun pos y => layout scopes pos d y node

section

variable {node : Node} {x : Aims} {p : Plan} {lines : Nat → Exits → List Line}

section

variable (h : p.Lays x (width node) lines) (d : Nat)

include h

theorem lays_orNull :
    (Plan.orNull node p).Lays x (width node + node.isAbsent.toNat)
      fun pos y => orNullLines node (lines pos y) d := by
  cases node with
  | absent => exact .emit (fun _ => rfl) _ _
  | _ => exact h

theorem lays_argument :
    (Plan.argument node p).Lays x (width node) fun pos y => argumentLines node (lines pos y) d := by
  cases node with
  | «variable» name slot => exact .emit (fun _ => rfl) _ _
  | _ => exact h

theorem lays_member :
    (Plan.element .loadMemberVar .loadMember node p).Lays x
      (width node + (!node.isVariable).toNat) fun pos y => memberLines node (lines pos y) d := by
  cases node with
  | «variable» name slot => exact .emit (fun _ => rfl) _ _
  | _ => exact h.append (.emit (fun _ => rfl) _ _)

theorem lays_store :
    (Plan.element .storeMemberVar .storeMember node p).Lays x
      (width node + (!node.isVariable).toNat) fun pos y => storeLines node (lines pos y) d := by
  cases node with
  | «variable» name slot => exact .emit (fun _ => rfl) _ _
  | _ => exact h.append (.emit (fun _ => rfl) _ _)

end

theorem lays_emitWhen (condition : Bool) (h : ∀ f, i.retarget f = .ok j) (d : Nat) :
    (Plan.emitWhen condition i).Lays x condition.toNat fun _ _ => lineIf condition j d := by
  cases condition
  · exact .nothing
  · exact .emit h d .plain

theorem operation_retarget {operator : String}
    (h : operation? operator = some i) (f : Int → Except Fault Nat) :
    i.retarget f = .ok ((operation? operator).getD .discardTop) := by
  unfold operation? at *
  split at h <;> cases h <;> rfl

theorem lays_operation (operator : String) (d : Nat) :
    (Plan.operation operator).Lays x 1 fun _ _ => [operationLine operator d] := by
  unfold Plan.operation
  split
  · rename_i i hi
    exact .emit (operation_retarget hi) d .plain
  · exact .refuse _

theorem lays_target (target : Node) (d : Nat) :
    (Plan.target target).Lays x 2 fun _ _ => targetLines target d := by
  cases target with
  | «variable» name slot => exact (Lays.emit (fun _ => rfl) d .plain).append (.emit (fun _ => rfl) _ _)
  | _ => exact .refuse _

theorem lays_key (key : Node) (d : Nat) :
    (Plan.key key).Lays x (keyWidth key) fun _ _ => keyLines key d := by
  have htarget := lays_target (x := x) key d
  cases key with
  | absent => exact .emit (fun _ => rfl) d .plain
  | _ => exact htarget

theorem lays_noCount (count : Node) : (Plan.noCount count).Lays x 0 fun _ _ => [] := by
  cases count with
  | absent => exact .nothing
  | _ => exact .refuse _

theorem lays_call (arguments : Node) (d : Nat) :
    (Plan.call arguments).Lays x 1 fun _ _ => [⟨.call arguments.count, d, .plain⟩] := by
  unfold Plan.call count
  cases arguments.nodes? with
  | none => exact .refuse _
  | some nodes => exact .emit (fun _ => rfl) d .plain

theorem lays_leave (d : Nat) (mark : Exits → Mark) : (Plan.stop (.leave x.loop x.finish)).Lays x 1
    fun _ y => [⟨.jump .always y.breakTo, d, mark y⟩] := by
  intro low high items _ h
  obtain ⟨hitems, rfl⟩ := yields_stop.1 h
  obtain ⟨loop, started, finish, next⟩ := x
  cases finish with
  | none => cases hitems
  | some n =>
    cases hitems
    exact .exit d (.inl rfl) fun hlead _ => hlead n rfl

theorem lays_goOn (d : Nat) (mark : Exits → Mark) :
    (Plan.stop (.goOn x.loop x.started x.next)).Lays x 1
      fun _ y => [⟨.jump .always y.continueTo, d, mark y⟩] := by
  intro low high items _ h
  obtain ⟨hitems, rfl⟩ := yields_stop.1 h
  obtain ⟨loop, started, finish, next⟩ := x
  cases started <;> cases next <;> cases hitems
  exact .exit d (.inr rfl) fun _ hlead => hlead _ rfl

theorem lays_declare (scopes : Nat → Scope) (name : String) (body : Node) (scope d : Nat) :
    (Plan.declare name (scopes scope) (plan scopes {} body)).Lays x 1 fun _ _ =>
      [⟨.declareFunction name (functionCode name (scopes scope) (compile scopes body)), d,
        .plain⟩] := by
  intro low high items _ h
  obtain ⟨h, rfl⟩ := h
  rw [functionCode, (compile_follows scopes .start body).assembleBody_eq]
  simp only [Plan.declare, emitted_append, emitted_inner] at h
  cases hbody : emitted (plan scopes {} body ({} : Assembler).nextLabel).1 with
  | error fault =>
    rw [hbody] at h
    cases h
  | ok is =>
    cases hcode : Bytecode.assemble name (scopes scope) is with
    | error fault =>
      simp only [hbody, hcode] at h
      cases h
    | ok code =>
      simp only [hbody, hcode] at h
      cases h
      simp only [bind, Except.bind, hcode]
      exact .instr (fun _ => rfl) d .plain low

end

attribute [local simp] Plan.append_assoc

theorem laysOut_if (hc : LaysOut scopes d c) (ht : LaysOut scopes d t) (he : LaysOut scopes d e) :
    LaysOut scopes d (.ifElse c t e) := by
  intro x low high items hlow h
  simp [plan] at h
  obtain ⟨cs, n, hcs, ts, m, ls, _, es, _, ms, ⟨hts, hls, hes, hms⟩, rfl⟩ := h
  have hcs := hc _ _ _ _ hlow hcs
  have := hcs.low_le
  have hts := ht _ _ _ _ (by omega) hts
  have := hts.low_le
  obtain ⟨rfl, rfl⟩ := (yields_label (by omega)).1 hls
  have hes := lays_orNull (he x) d _ _ _ (by omega) hes
  have := hes.low_le
  obtain ⟨rfl, rfl⟩ := (yields_label (by omega)).1 hms
  constructor
  case low_le => omega
  case labels =>
    intro l
    have := hcs.labels l
    have := hts.labels l
    have := hes.labels l
    simp [targetsOf_cons, target?, count_cons]
    grind
  case extent => simp +arith [extent, hcs.extent, hts.extent, hes.extent, width]
  case length => exact fun pos y => length_layout ..
  case laid =>
    intro table code pos y hplaced hfinish hnext
    simp only [placed_append, placed_instr, placed_label, Instr.retarget, exists_map_eq_ok,
      cons_append, nil_append, hcs.extent, hts.extent, hes.extent] at hplaced
    obtain ⟨hcs', ⟨t, ht, hfalse⟩, hts', ⟨u, hu, halways⟩, hthen, hes', hif, -⟩ := hplaced
    obtain rfl := Except.ok.inj (ht.symm.trans hthen)
    obtain rfl := Except.ok.inj (hu.symm.trans hif)
    rw [← Nat.add_assoc _ (width e)] at halways
    simp only [layout, laid_append, laid_cons, cons_append, append_assoc, length_layout]
    exact ⟨hcs.laid hcs' hfinish hnext, hfalse, hts.laid hts' hfinish hnext, halways,
      hes.laid hes' hfinish hnext⟩

theorem lays_shortCircuit {x : Aims} (hc : LaysOut scopes d c) (ht : LaysOut scopes d t)
    (kind : Jump) :
    (Plan.shortCircuit kind (plan scopes x c) (plan scopes x t)).Lays x (width c + width t + 1)
      fun pos y => layout scopes pos d y c ++
        ⟨.jump kind (pos + width c + 1 + width t), d + 1, .plain⟩ ::
        layout scopes (pos + width c + 1) d y t := by
  intro low high items hlow h
  simp [Plan.shortCircuit] at h
  obtain ⟨cs, n, hcs, ts, m, ls, ⟨hts, hls⟩, rfl⟩ := h
  have hcs := hc _ _ _ _ hlow hcs
  have := hcs.low_le
  have hts := ht _ _ _ _ (by omega) hts
  have := hts.low_le
  obtain ⟨rfl, rfl⟩ := (yields_label (by omega)).1 hls
  constructor
  case low_le => omega
  case labels =>
    intro l
    have := hcs.labels l
    have := hts.labels l
    simp [targetsOf_cons, target?, count_cons]
    grind
  case extent => simp +arith [extent, hcs.extent, hts.extent]
  case length =>
    intro pos y
    simp +arith [length_layout]
  case laid =>
    intro table code pos y hplaced hfinish hnext
    simp only [placed_append, placed_instr, placed_label, Instr.retarget, exists_map_eq_ok,
      hcs.extent, hts.extent] at hplaced
    obtain ⟨hcs', ⟨t, ht, hjump⟩, hts', hend, -⟩ := hplaced
    obtain rfl := Except.ok.inj (ht.symm.trans hend)
    simp only [laid_append, laid_cons, length_layout]
    exact ⟨hcs.laid hcs' hfinish hnext, hjump, hts.laid hts' hfinish hnext⟩

theorem laysOut_while (hc : LaysOut scopes (d + 1) c) (hb : LaysOut scopes (d + 1) b) :
    LaysOut scopes d (.whileLoop c b) := by
  intro x low high items hlow h
  simp [plan] at h
  obtain ⟨cs, n, bs, m, ls, ⟨hcs, hbs, hls⟩, rfl⟩ := h
  have hcs := hc _ _ _ _ (by omega) hcs
  have := hcs.low_le
  have hbs := hb _ _ _ _ (by omega) hbs
  have := hbs.low_le
  obtain ⟨rfl, rfl⟩ := (yields_label (by omega)).1 hls
  constructor
  case low_le => omega
  case labels =>
    intro l
    have := hcs.labels l
    have := hbs.labels l
    simp [targetsOf_cons, target?, count_cons]
    grind
  case extent => simp +arith [extent, hcs.extent, hbs.extent, width]
  case length => exact fun pos y => length_layout ..
  case laid =>
    intro table code pos y hplaced hfinish hnext
    simp only [placed_append, placed_instr, placed_label, Instr.retarget, exists_map_eq_ok,
      Except.ok.injEq, exists_eq_left', hcs.extent, hbs.extent] at hplaced
    obtain ⟨hnull, hstart, hcs', ⟨t, ht, hfalse⟩, hbs', hdiscard, ⟨u, hu, halways⟩, hend, -⟩ :=
      hplaced
    obtain rfl := Except.ok.inj (ht.symm.trans hend)
    obtain rfl := Except.ok.inj (hu.symm.trans hstart)
    have hfinish' : pos + 1 + width c + 1 + width b + 1 + 1
        = (whileAt pos d (width c) (width b)).finish := by
      simp only [whileAt]
      omega
    rw [hfinish'] at hfalse hend
    simp only [layout, laid_append, laid_cons, cons_append, append_assoc, length_layout]
    exact ⟨hnull, hcs.laid hcs' hfinish (leads_some hstart), hfalse,
      hbs.laid hbs' (leads_some hend) (leads_some hstart), hdiscard, halways, trivial⟩

theorem laysOut_for (hs : LaysOut scopes d s) (hc : LaysOut scopes (d + 1) c)
    (hu : LaysOut scopes (d + 1) u) (hb : LaysOut scopes d b) :
    LaysOut scopes d (.forLoop s c u b) := by
  intro x low high items hlow h
  simp [plan] at h
  obtain ⟨ss, n, hss, cs, m, bs, k, ns, _, us, _, ls, ⟨hcs, hbs, hns, hus, hls⟩, rfl⟩ := h
  have hss := hs _ _ _ _ hlow hss
  have := hss.low_le
  have hcs := hc _ _ _ _ (by omega) hcs
  have := hcs.low_le
  have hbs := hb _ _ _ _ (by omega) hbs
  have := hbs.low_le
  obtain ⟨rfl, rfl⟩ := (yields_label (by omega)).1 hns
  have hus := hu _ _ _ _ (by omega) hus
  have := hus.low_le
  obtain ⟨rfl, rfl⟩ := (yields_label (by omega)).1 hls
  constructor
  case low_le => omega
  case labels =>
    intro l
    have := hss.labels l
    have := hcs.labels l
    have := hbs.labels l
    have := hus.labels l
    simp [targetsOf_cons, target?, count_cons]
    grind
  case extent => simp +arith [extent, hss.extent, hcs.extent, hbs.extent, hus.extent, width]
  case length => exact fun pos y => length_layout ..
  case laid =>
    intro table code pos y hplaced hfinish hnext
    simp only [placed_append, placed_instr, placed_label, Instr.retarget, exists_map_eq_ok,
      Except.ok.injEq, exists_eq_left', cons_append, nil_append, hss.extent, hcs.extent, hbs.extent,
      hus.extent] at hplaced
    obtain ⟨hss', hdiscard, hnull, hstart, hcs', ⟨t, ht, hfalse⟩, hdiscard', hbs', hupdate, hus',
      hdiscard'', ⟨u, hu, halways⟩, hend, -⟩ := hplaced
    obtain rfl := Except.ok.inj (ht.symm.trans hend)
    obtain rfl := Except.ok.inj (hu.symm.trans hstart)
    have hfinish' : pos + width s + 1 + 1 + width c + 1 + 1 + width b + width u + 1 + 1
        = (forAt pos d (width s) (width c) (width u) (width b)).finish := by
      simp only [forAt]
      omega
    have hnext' : (forAt pos d (width s) (width c) (width u) (width b)).next
        = pos + width s + 1 + 1 + width c + 1 + 1 + width b := by
      simp only [forAt]
      omega
    rw [hfinish'] at hfalse hend
    simp only [layout, laid_append, laid_cons, cons_append, append_assoc, length_layout, hnext']
    exact ⟨hss.laid hss' hfinish hnext, hdiscard, hnull,
      hcs.laid hcs' (leads_some hend) (leads_some hupdate), hfalse, hdiscard',
      hbs.laid hbs' (leads_some hend) (leads_some hupdate),
      hus.laid hus' (leads_some hend) hnext, hdiscard'', halways, trivial⟩

theorem laysOut_foreach (hs : LaysOut scopes d s) (hb : LaysOut scopes (d + 1) b) :
    LaysOut scopes d (.foreachLoop s k v b) := by
  intro x low high items hlow h
  simp [plan] at h
  obtain ⟨ss, n, hss, ks, m, vs, i, bs, j, ls, ⟨hks, hvs, hbs, hls⟩, rfl⟩ := h
  have hss := hs _ _ _ _ hlow hss
  have := hss.low_le
  have hks := lays_key (x := {}) k (d + 3) _ _ _ (by omega) hks
  have := hks.low_le
  have hvs := lays_target (x := {}) v (d + 2) _ _ _ (by omega) hvs
  have := hvs.low_le
  have hbs := hb _ _ _ _ (by omega) hbs
  have := hbs.low_le
  obtain ⟨rfl, rfl⟩ := (yields_label (by omega)).1 hls
  constructor
  case low_le => omega
  case labels =>
    intro l
    have := hss.labels l
    have := hks.labels l
    have := hvs.labels l
    have := hbs.labels l
    simp [targetsOf_cons, target?, count_cons]
    grind
  case extent => simp +arith [extent, hss.extent, hks.extent, hvs.extent, hbs.extent, width]
  case length => exact fun pos y => length_layout ..
  case laid =>
    intro table code pos y hplaced hfinish hnext
    simp only [placed_append, placed_instr, placed_label, Instr.retarget, exists_map_eq_ok,
      Except.ok.injEq, exists_eq_left', hss.extent, hks.extent, hvs.extent, hbs.extent] at hplaced
    obtain ⟨hss', hiterator, hnull, hstart, ⟨t, ht, hempty⟩, helement, hks', hvs', hbs',
      ⟨u, hu, halways⟩, hend, -⟩ := hplaced
    obtain rfl := Except.ok.inj (ht.symm.trans hend)
    obtain rfl := Except.ok.inj (hu.symm.trans hstart)
    have hfinish' : pos + width s + 1 + 1 + 1 + 1 + keyWidth k + 2 + width b + 1
        = (foreachAt pos d (width s) (keyWidth k) (width b)).finish := by
      simp only [foreachAt]
      omega
    have hbody : (foreachAt pos d (width s) (keyWidth k) (width b)).start + keyWidth k + 4
        = pos + width s + 1 + 1 + 1 + 1 + keyWidth k + 2 := by
      simp only [foreachAt]
      omega
    rw [hfinish'] at hempty hend
    simp only [layout, laid_append, laid_cons, cons_append, append_assoc, length_layout,
      length_keyLines, length_targetLines, hbody]
    exact ⟨hss.laid hss' hfinish hnext, hiterator, hnull, hempty, helement,
      hks.laid (x := {}) hks' leads_none leads_none,
      hvs.laid (x := {}) hvs' leads_none leads_none,
      hbs.laid hbs' (leads_some hend) hnext, halways, trivial⟩

end

/-! ### All nodes -/

section

variable (scopes : Nat → Scope)

mutual

/-- What is planned for a node is its layout. -/
theorem plan_lays (d : Nat) : (node : Node) → LaysOut scopes d node
  | .sourceElements functions nodes, x =>
    (planAll_lays x d 0 functions).append (planBody_lays x d nodes)
  | .program body _, x => plan_lays d body x
  | .exprStatement expr, x => plan_lays d expr x
  | .function name body scope, _ => lays_declare scopes name body scope d
  | .call callee arguments, x =>
    ((plan_lays d arguments x).append ((plan_lays (d + arguments.count) callee x).append
      (lays_call arguments (d + arguments.count + 1)))).of_eq
      (by simp +arith [width]) (by simp [layout])
  | .argumentList nodes, x => planArguments_lays x d nodes
  | .array nodes, x => (planAll_lays x d 1 nodes).append (.emit (fun _ => rfl) _ _)
  | .member base index, x =>
    ((plan_lays d index x).append (lays_member (plan_lays (d + 1) base x) (d + 1))).of_eq
      (by simp +arith [width]) (by simp [layout])
  | .interpolation _ parts _, x =>
    (planAll_lays x d 1 parts).append
      ((Lays.emit (fun _ => rfl) _ _).append (.emit (fun _ => rfl) _ _))
  | .assignment name slot right operator post, x => by
    have hstore := (Lays.emit (i := .assign slot name) (x := x) (fun _ => rfl) (d + 1 + post.toNat)
      .plain).append
      (lays_emitWhen (i := .discardTop) post (fun _ => rfl) (d + 2))
    rw [plan, Plan.append_assoc]
    by_cases h : operator = "="
    · rw [if_pos h]
      exact ((plan_lays d right x).append hstore).of_eq
        (by simp +arith [width, h]) (by simp [layout, h])
    · rw [if_neg h]
      exact (((((Lays.emit (fun _ => rfl) d .plain).append
        (lays_emitWhen post (fun _ => rfl) (d + 1))).append
        (plan_lays (d + 1 + post.toNat) right x)).append
        (lays_operation operator (d + 1 + post.toNat + right.operands))).append hstore).of_eq
        (by simp +arith [width, h]) (by simp [layout, h, Nat.add_assoc])
  | .memberAssignment base index right operator post, x => by
    have hstore := ((plan_lays (d + 1 + post.toNat) index x).append
      (lays_store (plan_lays (d + 2 + post.toNat) base x) (d + 2 + post.toNat))).append
      (lays_emitWhen (i := .discardTop) post (fun _ => rfl) (d + 2))
    rw [plan, Plan.append_assoc, Plan.append_assoc, ← Plan.append_assoc (plan scopes x index)]
    by_cases h : operator = "="
    · rw [if_pos h]
      exact ((plan_lays d right x).append hstore).of_eq
        (by simp +arith [width, h]) (by simp [layout, h, Nat.add_assoc])
    · rw [if_neg h]
      exact ((((((plan_lays d index x).append (lays_member (plan_lays (d + 1) base x) (d + 1))).append
        (lays_emitWhen post (fun _ => rfl) (d + 1))).append
        (plan_lays (d + 1 + post.toNat) right x)).append
        (lays_operation operator (d + 1 + post.toNat + right.operands))).append hstore).of_eq
        (by simp +arith [width, h]) (by simp [layout, h, Nat.add_assoc])
  | .breakLoop count, x =>
    (lays_noCount count).append ((Lays.emit (fun _ => rfl) _ _).append (lays_leave _ _))
  | .continueLoop count, x =>
    (lays_noCount count).append ((Lays.emit (fun _ => rfl) _ _).append (lays_goOn _ _))
  | .ifElse condition thenBranch elseBranch, x =>
    laysOut_if (plan_lays d condition) (plan_lays d thenBranch) (plan_lays d elseBranch) x
  | .whileLoop condition body, x => laysOut_while (plan_lays _ condition) (plan_lays _ body) x
  | .forLoop setup condition update body, x =>
    laysOut_for (plan_lays _ setup) (plan_lays _ condition) (plan_lays _ update)
      (plan_lays _ body) x
  | .foreachLoop subject _ _ body, x => laysOut_foreach (plan_lays _ subject) (plan_lays _ body) x
  | .print expr, x => (plan_lays d expr x).append (.emit (fun _ => rfl) _ _)
  | .returnValue expr, x =>
    (lays_orNull (plan_lays d expr x) d).append (.emit (fun _ => rfl) _ _)
  | .block nodes, x => planBlock_lays x d nodes
  | .binary op left right, x =>
    ((plan_lays d left x).append ((plan_lays (d + 1) right x).append
      (.emit (fun _ => rfl) (d + 2) .plain))).of_eq (by simp +arith [width]) (by simp [layout])
  | .not expr, x => (plan_lays d expr x).append (.emit (fun _ => rfl) _ _)
  | .both left right, _ | .either left right, _ =>
    lays_shortCircuit (plan_lays d left) (plan_lays d right) _
  | .identifier _, _ | .namedConstant _, _ | .constantInt _ _, _ | .constantFloat _ _, _
  | .constantText _ _, _ | .boolean _, _ | .null, _ | .variable _ _, _ | .emptyExpression, _ =>
    .emit (fun _ => rfl) _ _
  | .empty, _ | .global _, _ => .nothing
  | .absent, _ | .foreign _, _ => .refuse _

theorem planAll_lays (x : Aims) (d step : Nat) : (nodes : List Node) →
    (planAll scopes x nodes).Lays x (widthAll nodes) fun pos y => layoutAll scopes pos d step y nodes
  | [] => .nothing
  | node :: nodes => (plan_lays d node x).append (planAll_lays x (d + step) step nodes)

theorem planArguments_lays (x : Aims) (d : Nat) : (nodes : List Node) →
    (planArguments scopes x nodes).Lays x (widthAll nodes)
      fun pos y => layoutArguments scopes pos d y nodes
  | [] => .nothing
  | node :: nodes =>
    (lays_argument (plan_lays d node x) d).append (planArguments_lays x (d + 1) nodes)

theorem planBody_lays (x : Aims) (d : Nat) : (nodes : List Node) →
    (planBody scopes x nodes).Lays x (widthBody nodes) fun pos y => layoutBody scopes pos d y nodes
  | [] => .emit (fun _ => rfl) _ _
  | [node] => (plan_lays d node x).append (lays_emitWhen _ (fun _ => rfl) _)
  | node :: next :: nodes =>
    ((plan_lays d node x).append ((lays_emitWhen _ (fun _ => rfl) (d + 1)).append
      (planBody_lays x d (next :: nodes)))).of_eq
      (by simp +arith [widthBody]) (by simp [layoutBody])

theorem planBlock_lays (x : Aims) (d : Nat) : (nodes : List Node) →
    (planBlock scopes x nodes).Lays x (widthBlock nodes)
      fun pos y => layoutBlock scopes pos d y nodes
  | [] => .emit (fun _ => rfl) _ _
  | [node] => plan_lays d node x
  | node :: next :: nodes =>
    ((plan_lays d node x).append ((Lays.emit (fun _ => rfl) (d + 1) .plain).append
      (planBlock_lays x d (next :: nodes)))).of_eq
      (by simp +arith [widthBlock]) (by simp [layoutBlock])

end

/-- What is emitted for a node is its layout. -/
theorem compile_emits (d : Nat) (node : Node) :
    Emits (compile scopes node) (width node) fun pos x => layout scopes pos d x node := by
  intro a a' hlow h
  obtain ⟨items, hitems, rfl⟩ := (compile_follows scopes .own node).ok_of_run h
  exact ⟨items, _, rfl, plan_lays scopes d node _ _ _ _ hlow ⟨hitems, rfl⟩⟩

end

end Node

/-! ### Resolved code -/

theorem lookup_of_nodup [BEq α] [LawfulBEq α] {table : List (α × β)} {n : α} {pos : β}
    (hnodup : (table.map Prod.fst).Nodup) (h : (n, pos) ∈ table) : table.lookup n = some pos := by
  induction table with
  | nil => cases h
  | cons entry table ih =>
    rw [map_cons, nodup_cons] at hnodup
    rcases mem_cons.1 h with rfl | h
    · simp
    · have hne : n ≠ entry.1 := by
        rintro rfl
        exact hnodup.1 (mem_map.2 ⟨_, h, rfl⟩)
      rw [lookup_cons, beq_false_of_ne hne]
      exact ih hnodup.2 h

theorem not_mem_of_lookup (h : table.lookup n = none) : n ∉ table.map Prod.fst := by
  induction table with
  | nil => exact not_mem_nil
  | cons entry table ih =>
    rw [lookup_cons] at h
    split at h
    · cases h
    · rw [map_cons, mem_cons, not_or]
      exact ⟨by simpa using ‹(n == entry.1) = false›, ih h⟩

namespace Item

theorem map_fst_labels (pos : Nat) (items : List Item) :
    (labels pos items).map Prod.fst = (labelsOf items).reverse := by
  induction items generalizing pos with
  | nil => rfl
  | cons item items ih =>
    cases item with
    | label n => simp [labels, ih]
    | instr i => simp [labels, ih]

theorem exists_relocate
    (h : ∀ n ∈ targetsOf items, n ∈ table.map Prod.fst) : ∃ is, relocate table items = .ok is := by
  induction items with
  | nil => exact ⟨[], rfl⟩
  | cons item items ih =>
    rw [targetsOf_cons] at h
    obtain ⟨is, his⟩ := ih fun n hn => h n (mem_append_right _ hn)
    cases item with
    | label n => exact ⟨is, his⟩
    | instr i =>
      have hi : ∃ j, i.retarget (position table) = .ok j := by
        cases i with
        | jump kind n =>
          have hn : n ∈ table.map Prod.fst := h n (by simp [target?])
          cases hlookup : table.lookup n with
          | none => exact absurd hn (not_mem_of_lookup hlookup)
          | some pos => exact ⟨.jump kind pos, by rw [Instr.retarget, position, hlookup]; rfl⟩
        | _ => exact ⟨_, rfl⟩
      obtain ⟨j, hj⟩ := hi
      exact ⟨j :: is, by rw [relocate, hj, his]; rfl⟩

theorem length_of_relocate (h : relocate table items = .ok is) : is.length = extent items := by
  induction items generalizing is with
  | nil =>
    cases h
    rfl
  | cons item items ih =>
    cases item with
    | label n => exact ih h
    | instr i =>
      obtain ⟨j, -, h⟩ := ok_of_bind h
      obtain ⟨js, hjs, h⟩ := ok_of_bind h
      cases h
      rw [length_cons, ih hjs, extent]

theorem placed_of_relocate (before : List (Instr Nat Bytecode)) (h : relocate table items = .ok is)
    (htable : ∀ n pos, (n, pos) ∈ labels before.length items → table.lookup n = some pos) :
    Placed table (before ++ is).toArray before.length items := by
  induction items generalizing before is with
  | nil => trivial
  | cons item items ih =>
    cases item with
    | label n =>
      have hn : table.lookup n = some before.length := htable n _ (by simp [labels])
      exact ⟨by rw [position, hn], ih before h fun m pos hm => htable m pos (by simp [labels, hm])⟩
    | instr i =>
      obtain ⟨j, hj, h⟩ := ok_of_bind h
      obtain ⟨js, hjs, h⟩ := ok_of_bind h
      cases h
      have hrest := ih (before ++ [j]) hjs fun m pos hm =>
        htable m pos (by simpa [labels] using hm)
      refine ⟨⟨j, hj, by simp⟩, ?_⟩
      simpa using hrest

end Item

theorem Laid.eq_map (h : Laid is.toArray 0 lines) (hlength : is.length = lines.length) :
    is = lines.map Line.instr := by
  refine ext_getElem? fun i => ?_
  by_cases hi : i < lines.length
  · have hcode := h.getElem? (getElem?_eq_getElem hi)
    rw [Nat.zero_add, getElem?_toArray] at hcode
    rw [hcode, getElem?_map, getElem?_eq_getElem hi, Option.map_some]
  · rw [getElem?_eq_none (by omega), getElem?_eq_none (by simpa using hi)]

/-- What is emitted for a body can be resolved, and then it is the layout of the
body from position 0. -/
theorem Node.resolve_eq {scopes : Nat → Scope} {body : Node} {a : Assembler}
    (hrun : (body.compile scopes).run {} = .ok () a) :
    resolve a.items.toList = .ok ((body.layout scopes 0 0 {}).map Line.instr) := by
  obtain ⟨items, high, rfl, hitems⟩ := Node.compile_emits scopes 0 body {} a (by decide) hrun
  have hresolve : resolve (Array.toList (#[] ++ items.toArray))
      = relocate (labels 0 items) items := by simp [resolve]
  -- Outside of all loops there is no label to jump to but those emitted.
  obtain ⟨is, his⟩ : ∃ is, relocate (labels 0 items) items = .ok is := by
    refine exists_relocate fun n hn => ?_
    rw [map_fst_labels, mem_reverse]
    rcases (hitems.labels n).2 hn with hn | hn | hn
    · exact hn
    · cases hn
    · cases hn
  -- All labels are different, so the table has each of them where it stands.
  have hnodup : ((labels 0 items).map Prod.fst).Nodup := by
    rw [map_fst_labels, nodup_reverse]
    exact hitems.nodup
  have hplaced : Placed (labels 0 items) is.toArray 0 items :=
    placed_of_relocate [] his fun n pos hn => lookup_of_nodup hnodup hn
  have hlaid : Laid is.toArray 0 (body.layout scopes 0 0 {}) :=
    hitems.laid hplaced leads_none leads_none
  rw [hresolve, his, hlaid.eq_map]
  rw [length_of_relocate his, hitems.extent, Node.length_layout]

namespace Bytecode

def IsCodeOf (scopes : Nat → Scope) (body : Node) (b : Bytecode) : Prop :=
  ∃ name scope, Node.assembleBody name scope (body.compile scopes) = .ok b

variable {scopes : Nat → Scope} {body : Node} {b : Bytecode}

theorem assemble_spec {name : String} {scope : Scope} (h : assemble name scope items = .ok b) :
    resolve items = .ok b.listing.toList ∧
      b.code.toList = dropReturns false b.listing.toList ∧
      ∃ size, stackEstimate 0 0 b.code.toList = .ok size ∧ b.stackSize = size.toNat := by
  obtain ⟨listing, hresolve, h⟩ := ok_of_bind h
  obtain ⟨size, hsize, h⟩ := ok_of_bind h
  cases h
  exact ⟨hresolve, rfl, size, hsize, rfl⟩

theorem IsCodeOf.assemble_eq (h : b.IsCodeOf scopes body) :
    ∃ name scope items, assemble name scope items = .ok b := by
  obtain ⟨name, scope, h⟩ := h
  unfold Node.assembleBody at h
  split at h
  · exact ⟨name, scope, _, h⟩
  · cases h

theorem IsCodeOf.listing_eq (h : b.IsCodeOf scopes body) :
    b.listing.toList = (body.layout scopes 0 0 {}).map Line.instr := by
  obtain ⟨name, scope, h⟩ := h
  unfold Node.assembleBody at h
  split at h
  case h_2 => cases h
  case h_1 r a hrun =>
    exact Except.ok.inj ((assemble_spec h).1.symm.trans (Node.resolve_eq hrun))

theorem IsCodeOf.code_eq (h : b.IsCodeOf scopes body) :
    b.code.toList = dropReturns false b.listing.toList := by
  obtain ⟨_, _, _, h⟩ := h.assemble_eq
  exact (assemble_spec h).2.1

theorem IsCodeOf.stackEstimate_eq (h : b.IsCodeOf scopes body) :
    ∃ size, stackEstimate 0 0 b.code.toList = .ok size ∧ b.stackSize = size.toNat := by
  obtain ⟨_, _, _, h⟩ := h.assemble_eq
  exact (assemble_spec h).2.2

end Bytecode

theorem Node.assembles_iff {scopes : Nat → Scope} {body : Node} {name : String} {scope : Scope} :
    (∃ b, assembleBody name scope (body.compile scopes) = .ok b) ↔
      (∃ a, (body.compile scopes).run {} = .ok () a) ∧
      ∃ size, Bytecode.stackEstimate 0 0 (Bytecode.dropReturns false
        ((body.layout scopes 0 0 {}).map Line.instr)) = .ok size := by
  unfold assembleBody
  cases hrun : (body.compile scopes).run {} with
  | error fault a => simp
  | ok _ a =>
    have hassemble : ∀ size, Bytecode.stackEstimate 0 0 (Bytecode.dropReturns false
        ((body.layout scopes 0 0 {}).map Line.instr)) = .ok size →
        ∃ b, Bytecode.assemble name scope a.items.toList = .ok b := by
      intro size hsize
      rw [Bytecode.assemble, resolve_eq hrun]
      simp only [bind, Except.bind, hsize]
      exact ⟨_, rfl⟩
    constructor
    · rintro ⟨b, hb⟩
      obtain ⟨hresolve, hcode, size, hsize, -⟩ := Bytecode.assemble_spec hb
      obtain hlisting := Except.ok.inj (hresolve.symm.trans (resolve_eq hrun))
      rw [hcode, hlisting] at hsize
      exact ⟨⟨a, rfl⟩, size, hsize⟩
    · rintro ⟨-, size, hsize⟩
      exact hassemble size hsize

end PageScript
